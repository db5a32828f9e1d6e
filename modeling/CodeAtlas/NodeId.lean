/-!
# Node identifiers

Every node of a snapshot is named by a string. A file is named by its path, a
member by `<file>::<name>`, a class may carry a `::class` mark, and a
third-party module is named `module:<name>`. All readings below are stated on
the characters of the identifier.
-/

namespace CodeAtlas

/-- The name of a node: a path, a member of a path, or a dependency. -/
abbrev NodeId := String

namespace NodeId

/-- What the identifier of a third-party module begins with. -/
def dependencyMark : String := "module:"

/-- What stands between a file and the name of one of its members. -/
def memberMark : String := "::"

def classMark : String := "::class"

def pathMark : Char := '/'

/--
Cut a list at the first place where `mark` stands: what comes before it and what
comes after it. `none` means that `mark` stands nowhere in the list.
-/
def cutAt? {α : Type} [BEq α] (mark : List α) : List α → Option (List α × List α)
  | [] => if mark.isEmpty then some ([], []) else none
  | c :: cs =>
    if mark.isPrefixOf (c :: cs) then some ([], (c :: cs).drop mark.length)
    else (cutAt? mark cs).map fun (before, after) => (c :: before, after)

def isDependency (id : NodeId) : Bool :=
  dependencyMark.toList.isPrefixOf id.toList

def dependencyName? (id : NodeId) : Option String :=
  if isDependency id then some (String.ofList (id.toList.drop dependencyMark.toList.length))
  else none

def ofDependency (name : String) : NodeId :=
  dependencyMark ++ name

/-- Does the class mark stand anywhere in the identifier? -/
def hasClassMark (id : NodeId) : Bool :=
  (cutAt? classMark.toList id.toList).isSome

def hasMemberMark (id : NodeId) : Bool :=
  (cutAt? memberMark.toList id.toList).isSome

/-- What stands before the first member mark; the whole identifier if there is none. -/
def filePart (id : NodeId) : String :=
  match cutAt? memberMark.toList id.toList with
  | some (before, _) => String.ofList before
  | none => id

/-- The segments of a path. There is always at least one, possibly empty. -/
def segments (path : String) : List String :=
  (path.toList.splitOn pathMark).map String.ofList

def ofSegments (names : List String) : String :=
  String.ofList ([pathMark].intercalate (names.map String.toList))

def lastSegment (path : String) : String :=
  (segments path).getLastD ""

def member (file name : String) : NodeId :=
  file ++ memberMark ++ name

end NodeId

end CodeAtlas
