import CodeAtlas.NodeId

/-!
# The folder tree

The identifiers of files are paths, and together they make up a tree of folders and
files. At every level folders come before files, and both are ordered by name.
Identifiers of dependencies are no paths and are left out.
-/

namespace CodeAtlas.Explorer

inductive EntryKind where
  | folder
  | file
deriving Repr, BEq, DecidableEq

namespace EntryKind

def name : EntryKind → String
  | .folder => "folder"
  | .file => "file"

def ofName? : String → Option EntryKind
  | "folder" => some .folder
  | "file" => some .file
  | _ => none

def unknownMessage (text : String) : String :=
  "Invalid tree entry kind: " ++ text

/-- Folders come first. -/
def rank : EntryKind → Nat
  | .folder => 0
  | .file => 1

theorem ofName?_name (k : EntryKind) : ofName? k.name = some k := by
  cases k <;> rfl

end EntryKind

/-- An entry of the tree. In a tree made from identifiers exactly the folders have children. -/
inductive Entry where
  | mk (name path : String) (kind : EntryKind) (children : Option (List Entry))

namespace Entry

def name : Entry → String
  | .mk name _ _ _ => name

def path : Entry → String
  | .mk _ path _ _ => path

def kind : Entry → EntryKind
  | .mk _ _ kind _ => kind

/-- The entries below this one, if it is one that can have any. -/
def children? : Entry → Option (List Entry)
  | .mk _ _ _ children => children

def children (e : Entry) : List Entry :=
  e.children?.getD []

def isFolder (e : Entry) : Bool :=
  e.kind == .folder

def withChildren : Entry → List Entry → Entry
  | .mk name path kind _, children => .mk name path kind (some children)

def folder (name path : String) : Entry :=
  .mk name path .folder (some [])

def file (name path : String) : Entry :=
  .mk name path .file none

mutual

/-- How many entries there are from this one down. -/
def size : Entry → Nat
  | .mk _ _ _ none => 1
  | .mk _ _ _ (some children) => 1 + sizeAll children

def sizeAll : List Entry → Nat
  | [] => 0
  | e :: es => e.size + sizeAll es

end

theorem size_eq (e : Entry) : e.size = 1 + sizeAll e.children := by
  rcases e with ⟨name, path, kind, _ | children⟩ <;> rfl

theorem sizeAll_append (es es' : List Entry) : sizeAll (es ++ es') = sizeAll es + sizeAll es' := by
  induction es with
  | nil => simp [sizeAll]
  | cons e es ih =>
      simp only [List.cons_append, sizeAll, ih]
      omega

theorem sizeAll_reverse (es : List Entry) : sizeAll es.reverse = sizeAll es := by
  induction es with
  | nil => rfl
  | cons e es ih =>
      simp only [List.reverse_cons, sizeAll_append, sizeAll, ih]
      omega

/-- Folders before files, then by name. -/
def le (a b : Entry) : Bool :=
  decide (a.kind.rank < b.kind.rank) || (a.kind == b.kind && decide (a.name ≤ b.name))

mutual

/-- The entry with every level below it in order. -/
def sortBelow : Entry → Entry
  | .mk name path kind none => .mk name path kind none
  | .mk name path kind (some children) =>
    .mk name path kind (some ((sortBelowAll children).mergeSort le))

def sortBelowAll : List Entry → List Entry
  | [] => []
  | e :: es => e.sortBelow :: sortBelowAll es

end

/-- The trees with every level in order. Entries that the order does not tell apart keep theirs. -/
def sortAll (entries : List Entry) : List Entry :=
  (sortBelowAll entries).mergeSort le

/-- Change the first entry that passes the test; if there is none, add one at the end. -/
def changeFirst (test : Entry → Bool) (change : Entry → Entry) (fresh : Entry) :
    List Entry → List Entry
  | [] => [change fresh]
  | e :: es => if test e then change e :: es else e :: changeFirst test change fresh es

/--
Add a file to a level of the tree. `above` are the folders that lead to the level,
and the other segments lead from there to the file.
-/
def insert (identifier : NodeId) : List String → List String → List Entry → List Entry
  | _, [], level => level
  | _, [name], level =>
    if level.any fun e => e.kind == .file && e.name == name then level
    else level ++ [file name identifier]
  | above, name :: next :: rest, level =>
    let here := above ++ [name]
    changeFirst
      (fun e => e.isFolder && e.name == name)
      (fun e => e.withChildren (insert identifier here (next :: rest) e.children))
      (folder name (NodeId.ofSegments here))
      level

/-- Add an identifier to a tree, unless it names a dependency. -/
def insertIdentifier (roots : List Entry) (identifier : NodeId) : List Entry :=
  if NodeId.isDependency identifier then roots
  else insert identifier [] (NodeId.segments identifier) roots

def ofIdentifiers (identifiers : List NodeId) : List Entry :=
  sortAll (identifiers.foldl insertIdentifier [])

end Entry

/-- The names of the dependencies among identifiers, each once, in order of first appearance. -/
def dependencyNames (identifiers : List NodeId) : List String :=
  (identifiers.filterMap NodeId.dependencyName?).eraseDups

end CodeAtlas.Explorer
