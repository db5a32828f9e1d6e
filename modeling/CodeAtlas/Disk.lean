import CodeAtlas.NodeId

/-!
# A directory of text files

The files below one directory, addressed by relative paths. In a path, empty
segments and `.` stay where they are and `..` goes up. A path that ends in one of
these names a directory, and a path that starts with a slash leads elsewhere.

The directories above are there, and `..` leads to them; nothing is known to be in
them. Names and paths have a greatest length, counted in bytes.
-/

namespace CodeAtlas

/-- Files and folders below one directory, by the segments of their paths. -/
structure Disk where
  files : List (List String × String) := []
  folders : List (List String) := []
deriving Repr, BEq

namespace Disk

def isFile (d : Disk) (place : List String) : Bool :=
  (d.files.lookup place).isSome

/-- Is this the directory itself or one above it? -/
def isAbove (place : List String) : Bool :=
  place.all (· == "..")

def isFolder (d : Disk) (place : List String) : Bool :=
  isAbove place || d.folders.contains place

def isName (segment : String) : Bool :=
  segment.utf8ByteSize ≤ 255 && segment.toList.all (· != '\x00')

/-- The length of the longest path that can be followed. -/
def pathLimit : Nat := 4095

/--
The length of the path that leads to the directory itself. A file is written by its
full path, so this much of the limit is used up; it is read by the path as given.
-/
def ownLength : Nat := 16

/-- Does the segment lead to a folder that is there already? -/
def isStep (segment : String) : Bool :=
  segment == "" || segment == "." || segment == ".."

/-- Where a segment that names nothing new leads. -/
def stepFrom (here : List String) (segment : String) : List String :=
  if segment != ".." then here
  else if isAbove here then here ++ [".."]
  else here.dropLast

def descend? (d : Disk) : List String → List String → Option (List String)
  | here, [] => some here
  | here, segment :: rest =>
    if isStep segment then d.descend? (stepFrom here segment) rest
    else if d.isFolder (here ++ [segment]) then d.descend? (here ++ [segment]) rest
    else none

/--
Follow folders and make those that are missing. A file in the way stops this, and so
does a name that no folder can have.
-/
def makeFolders? (d : Disk) : List String → List String → Option (Disk × List String)
  | here, [] => some (d, here)
  | here, segment :: rest =>
    if isStep segment then d.makeFolders? (stepFrom here segment) rest
    else
      let place := here ++ [segment]
      if d.isFile place || !isName segment then none
      else if d.isFolder place then d.makeFolders? place rest
      else makeFolders? { d with folders := place :: d.folders } place rest

/-- The folders of a path and the name at its end, if the path may lead to a file. -/
def split? (path : String) : Option (List String × String) :=
  let segments := NodeId.segments path
  match segments.reverse with
  | [] => none
  | name :: above =>
    if isStep name || (segments.length > 1 && segments.head? == some "") then none
    else some (above.reverse, name)

def read? (d : Disk) (path : String) : Option String := do
  let (folders, name) ← split? path
  let here ← d.descend? [] folders
  if path.utf8ByteSize ≤ pathLimit then d.files.lookup (here ++ [name]) else none

/-- Write a file, and make the folders that lead to it. -/
def write? (d : Disk) (path text : String) : Option Disk := do
  let (folders, name) ← split? path
  let (d, here) ← d.makeFolders? [] folders
  let place := here ++ [name]
  if d.isFolder place || !isName name || ownLength + path.utf8ByteSize > pathLimit then none
  else some { d with files := (place, text) :: d.files }

def ofFiles (files : List (String × String)) : Disk :=
  files.foldl (fun d (path, text) => (d.write? path text).getD d) {}

end Disk

end CodeAtlas
