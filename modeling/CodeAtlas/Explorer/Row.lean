import CodeAtlas.Explorer.Entry

/-!
# Rows of the explorer

The tree as a list of lines: every entry that is not hidden in a closed folder.
-/

namespace CodeAtlas.Explorer

structure Row where
  depth : Nat
  name : String
  path : String
  kind : EntryKind
  /-- An open folder. -/
  expanded : Bool
deriving Repr, BEq, DecidableEq

namespace Entry

/-- Is this a folder that is open? -/
def isOpen (expanded : List String) (e : Entry) : Bool :=
  e.isFolder && expanded.contains e.path

def row (expanded : List String) (depth : Nat) (e : Entry) : Row :=
  ⟨depth, e.name, e.path, e.kind, e.isOpen expanded⟩

mutual

/-- The line of an entry, and those below it if it is open. -/
def rows (expanded : List String) (depth : Nat) : Entry → List Row
  | e@(.mk _ _ _ none) => [e.row expanded depth]
  | e@(.mk _ _ _ (some children)) =>
    e.row expanded depth ::
      if e.isOpen expanded then rowsAll expanded (depth + 1) children else []

def rowsAll (expanded : List String) (depth : Nat) : List Entry → List Row
  | [] => []
  | e :: es => rows expanded depth e ++ rowsAll expanded depth es

end

mutual

/-- The paths of this folder and of all folders that are reached from it through folders. -/
def folderPaths : Entry → List String
  | .mk _ _ .file _ => []
  | .mk _ path .folder none => [path]
  | .mk _ path .folder (some children) => path :: folderPathsAll children

def folderPathsAll : List Entry → List String
  | [] => []
  | e :: es => folderPaths e ++ folderPathsAll es

end

/--
The paths of the folders that are met when entries are taken off the top of a stack one after the
other, and the children of each folder are put on top of it, the last one uppermost.
-/
def collectFolders : List Entry → List String
  | [] => []
  | e :: stack =>
    if e.isFolder then e.path :: collectFolders (e.children.reverse ++ stack)
    else collectFolders stack
termination_by stack => sizeAll stack
decreasing_by
  · rw [sizeAll_append, sizeAll_reverse, sizeAll, size_eq]
    omega
  · rw [sizeAll, size_eq]
    omega

end Entry

/-- The paths of all folders of a tree, collected with the last root on top of the stack. -/
def allFolders (tree : List Entry) : List String :=
  Entry.collectFolders tree.reverse

/-- The rows of a tree of which the folders with the given paths are open. -/
def visibleRows (tree : List Entry) (expanded : List String) : List Row :=
  Entry.rowsAll expanded 0 tree

end CodeAtlas.Explorer
