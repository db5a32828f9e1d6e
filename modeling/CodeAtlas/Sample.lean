import CodeAtlas.Graph.Snapshot

/-!
# A sample project

A project of any size in which every member calls into the next two files. The last
files call back into the first ones, so that the calls between files form a cycle.
-/

namespace CodeAtlas.Sample

/-- Files are spread over this many folders. -/
def folderCount : Nat := 16

def path (file : Nat) : String :=
  "pkg/mod_" ++ Nat.repr (file % folderCount) ++ "/file_" ++ Nat.repr file ++ ".py"

/-- The name of a member of a file: a class, then functions. -/
def memberName (file : Nat) : Nat → String
  | 0 => "Model_" ++ Nat.repr file ++ NodeId.classMark
  | member => "func_" ++ Nat.repr member

/-- What every call into a file names: the first function there, written out in one piece. -/
def entryPoint (file : Nat) : NodeId :=
  "pkg/mod_" ++ Nat.repr (file % 16) ++ "/file_" ++ Nat.repr file ++ ".py::func_1"

def memberNode (file member : Nat) : RawNode :=
  RawNode.member (path file) (memberName file member)

def fileNodes (members file : Nat) : List RawNode :=
  RawNode.file (path file) :: (List.range members).map (memberNode file)

/-- The calls of a member: one into each of the next two files that is another file. -/
def calls (files file member : Nat) : List Edge :=
  [1, 2].filterMap fun step =>
    let target := (file + step) % files
    if target = file then none
    else some { source := (memberNode file member).id, target := entryPoint target }

def project (files members : Nat) : Snapshot where
  nodes := (List.range files).flatMap (fileNodes members)
  edges := (List.range files).flatMap fun file =>
    (List.range members).flatMap (calls files file)

end CodeAtlas.Sample
