import CodeAtlas.NodeId

/-!
# Nodes

A raw node is what an analyzer reports. Classification gives it a kind: a node
without a parent is a file, and a member is a class when its identifier says so
and a function otherwise.
-/

namespace CodeAtlas

inductive NodeKind where
  | file
  | function
  | classDef
deriving Repr, BEq, DecidableEq

namespace NodeKind

/-- Only files hold other nodes. -/
def isContainer : NodeKind → Bool
  | .file => true
  | _ => false

def name : NodeKind → String
  | .file => "file"
  | .function => "function"
  | .classDef => "class"

def ofName? : String → Option NodeKind
  | "file" => some .file
  | "function" => some .function
  | "class" => some .classDef
  | _ => none

def unknownMessage (text : String) : String :=
  "Invalid node kind: " ++ text

theorem ofName?_name (k : NodeKind) : ofName? k.name = some k := by
  cases k <;> rfl

end NodeKind

/-- A node as an analyzer reports it. -/
structure RawNode where
  id : NodeId
  label : String := ""
  args : List String := []
  returns : String := ""
  parent : Option NodeId := none
deriving Repr, BEq, DecidableEq

namespace RawNode

/-- The node of a file, labelled with the last segment of its path. -/
def file (path : String) : RawNode :=
  { id := path, label := NodeId.lastSegment path }

def member (file name : String) : RawNode :=
  { id := NodeId.member file name, label := name, parent := some file }

/-- Does the node name a parent? An empty name counts as none. -/
def hasParent (raw : RawNode) : Bool :=
  match raw.parent with
  | some parent => !parent.isEmpty
  | none => false

def kind (raw : RawNode) : NodeKind :=
  if !raw.hasParent then .file
  else if NodeId.hasClassMark raw.id then .classDef
  else .function

end RawNode

/-- A classified node. -/
structure Node where
  id : NodeId
  kind : NodeKind
  label : String
  args : List String
  returns : String
  parent : Option NodeId
deriving Repr, BEq, DecidableEq

namespace Node

/-- A reported node with its kind. A node without a label is labelled by its identifier. -/
def ofRaw (raw : RawNode) : Node where
  id := raw.id
  kind := raw.kind
  label := if raw.label.isEmpty then raw.id else raw.label
  args := raw.args
  returns := raw.returns
  parent := if raw.hasParent then raw.parent else none

/-- What is shown where there is nothing to show. -/
def void : String := "void"

def argsText (node : Node) : String :=
  if node.args.isEmpty then void else ", ".intercalate node.args

def returnsText (node : Node) : String :=
  if node.returns.isEmpty || node.returns == "None" then void else node.returns

end Node

def classify (raws : List RawNode) : List Node :=
  raws.map Node.ofRaw

/-- The parents that nodes name, each once, in the order in which they are first named. -/
def parentsOf (nodes : List Node) : List NodeId :=
  (nodes.filterMap (·.parent)).eraseDups

/-- The positions of the nodes that name `parent` as their parent. -/
def positionsOf (nodes : List Node) (parent : NodeId) : List Nat :=
  (nodes.zipIdx.filter fun (node, _) => node.parent == some parent).map (·.2)

end CodeAtlas
