import CodeAtlas.Explorer.Codec
import CodeAtlas.Layout.Codec

/-!
# Views

A view is everything that is derived from one snapshot: the classified nodes, the
diagram, the folder tree and the dependencies.
-/

namespace CodeAtlas

def fileIdentifiers (nodes : List Node) : List NodeId :=
  (nodes.filter fun node => node.kind.isContainer).map (·.id)

/-- The identifiers of a snapshot: those of its nodes, then both ends of every edge. -/
def Snapshot.mentioned (s : Snapshot) : List NodeId :=
  s.identifiers ++ s.edges.flatMap fun edge => [edge.source, edge.target]

/-- The folder tree of a snapshot. Members are not listed; they are drawn inside their file. -/
def Snapshot.tree (s : Snapshot) : List Explorer.Entry :=
  Explorer.Entry.ofIdentifiers (fileIdentifiers (classify s.nodes))

def Snapshot.dependencies (s : Snapshot) : List String :=
  Explorer.dependencyNames s.mentioned

/-- Everything that is derived from one snapshot. -/
structure View where
  /-- How many snapshots have been shown so far. -/
  generation : Nat
  snapshot : Snapshot
  nodes : List Node
  diagram : Diagram Float32
  tree : List Explorer.Entry
  dependencies : List String

namespace View

def build (generation : Nat) (snapshot : Snapshot) (metrics : Metrics Float32) : View :=
  let nodes := classify snapshot.nodes
  { generation
    snapshot
    nodes
    diagram := Diagram.draw metrics nodes snapshot.edges
    tree := snapshot.tree
    dependencies := snapshot.dependencies }

def initial : View where
  generation := 0
  snapshot := {}
  nodes := []
  diagram := Diagram.empty
  tree := []
  dependencies := []

/-- The first node with the given identifier. -/
def node? (v : View) (id : NodeId) : Option Node :=
  v.nodes.find? fun node => node.id == id

/--
The path of the file that holds a node: the node itself if it is a file, the parent
of a member, and for an unknown node the part of its identifier that names a file.
-/
def owningFile (v : View) (id : NodeId) : String :=
  match v.node? id with
  | some node =>
    if node.kind = .file then node.id
    else
      match node.parent with
      | some parent => parent
      | none => NodeId.filePart id
  | none => NodeId.filePart id

def toJson (v : View) : Json :=
  .object [
    ("generation", .ofNat v.generation),
    ("snapshot", v.snapshot.toJson),
    ("nodes", .ofList Node.toJson v.nodes),
    ("layout", v.diagram.toJson),
    ("tree", .array (Explorer.Entry.toJsonAll v.tree)),
    ("dependencies", .ofList .string v.dependencies)]

end View

end CodeAtlas
