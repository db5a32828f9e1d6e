import CodeAtlas.Graph.Snapshot

/-!
# The graph of a snapshot

Of several nodes with one identifier the first one counts. Nodes are addressed by
their position among those that count. A member belongs to the file that its
parent names; a member whose parent is missing or is not a file is an orphan. The
edges between nodes are lifted to edges between the files that hold them.
-/

namespace CodeAtlas

/-- Keep the first of several elements with one key. -/
def firstByKey {α β : Type} [BEq β] (key : α → β) : List α → List α
  | [] => []
  | a :: as => a :: (firstByKey key as).filter fun b => key b != key a

/-- The nodes that count, and all edges. -/
structure Model where
  nodes : List Node
  edges : List Edge

namespace Model

def ofNodes (nodes : List Node) (edges : List Edge) : Model where
  nodes := firstByKey (·.id) nodes
  edges := edges

def isEmpty (m : Model) : Bool :=
  m.nodes.isEmpty

def indices (m : Model) : List Nat :=
  List.range m.nodes.length

def indexOf? (m : Model) (id : NodeId) : Option Nat :=
  m.nodes.findIdx? fun node => node.id == id

def node? (m : Model) (id : NodeId) : Option Node :=
  m.nodes.find? fun node => node.id == id

def isFile (m : Model) (i : Nat) : Bool :=
  match m.nodes[i]? with
  | some node => node.kind.isContainer
  | none => false

def files (m : Model) : List Nat :=
  m.indices.filter m.isFile

/-- The positions of the members of the file at position `file`. -/
def childrenOf (m : Model) (file : Nat) : List Nat :=
  match m.nodes[file]? with
  | some node =>
    if node.kind.isContainer then (positionsOf m.nodes node.id).filter fun i => !m.isFile i
    else []
  | none => []

/-- The positions of all members that belong to some file. -/
def attached (m : Model) : List Nat :=
  m.files.flatMap m.childrenOf

/-- The positions of the members that belong to no file. -/
def orphans (m : Model) : List Nat :=
  let attached := m.attached
  m.indices.filter fun i => !m.isFile i && !attached.contains i

/-- The file in which a node is drawn: itself for a file, the parent's file for a member. -/
def ownerOf? (m : Model) (i : Nat) : Option Nat :=
  if m.isFile i then some i
  else do
    let node ← m.nodes[i]?
    let parent ← node.parent
    let owner ← m.indexOf? parent
    if m.isFile owner then some owner else none

def fileOf? (m : Model) (id : NodeId) : Option Nat :=
  (m.indexOf? id).bind m.ownerOf?

/-- An edge between two different files, if the given edge leads from one to another. -/
def liftEdge? (m : Model) (edge : Edge) : Option (Nat × Nat) :=
  match m.fileOf? edge.source, m.fileOf? edge.target with
  | some source, some target => if source = target then none else some (source, target)
  | _, _ => none

/-- The edges between files, in the order of the edges, repetitions included. -/
def fileEdges (m : Model) : List (Nat × Nat) :=
  m.edges.filterMap m.liftEdge?

end Model

end CodeAtlas
