import CodeAtlas.Graph.Node

/-!
# Snapshots

A snapshot is everything an analyzer reports at one moment: nodes and the edges
between them. Nothing is promised about it. Identifiers may repeat, and an edge may
lead to a node that was not reported.
-/

namespace CodeAtlas

/-- A directed edge between two nodes. -/
structure Edge where
  id : Option String := none
  source : NodeId
  target : NodeId
  label : Option String := none
deriving Repr, BEq, DecidableEq

/-- Is the node one of the two ends of the edge? -/
def Edge.touches (edge : Edge) (node : NodeId) : Bool :=
  edge.source == node || edge.target == node

/-- What an analyzer reports at one moment. -/
structure Snapshot where
  nodes : List RawNode := []
  edges : List Edge := []
deriving Repr, BEq, DecidableEq

namespace Snapshot

/-- A snapshot without nodes is empty, whatever edges it has. -/
def isEmpty (s : Snapshot) : Bool :=
  s.nodes.isEmpty

def identifiers (s : Snapshot) : List NodeId :=
  s.nodes.map (·.id)

end Snapshot

end CodeAtlas
