import CodeAtlas.Layout.CycleBreaking

/-!
# Ranks

In an acyclic graph the rank of a node is the number of arcs on a longest path that
ends in it. Ranks are found by visiting nodes whose predecessors have all been
visited.
-/

namespace CodeAtlas.Layout

/-- Ranks under construction. -/
structure Ranking where
  /-- The longest path found so far to each node. -/
  ranks : List Nat
  /-- For each node, how many arcs into it come from nodes not visited yet. -/
  waiting : List Nat
  /-- Nodes that wait for nothing, in the order in which they will be visited. -/
  queue : List Nat
  /-- How many nodes have been visited. -/
  visited : Nat

namespace Ranking

def start (n : Nat) (arcs : List Arc) : Ranking where
  ranks := List.replicate n 0
  waiting := (List.range n).map fun v => (predecessors arcs v).length
  queue := (List.range n).filter fun v => (predecessors arcs v).isEmpty
  visited := 0

/-- Follow an arc to `t` from a node of the given rank. -/
def follow (rank : Nat) (r : Ranking) (t : Nat) : Ranking :=
  let waiting := r.waiting.modify t (· - 1)
  { r with
    ranks := r.ranks.modify t (max · (rank + 1))
    waiting := waiting
    queue := if waiting.getD t 1 = 0 then r.queue ++ [t] else r.queue }

/-- Visit the nodes of the queue. No node enters it twice, which bounds the visits. -/
def visit (arcs : List Arc) : Nat → Ranking → Ranking
  | 0, r => r
  | visits + 1, r =>
    match r.queue with
    | [] => r
    | v :: queue =>
      visit arcs visits
        ((successors arcs v).foldl (follow (r.ranks.getD v 0))
          { r with queue := queue, visited := r.visited + 1 })

end Ranking

def visitAll (n : Nat) (arcs : List Arc) : Ranking :=
  Ranking.visit arcs n (Ranking.start n arcs)

/-- The rank of every node. A node that cannot be visited keeps what was found so far. -/
def ranks (n : Nat) (arcs : List Arc) : List Nat :=
  (visitAll n arcs).ranks

end CodeAtlas.Layout
