/-!
# Breaking cycles

A directed graph on the numbers `0, 1, …, n - 1` is made acyclic by turning some of
its arcs around. The nodes are put into an order by peeling the graph: sinks go to
the end, sources to the front, and when there are neither, the node whose arcs lead
out the most goes to the front. Arcs that then point backward are reversed.
-/

namespace CodeAtlas.Layout

/-- An arc from the first node to the second. -/
abbrev Arc := Nat × Nat

/-- Where the arcs out of `v` lead, in order and with repetitions. -/
def successors (arcs : List Arc) (v : Nat) : List Nat :=
  arcs.filterMap fun (s, t) => if s = v then some t else none

/-- Where the arcs into `v` come from, in order and with repetitions. -/
def predecessors (arcs : List Arc) (v : Nat) : List Nat :=
  arcs.filterMap fun (s, t) => if t = v then some s else none

/-- A graph from which nodes have been taken away one after the other. -/
structure Peeling where
  arcs : List Arc
  /-- Which nodes are still there. -/
  active : List Bool
  /-- For each node that is still there, how many arcs lead to it from others. -/
  inDegree : List Int
  /-- For each node that is still there, how many arcs lead from it to others. -/
  outDegree : List Int
  /-- How many nodes are still there. -/
  remaining : Nat

namespace Peeling

/-- The whole graph on `n` nodes. -/
def start (n : Nat) (arcs : List Arc) : Peeling where
  arcs := arcs
  active := List.replicate n true
  inDegree := (List.range n).map fun v => ((predecessors arcs v).length : Int)
  outDegree := (List.range n).map fun v => ((successors arcs v).length : Int)
  remaining := n

def isActive (p : Peeling) (v : Nat) : Bool :=
  p.active.getD v false

/-- Arcs into a node, from nodes that are still there. -/
def inDegreeOf (p : Peeling) (v : Nat) : Int :=
  p.inDegree.getD v 0

/-- Arcs out of a node, to nodes that are still there. -/
def outDegreeOf (p : Peeling) (v : Nat) : Int :=
  p.outDegree.getD v 0

/-- Count one arc less at each of the listed nodes that is still there. -/
def discount (active : List Bool) (degrees : List Int) (nodes : List Nat) : List Int :=
  nodes.foldl (fun ds v => if active.getD v false then ds.modify v (· - 1) else ds) degrees

def detach (p : Peeling) (v : Nat) : Peeling :=
  let active := p.active.set v false
  { p with
    active := active
    inDegree := discount active p.inDegree (successors p.arcs v)
    outDegree := discount active p.outDegree (predecessors p.arcs v)
    remaining := p.remaining - 1 }

def detachAll (p : Peeling) (nodes : List Nat) : Peeling :=
  nodes.foldl detach p

def activeNodes (p : Peeling) : List Nat :=
  (List.range p.active.length).filter p.isActive

/-- The nodes out of which no arc leads any more. -/
def sinks (p : Peeling) : List Nat :=
  p.activeNodes.filter fun v => p.outDegreeOf v == 0

/-- The nodes into which no arc leads any more. -/
def sources (p : Peeling) : List Nat :=
  p.activeNodes.filter fun v => p.inDegreeOf v == 0

/-- How many more arcs lead out of a node than into it. -/
def surplus (p : Peeling) (v : Nat) : Int :=
  p.outDegreeOf v - p.inDegreeOf v

/-- The node with the greatest surplus, the lowest one of several. -/
def busiest? (p : Peeling) : Option Nat :=
  p.activeNodes.foldl
    (fun best v =>
      match best with
      | none => some v
      | some b => if p.surplus b < p.surplus v then some v else some b)
    none

end Peeling

/-- An order under construction: a front that grows at its end and a back that grows at its start. -/
structure PartialOrdering where
  peeling : Peeling
  front : List Nat
  back : List Nat

namespace PartialOrdering

def start (n : Nat) (arcs : List Arc) : PartialOrdering :=
  ⟨Peeling.start n arcs, [], []⟩

/-- Move sinks to the back as long as there are any. Each turn moves a node, which bounds the turns. -/
def takeSinks : Nat → PartialOrdering → PartialOrdering
  | 0, o => o
  | turns + 1, o =>
    match o.peeling.sinks with
    | [] => o
    | sinks => takeSinks turns
      ⟨o.peeling.detachAll sinks, o.front, sinks.reverse ++ o.back⟩

/-- Move sources to the front as long as there are any. -/
def takeSources : Nat → PartialOrdering → PartialOrdering
  | 0, o => o
  | turns + 1, o =>
    match o.peeling.sources with
    | [] => o
    | sources => takeSources turns
      ⟨o.peeling.detachAll sources, o.front ++ sources, o.back⟩

/-- Move the busiest node to the front, if any node is left. -/
def takeBusiest (o : PartialOrdering) : PartialOrdering :=
  match o.peeling.busiest? with
  | none => o
  | some v => ⟨o.peeling.detach v, o.front ++ [v], o.back⟩

/-- Sinks, then sources, then one busy node. -/
def round (o : PartialOrdering) : PartialOrdering :=
  let o := takeSinks o.peeling.remaining o
  let o := takeSources o.peeling.remaining o
  if o.peeling.remaining = 0 then o else o.takeBusiest

/-- Rounds until no node is left. Each round moves a node, which bounds the rounds. -/
def rounds : Nat → PartialOrdering → PartialOrdering
  | 0, o => o
  | turns + 1, o => if o.peeling.remaining = 0 then o else rounds turns o.round

end PartialOrdering

/-- All nodes in an order in which few arcs point backward. -/
def greedyOrder (n : Nat) (arcs : List Arc) : List Nat :=
  let o := PartialOrdering.rounds n (PartialOrdering.start n arcs)
  o.front ++ o.back

/-- Turn an arc around if it points backward in the given order. -/
def forward (order : List Nat) (arc : Arc) : Arc :=
  if order.idxOf arc.2 < order.idxOf arc.1 then arc.swap else arc

/-- The arcs, with those turned around that point backward in the greedy order. -/
def breakCycles (n : Nat) (arcs : List Arc) : List Arc :=
  let order := greedyOrder n arcs
  arcs.map (forward order)

end CodeAtlas.Layout
