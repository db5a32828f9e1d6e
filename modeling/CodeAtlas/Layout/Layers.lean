import CodeAtlas.Layout.Ranking
import CodeAtlas.Scalar

/-!
# Layers

The nodes of one rank make up a layer. Inside a layer nodes are first ordered by
their keys; then layers are swept down and up, and each is reordered by the mean
position of its nodes' neighbours in the layers before it.
-/

namespace CodeAtlas.Layout

/-- How many layers there are: one more than the highest rank. -/
def layerCount (ranks : List Nat) : Nat :=
  match ranks with
  | [] => 0
  | rank :: rest => rest.foldl max rank + 1

/-- The nodes of each rank, ordered by key. -/
def layers (keys : List String) (ranks : List Nat) : List (List Nat) :=
  (List.range (layerCount ranks)).map fun rank =>
    ((List.range ranks.length).filter fun v => ranks.getD v 0 == rank).mergeSort
      fun a b => decide (keys.getD a "" ≤ keys.getD b "")

section Sweeping

variable {α : Type} [Scalar α]

/-- The mean position of the neighbours of `v`; its own position if it has none. -/
def barycenter (positions : List α) (around : Nat → List Nat) (v : Nat) : α :=
  match around v with
  | [] => positions.getD v 0
  | neighbours =>
    Scalar.total (neighbours.map fun n => positions.getD n 0) / Scalar.ofNat neighbours.length

/-- Note for every node of a layer at which place it stands. -/
def reposition (positions : List α) (layer : List Nat) : List α :=
  layer.zipIdx.foldl (fun ps (v, place) => ps.set v (Scalar.ofNat place)) positions

/-- A layer ordered by barycenter; nodes with equal ones keep their order. -/
def sortLayer (positions : List α) (around : Nat → List Nat) (layer : List Nat) : List Nat :=
  ((layer.map fun v => (v, barycenter positions around v)).mergeSort
    fun a b => !decide (b.2 < a.2)).map (·.1)

/-- Reorder layers one after the other, each with the positions left by the ones before. -/
def sweep (around : Nat → List Nat) : List α → List (List Nat) → List α × List (List Nat)
  | positions, [] => (positions, [])
  | positions, layer :: rest =>
    let layer := sortLayer positions around layer
    let (positions, rest) := sweep around (reposition positions layer) rest
    (positions, layer :: rest)

/-- Sweep all layers but the first. -/
def sweepAfterFirst (around : Nat → List Nat) (positions : List α) :
    List (List Nat) → List α × List (List Nat)
  | [] => (positions, [])
  | first :: rest =>
    let (positions, rest) := sweep around positions rest
    (positions, first :: rest)

/-- Sweep once down, by what leads into a node, and once up, by what leads out of it. -/
def sweepBothWays (arcs : List Arc) (state : List α × List (List Nat)) :
    List α × List (List Nat) :=
  let (positions, down) := sweepAfterFirst (predecessors arcs) state.1 state.2
  let (positions, up) := sweepAfterFirst (successors arcs) positions down.reverse
  (positions, up.reverse)

def sweepCount : Nat := 4

def untangle (α : Type) [Scalar α] (n : Nat) (arcs : List Arc) (layers : List (List Nat)) :
    List (List Nat) :=
  let positions : List α := layers.foldl reposition (List.replicate n 0)
  (Nat.repeat (sweepBothWays arcs) sweepCount (positions, layers)).2

end Sweeping

end CodeAtlas.Layout
