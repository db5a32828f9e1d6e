import CodeAtlas.Graph.Model
import CodeAtlas.Layout.Layers
import CodeAtlas.Layout.Metrics

/-!
# Placement of files

Files are boxes of given sizes, joined by arcs. They are placed in layers: callers
come before callees along one axis, and the boxes of one layer are spread along the
other. The drawing is moved so that its top left corner is the origin.
-/

namespace CodeAtlas

namespace Direction

variable {α : Type}

/-- The extent of a box along the axis on which ranks follow each other. -/
def along (d : Direction) (size : Point α) : α :=
  match d with
  | .horizontal => size.x
  | .vertical => size.y

/-- The extent of a box along the other axis. -/
def across (d : Direction) (size : Point α) : α :=
  match d with
  | .horizontal => size.y
  | .vertical => size.x

/-- The point with the given coordinates along and across the ranks. -/
def point (d : Direction) (along across : α) : Point α :=
  match d with
  | .horizontal => ⟨along, across⟩
  | .vertical => ⟨across, along⟩

end Direction

namespace Layout

variable {α : Type} [Scalar α]

/-- A file as a box. The key orders boxes of one rank before they are swept. -/
structure FileBox (α : Type) where
  key : NodeId
  size : Point α
deriving Repr, BEq

/-- Files as boxes and the arcs between them. -/
structure FileGraph (α : Type) where
  boxes : List (FileBox α)
  /-- Positions in `boxes`. Arcs may repeat, form cycles or lead nowhere. -/
  arcs : List Arc
deriving Repr, BEq

namespace FileGraph

/-- The files of a model with the given sizes, one for each file. -/
def ofModel (model : Model) (sizes : List (Point α)) : FileGraph α where
  boxes := (model.files.zip sizes).filterMap fun (file, size) =>
    (model.nodes[file]?).map fun node => ⟨node.id, size⟩
  arcs :=
    let files := model.files
    model.fileEdges.filterMap fun (source, target) => do
      some (← files.idxOf? source, ← files.idxOf? target)

def count (g : FileGraph α) : Nat :=
  g.boxes.length

def sizeOf (g : FileGraph α) (v : Nat) : Point α :=
  match g.boxes[v]? with
  | some box => box.size
  | none => Point.origin

/-- The arcs that lead from one box to another one. -/
def properArcs (g : FileGraph α) : List Arc :=
  g.arcs.filter fun (s, t) => s != t && s < g.count && t < g.count

def acyclicArcs (g : FileGraph α) : List Arc :=
  breakCycles g.count g.properArcs

def ranks (g : FileGraph α) : List Nat :=
  Layout.ranks g.count g.acyclicArcs

/-- The boxes of each rank, in their final order. -/
def layers (g : FileGraph α) : List (List Nat) :=
  untangle α g.count g.acyclicArcs (Layout.layers (g.boxes.map (·.key)) g.ranks)

end FileGraph

/-- How far boxes are kept apart, and along which axis ranks follow each other. -/
structure Spacing (α : Type) where
  nodeSeparation : α
  rankSeparation : α
  direction : Direction
deriving Repr, BEq

namespace Spacing

def ofMetrics (m : Metrics α) : Spacing α :=
  ⟨m.nodeSeparation, m.rankSeparation, m.direction⟩

/-- The extent of a layer along the ranks: that of its deepest box. -/
def depth (s : Spacing α) (sizes : List (Point α)) : α :=
  (sizes.map s.direction.along).foldl Scalar.larger 0

/-- The extent of a layer across the ranks: its boxes and the space between them. -/
def breadth (s : Spacing α) (sizes : List (Point α)) : α :=
  Scalar.total (sizes.map s.direction.across) +
    Scalar.ofNat (sizes.length - 1) * s.nodeSeparation

/-- The centers of the boxes of a layer, the first of which starts at `start`. -/
def placeLayer (s : Spacing α) (size : Nat → Point α) (middle : α) :
    α → List Nat → List (Nat × Point α)
  | _, [] => []
  | start, v :: rest =>
    let extent := s.direction.across (size v)
    (v, s.direction.point middle (start + Scalar.half extent)) ::
      placeLayer s size middle (start + (extent + s.nodeSeparation)) rest

/-- The centers of the boxes of all layers, the first of which starts at `offset`. -/
def placeLayers (s : Spacing α) (size : Nat → Point α) :
    α → List (List Nat) → List (Nat × Point α)
  | _, [] => []
  | offset, layer :: rest =>
    let sizes := layer.map size
    let depth := s.depth sizes
    placeLayer s size (offset + Scalar.half depth) (Scalar.half (-s.breadth sizes)) layer ++
      placeLayers s size (offset + (depth + s.rankSeparation)) rest

/-- Move centers so that the top left corner of all boxes is the origin. -/
def moveToOrigin (sizes centers : List (Point α)) : List (Point α) :=
  let corners := (sizes.zip centers).map fun (size, center) => center - size.half
  let corner : Point α :=
    ⟨Scalar.least (corners.map (·.x)), Scalar.least (corners.map (·.y))⟩
  centers.map (· - corner)

def place (s : Spacing α) (g : FileGraph α) : List (Point α) :=
  let placed := s.placeLayers g.sizeOf 0 g.layers
  let centers := (List.range g.count).map fun v => (placed.lookup v).getD Point.origin
  moveToOrigin (g.boxes.map (·.size)) centers

end Spacing

end Layout

end CodeAtlas
