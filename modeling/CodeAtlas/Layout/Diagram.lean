import CodeAtlas.Layout.Placement
import CodeAtlas.Style.Basic

/-!
# Diagrams

Files are placed as boxes, and their members are stacked as cards inside them, in
input order. Members that belong to no file stand in a column below all files.
Every edge is drawn with the quiet look.
-/

namespace CodeAtlas

/-- From where the position of a node is measured. -/
inductive Space where
  /-- From the origin of the drawing. -/
  | global
  /-- From the top left corner of a file. -/
  | inside (file : NodeId)
deriving Repr, BEq, DecidableEq

structure PlacedNode (α : Type) where
  node : Node
  position : Point α
  size : Point α
  space : Space
  zIndex : Int
  style : NodeStyle
deriving Repr, BEq

def PlacedNode.localRect {α : Type} [Scalar α] (p : PlacedNode α) : Rect α :=
  Rect.ofSize p.position p.size

structure StyledEdge where
  edge : Edge
  style : EdgeStyle
deriving Repr, BEq

/-- A drawing: nodes, edges and the extent of everything that was placed. -/
structure Diagram (α : Type) where
  nodes : List (PlacedNode α)
  edges : List StyledEdge
  bounds : Rect α
deriving Repr, BEq

namespace Diagram

variable {α : Type} [Scalar α]

def empty : Diagram α :=
  ⟨[], [], Rect.empty⟩

def isEmpty (d : Diagram α) : Bool :=
  d.nodes.isEmpty && d.edges.isEmpty

/-- The first node with the given identifier. -/
def node? (d : Diagram α) (id : NodeId) : Option (PlacedNode α) :=
  d.nodes.find? fun p => p.node.id == id

def fileSizes (metrics : Metrics α) (model : Model) : List (Point α) :=
  model.files.map fun file => metrics.fileSize (model.childrenOf file).length

def fileGraph (metrics : Metrics α) (model : Model) : Layout.FileGraph α :=
  Layout.FileGraph.ofModel model (fileSizes metrics model)

/-- Rectangles around the given centers. A file without a center starts at the origin. -/
def fileRects (metrics : Metrics α) (model : Model) (centers : List (Point α)) :
    List (Nat × Rect α) :=
  (model.files.zip (fileSizes metrics model)).zipIdx.map fun ((file, size), i) =>
    (file, Rect.around (centers.getD i size.half) size)

/-- Where the column of orphans starts: below all files. -/
def orphanOrigin (metrics : Metrics α) : Option (Rect α) → Point α
  | some bounds => ⟨bounds.low.x, bounds.high.y + metrics.nodeSeparation⟩
  | none => Point.origin

/-- The rectangles of the orphans, below the given bounds of the files. -/
def orphanRects (metrics : Metrics α) (model : Model) (bounds : Option (Rect α)) :
    List (Nat × Rect α) :=
  let origin := orphanOrigin metrics bounds
  model.orphans.zipIdx.map fun (orphan, (i : Nat)) =>
    (orphan, Rect.ofSize (origin + ⟨0, Scalar.ofNat i * metrics.rowPitch⟩) metrics.cardSize)

/-- For every member of a file, that file and the place of the member in it. -/
def slots (model : Model) : List (Nat × (Nat × Nat)) :=
  model.files.flatMap fun file =>
    (model.childrenOf file).zipIdx.map fun (child, slot) => (child, (file, slot))

def identifierAt (model : Model) (i : Nat) : NodeId :=
  match model.nodes[i]? with
  | some node => node.id
  | none => ""

/-- A node where its rectangle or its slot says. -/
def placeNode (metrics : Metrics α) (model : Model)
    (files orphans : List (Nat × Rect α)) (slots : List (Nat × (Nat × Nat)))
    (i : Nat) (node : Node) : PlacedNode α :=
  let style := NodeStyle.ofKind node.kind
  match files.lookup i with
  | some rect => ⟨node, rect.low, rect.high - rect.low, .global, style.zIndex, style⟩
  | none =>
    match slots.lookup i with
    | some (file, slot) =>
      ⟨node, metrics.childOffset slot, metrics.cardSize, .inside (identifierAt model file),
        style.zIndex, style⟩
    | none =>
      let rect := (orphans.lookup i).getD Rect.empty
      ⟨node, rect.low, metrics.cardSize, .global, style.zIndex, style⟩

/--
The drawing of a model, with files placed by the given function. The function may
return too few centers or too many.
-/
def ofModel (metrics : Metrics α) (place : Layout.FileGraph α → List (Point α))
    (model : Model) : Diagram α :=
  if model.isEmpty then empty
  else
    let files := fileRects metrics model (place (fileGraph metrics model))
    let fileBounds := Rect.unionAll? (files.map (·.2))
    let orphans := orphanRects metrics model fileBounds
    let slots := slots model
    { nodes := model.nodes.zipIdx.map fun (node, i) =>
        placeNode metrics model files orphans slots i node
      edges := model.edges.map fun edge => ⟨edge, .neutral⟩
      bounds := (Rect.unionAll? (files.map (·.2) ++ orphans.map (·.2))).getD Rect.empty }

def layered (metrics : Metrics α) (model : Model) : Diagram α :=
  ofModel metrics (Layout.Spacing.ofMetrics metrics).place model

def draw (metrics : Metrics α) (nodes : List Node) (edges : List Edge) : Diagram α :=
  layered metrics (Model.ofNodes nodes edges)

end Diagram

end CodeAtlas
