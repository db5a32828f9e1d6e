import CodeAtlas.Layout.Diagram

/-!
# Boxes in one space

A diagram with every node measured from the origin of the drawing, and the search
for the topmost box under a point.
-/

namespace CodeAtlas

/-- A node as a rectangle of the drawing. -/
structure Box (α : Type) where
  id : NodeId
  kind : NodeKind
  rect : Rect α
  zIndex : Int
  style : NodeStyle
deriving Repr, BEq

namespace Diagram

variable {α : Type} [Scalar α]

/-- Where the node of this identifier stands in the drawing; the last one of several. -/
def originOf? (d : Diagram α) (id : NodeId) : Option (Point α) :=
  (d.nodes.reverse.find? fun p => p.space == .global && p.node.id == id).map (·.position)

/-- The corner from which a space is measured. A file that was not drawn counts as the origin. -/
def cornerOf (d : Diagram α) : Space → Point α
  | .global => Point.origin
  | .inside file => (d.originOf? file).getD Point.origin

def boxes (d : Diagram α) : List (Box α) :=
  d.nodes.map fun p =>
    ⟨p.node.id, p.node.kind, Rect.ofSize (d.cornerOf p.space + p.position) p.size,
      p.zIndex, p.style⟩

end Diagram

namespace Box

variable {α : Type} [Scalar α]

/-- The higher of two boxes; the later one if they are equally high. -/
def upper (best : Option (Box α)) (box : Box α) : Option (Box α) :=
  match best with
  | none => some box
  | some b => if box.zIndex < b.zIndex then some b else some box

def topmost? (boxes : List (Box α)) (point : Point α) : Option (Box α) :=
  (boxes.filter fun box => box.rect.contains point).foldl upper none

end Box

end CodeAtlas
