import CodeAtlas.Scalar

/-!
# Points and rectangles

A point doubles as a size. A rectangle includes its `low` corner and excludes
its `high` corner, so that two rectangles that share a side do not intersect.
-/

namespace CodeAtlas

/-- A place in the plane, or the extent of something along both axes. -/
structure Point (α : Type) where
  x : α
  y : α
deriving Repr, BEq

namespace Point

variable {α : Type} [Scalar α]

def origin : Point α :=
  ⟨0, 0⟩

instance : Add (Point α) where
  add p q := ⟨p.x + q.x, p.y + q.y⟩

instance : Sub (Point α) where
  sub p q := ⟨p.x - q.x, p.y - q.y⟩

def half (p : Point α) : Point α :=
  ⟨Scalar.half p.x, Scalar.half p.y⟩

def swap (p : Point α) : Point α :=
  ⟨p.y, p.x⟩

end Point

/-- An axis-aligned rectangle: `low` is its top left corner, `high` its bottom right one. -/
structure Rect (α : Type) where
  low : Point α
  high : Point α
deriving Repr, BEq

namespace Rect

variable {α : Type} [Scalar α]

def empty : Rect α :=
  ⟨Point.origin, Point.origin⟩

/-- The rectangle of the given size whose top left corner is `position`. -/
def ofSize (position size : Point α) : Rect α :=
  ⟨position, position + size⟩

/-- The rectangle of the given size around `center`. -/
def around (center size : Point α) : Rect α :=
  ofSize (center - size.half) size

def width (r : Rect α) : α :=
  r.high.x - r.low.x

def height (r : Rect α) : α :=
  r.high.y - r.low.y

def center (r : Rect α) : Point α :=
  ⟨Scalar.half (r.low.x + r.high.x), Scalar.half (r.low.y + r.high.y)⟩

/-- Does `p` lie in the rectangle? The far sides do not belong to it. -/
def contains (r : Rect α) (p : Point α) : Bool :=
  r.low.x ≤ p.x && p.x < r.high.x && r.low.y ≤ p.y && p.y < r.high.y

/-- Does `r` cover `inner`, sides included? -/
def covers (r inner : Rect α) : Bool :=
  r.low.x ≤ inner.low.x && r.low.y ≤ inner.low.y &&
    inner.high.x ≤ r.high.x && inner.high.y ≤ r.high.y

/-- Do the two rectangles overlap in more than a side? -/
def intersects (r s : Rect α) : Bool :=
  r.low.x < s.high.x && s.low.x < r.high.x && r.low.y < s.high.y && s.low.y < r.high.y

def union (r s : Rect α) : Rect α where
  low := ⟨Scalar.smaller r.low.x s.low.x, Scalar.smaller r.low.y s.low.y⟩
  high := ⟨Scalar.larger r.high.x s.high.x, Scalar.larger r.high.y s.high.y⟩

/-- The smallest rectangle around all of a list; `none` for the empty list. -/
def unionAll? : List (Rect α) → Option (Rect α)
  | [] => none
  | r :: rs => some (rs.foldl union r)

end Rect

end CodeAtlas
