import CodeAtlas.Geometry

/-!
# Metrics of a drawing

How large cards are, how far apart things are kept, and how large a file has to be
to hold its cards.
-/

namespace CodeAtlas

/-- The axis along which callers come before callees. -/
inductive Direction where
  | horizontal
  | vertical
deriving Repr, BEq, DecidableEq

/-- Sizes and distances, all in the units of the drawing. -/
structure Metrics (α : Type) where
  cardWidth : α
  cardHeight : α
  paddingX : α
  paddingTop : α
  paddingBottom : α
  cardGap : α
  minFileHeight : α
  /-- Space between neighbours of the same rank. -/
  nodeSeparation : α
  /-- Space between ranks. -/
  rankSeparation : α
  direction : Direction
deriving Repr, BEq

namespace Metrics

variable {α : Type} [Scalar α]

def standard : Metrics α where
  cardWidth := Scalar.ofNat 280
  cardHeight := Scalar.ofNat 90
  paddingX := Scalar.ofNat 24
  paddingTop := Scalar.ofNat 50
  paddingBottom := Scalar.ofNat 24
  cardGap := Scalar.ofNat 25
  minFileHeight := Scalar.ofNat 140
  nodeSeparation := Scalar.ofNat 100
  rankSeparation := Scalar.ofNat 250
  direction := .horizontal

def cardSize (m : Metrics α) : Point α :=
  ⟨m.cardWidth, m.cardHeight⟩

/-- The distance from the top of a card to the top of the next one. -/
def rowPitch (m : Metrics α) : α :=
  m.cardHeight + m.cardGap

def fileSize (m : Metrics α) (count : Nat) : Point α where
  x := m.cardWidth + m.paddingX * Scalar.ofNat 2
  y := Scalar.larger (m.paddingTop + Scalar.ofNat count * m.rowPitch + m.paddingBottom)
    m.minFileHeight

/-- Where the card at `index` stands, seen from the corner of its file. -/
def childOffset (m : Metrics α) (index : Nat) : Point α where
  x := m.paddingX
  y := m.paddingTop + Scalar.ofNat index * m.rowPitch

end Metrics

end CodeAtlas
