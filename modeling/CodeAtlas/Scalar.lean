/-!
# The numbers of a drawing

Coordinates are written once, over any number system that offers the operations
below. Drawings are computed with 32-bit binary floating point numbers, each
operation rounded; the same definitions over the rationals say what the drawing
would be if nothing were rounded.
-/

namespace CodeAtlas

/--
The operations that a drawing needs of its numbers.

Nothing is assumed about them: a law such as `a + b = b + a` is a fact about one
number system, to be proved where it is used.
-/
class Scalar (α : Type) extends
    Zero α, Add α, Sub α, Mul α, Div α, Neg α, LT α, LE α where
  /-- A count as a coordinate. -/
  ofNat : Nat → α
  /-- The larger of two numbers; a number wins over what is not a number. -/
  larger : α → α → α
  /-- The smaller of two numbers; a number wins over what is not a number. -/
  smaller : α → α → α
  /-- The least number of a list. -/
  least : List α → α
  decideLt : DecidableLT α
  decideLe : DecidableLE α

attribute [reducible, instance] Scalar.decideLt Scalar.decideLe

namespace Scalar

variable {α : Type} [Scalar α]

def half (a : α) : α :=
  a / ofNat 2

/-- The sum of a list, added from left to right. -/
def total (xs : List α) : α :=
  xs.foldl (· + ·) 0

end Scalar

/-- Exact arithmetic. The least number of an empty list is `0`. -/
instance : Scalar Rat where
  toZero := ⟨Rat.ofInt 0⟩
  toAdd := Rat.instAdd
  toSub := Rat.instSub
  toMul := Rat.instMul
  toDiv := Rat.instDiv
  toNeg := Rat.instNeg
  toLT := Rat.instLT
  toLE := Rat.instLE
  ofNat n := Rat.ofInt n
  larger := Rat.instMax.max
  smaller := Rat.instMin.min
  least
    | [] => Rat.ofInt 0
    | x :: xs => xs.foldl Rat.instMin.min x
  decideLt := Rat.instDecidableLt
  decideLe := Rat.instDecidableLe

namespace Binary32

def infinity : Float32 :=
  Float32.ofBits 0x7f800000

def larger (a b : Float32) : Float32 :=
  if a.isNaN then b else if b.isNaN then a else if a < b then b else a

def smaller (a b : Float32) : Float32 :=
  if a.isNaN then b else if b.isNaN then a else if b < a then b else a

end Binary32

/-- Rounded arithmetic. The least number of an empty list is positive infinity. -/
instance : Scalar Float32 where
  zero := 0
  ofNat n := Float32.ofNat n
  larger := Binary32.larger
  smaller := Binary32.smaller
  least xs := xs.foldl Binary32.smaller Binary32.infinity
  decideLt := inferInstance
  decideLe := inferInstance

end CodeAtlas
