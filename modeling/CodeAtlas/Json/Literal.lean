import CodeAtlas.Binary32
import CodeAtlas.Json.Basic

/-!
# Number literals

What a number literal means. Its digits are gathered into a significand of 64
bits; digits that no longer fit are dropped, a dropped digit before the point
raising the power of ten. A literal that is not a whole number in range is the
significand multiplied or divided by a power of ten in 64-bit arithmetic, narrowed
to 32 bits. A literal beyond the range of 64-bit numbers means nothing.
-/

namespace CodeAtlas.Json

structure Literal where
  negative : Bool
  whole : List Nat
  /-- Digits after the point; none if there is no point. -/
  fraction : List Nat
  /-- The written power of ten, if there is one. -/
  power : Option Int

namespace Literal

/-- A significand holds fewer than this many values. -/
def significandBound : Nat := Nat.pow 2 64

/-- Take digits into a significand while they fit: the significand and the digits left over. -/
def gather : Nat → List Nat → Nat × List Nat
  | significand, [] => (significand, [])
  | significand, d :: ds =>
    if significand * 10 + d < significandBound then gather (significand * 10 + d) ds
    else (significand, d :: ds)

/-- The largest power of ten below infinity. -/
def largestPower : Nat := 308

def powerOfTen (k : Nat) : Float :=
  Float.ofScientific 1 false k

/--
`f * 10 ^ power` in 64-bit arithmetic; `none` if that is infinite. A power far
below zero is worked off in steps, until the number has become zero.
-/
def scale? (f : Float) (power : Int) : Option Float :=
  if power.natAbs ≤ largestPower then
    if 0 ≤ power then
      let product := f * powerOfTen power.natAbs
      if product.isInf then none else some product
    else some (f / powerOfTen power.natAbs)
  else if f == 0 then some f
  else if 0 ≤ power then none
  else scale? (f / powerOfTen largestPower) (power + largestPower)
termination_by power.natAbs
decreasing_by
  simp only [largestPower] at *
  omega

/-- The number that a literal means; `none` if it is out of range. -/
def number? (l : Literal) : Option Number :=
  let (whole, dropped) := gather 0 l.whole
  match l.fraction, l.power, dropped with
  | [], none, [] =>
    if !l.negative then some (.nat whole)
    else if whole = 0 || whole > Nat.pow 2 63 then
      some (.real (-(Binary32.ofWide whole.toUInt64.toFloat)))
    else some (.neg whole)
  | _, _, _ =>
    let (significand, ignored) := gather whole l.fraction
    let point := (l.fraction.length - ignored.length : Nat)
    let power := l.power.getD 0 + dropped.length - point
    (scale? significand.toUInt64.toFloat power).map fun size =>
      .real (Binary32.ofWide (if l.negative then -size else size))

end Literal

end CodeAtlas.Json
