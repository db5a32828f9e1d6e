/-!
# Decimal text and 32-bit numbers

A number is written with the fewest decimal digits that still read back as the
same number; among those the nearest to it is taken, and of two equally near
ones the one with an even last digit. Every comparison is made in exact natural
number arithmetic.

A decimal literal is first read as a 64-bit number and then narrowed to 32 bits.
Narrowing, too, is stated on exact integers: a finite 64-bit number is
`m * 2 ^ q`, hence also a decimal fraction, and that fraction is rounded to the
nearest 32-bit number, ties to even.
-/

namespace CodeAtlas.Binary32

/--
A positive number `mantissa * 2 ^ exponent` of the 32-bit format. `narrow` says
that the next smaller number of the format is only half as far away as the next
larger one.
-/
structure Magnitude where
  mantissa : Nat
  exponent : Int
  narrow : Bool

/-- The magnitude of a finite number; `none` for an infinity or what is not a number. -/
def magnitude? (x : Float32) : Option Magnitude :=
  let bits := x.toBits.toNat
  let field : Nat := bits / Nat.pow 2 23 % Nat.pow 2 8
  let fraction : Nat := bits % Nat.pow 2 23
  if field = 255 then none
  else if field = 0 then some ⟨fraction, -149, false⟩
  else some ⟨Nat.pow 2 23 + fraction, (field : Int) - 150, fraction == 0 && field != 1⟩

/-- Is the sign bit set? -/
def isNegative (x : Float32) : Bool :=
  x.toBits.toNat / Nat.pow 2 31 == 1

/-- The decimal number `digits * 10 ^ exponent`. -/
structure Digits where
  digits : Nat
  exponent : Int
deriving Repr, BEq, DecidableEq

namespace Magnitude

/-- How many quarters of a unit in the last place there are in `10 ^ -k`, over a common denominator. -/
def unitScale (m : Magnitude) (k : Int) : Nat :=
  Nat.pow 2 (m.exponent - 2).toNat * Nat.pow 10 (-k).toNat

/-- The weight of one decimal digit at `10 ^ k`, over the same denominator. -/
def digitScale (m : Magnitude) (k : Int) : Nat :=
  Nat.pow 10 k.toNat * Nat.pow 2 (2 - m.exponent).toNat

/--
Does `d * 10 ^ k` read back as this number? The interval of numbers that do
reaches halfway to both neighbours, and its ends belong to it when the mantissa
is even.
-/
def readsBack (m : Magnitude) (k : Int) (d : Nat) : Bool :=
  let unit := m.unitScale k
  let below := (4 * m.mantissa - if m.narrow then 1 else 2) * unit
  let above := (4 * m.mantissa + 2) * unit
  let value := d * m.digitScale k
  if m.mantissa % 2 = 0 then below ≤ value && value ≤ above
  else below < value && value < above

/-- The best multiple of `10 ^ k` that reads back as this number, if there is one. -/
def onGrid? (m : Magnitude) (k : Int) : Option Digits :=
  let exact := 4 * m.mantissa * m.unitScale k
  let weight := m.digitScale k
  let d := exact / weight
  let downOk := d != 0 && m.readsBack k d
  let upOk := m.readsBack k (d + 1)
  let down := exact - d * weight
  let up := (d + 1) * weight - exact
  if downOk && (!upOk || down < up || (down = up && d % 2 = 0)) then some ⟨d, k⟩
  else if upOk then some ⟨d + 1, k⟩
  else none

/-- Every finite number of the format lies below this power of ten. -/
def highestPower : Nat := 39

/-- How many powers of ten are tried, from the highest one downward. -/
def gridCount : Nat := 86

/-- The coarsest decimal grid with a point that reads back decides. -/
def shortest (m : Magnitude) : Digits :=
  if m.mantissa = 0 then ⟨0, 0⟩
  else
    let grids := (List.range gridCount).map fun (i : Nat) => (highestPower : Int) - (i : Int)
    (grids.findSome? m.onGrid?).getD ⟨m.mantissa, 0⟩

end Magnitude

/-- How a number is laid out once its digits are known. -/
structure Format where
  /-- Positional writing is used for numbers below `10 ^ highest` … -/
  highest : Int
  /-- … and not below `10 ^ lowest`. -/
  lowest : Int
  /-- A whole number keeps a `.0`. -/
  keepFraction : Bool

namespace Format

/-- Positional digits: `count` of them stand before the point. -/
def positional (f : Format) (digits : List Char) (count : Int) : List Char :=
  if count ≤ 0 then
    '0' :: '.' :: List.replicate (-count).toNat '0' ++ digits
  else if digits.length ≤ count.toNat then
    digits ++ List.replicate (count.toNat - digits.length) '0' ++
      (if f.keepFraction then ['.', '0'] else [])
  else
    digits.take count.toNat ++ '.' :: digits.drop count.toNat

/-- One digit before the point, and the power of ten after an `e`. -/
def scientific (digits : List Char) (power : Int) : List Char :=
  digits.take 1 ++ (if digits.length ≤ 1 then [] else '.' :: digits.drop 1) ++
    'e' :: (if power < 0 then '-' else '+') :: Nat.toDigits 10 power.natAbs

def unsigned (f : Format) (d : Digits) : List Char :=
  let digits := Nat.toDigits 10 d.digits
  let count := (digits.length : Int) + d.exponent
  if d.digits = 0 then '0' :: (if f.keepFraction then ['.', '0'] else [])
  else if f.lowest < count && count ≤ f.highest then f.positional digits count
  else scientific digits (count - 1)

/-- The text of a finite number; `none` for an infinity or what is not a number. -/
def text? (f : Format) (x : Float32) : Option (List Char) :=
  (magnitude? x).map fun m =>
    (if isNegative x then ['-'] else []) ++ f.unsigned m.shortest

end Format

/-- Numbers in messages: always positional, and a whole number has no fraction. -/
def plain : Format :=
  ⟨1000, -1000, false⟩

/-! ## Narrowing -/

/-- The exponent field of a 64-bit number. -/
def wideField (x : Float) : Nat :=
  x.toBits.toNat / Nat.pow 2 52 % Nat.pow 2 11

/-- The integer significand of a finite 64-bit number. -/
def wideMantissa (x : Float) : Nat :=
  let fraction := x.toBits.toNat % Nat.pow 2 52
  if wideField x = 0 then fraction else Nat.pow 2 52 + fraction

/-- The nearest 32-bit number to a finite 64-bit number, ties to even. -/
def ofWide (x : Float) : Float32 :=
  let field := max (wideField x) 1
  let m := wideMantissa x
  let size :=
    if field < 1075 then Float32.ofScientific (m * Nat.pow 5 (1075 - field)) true (1075 - field)
    else Float32.ofScientific (m * Nat.pow 2 (field - 1075)) false 0
  if x.toBits.toNat / Nat.pow 2 63 = 1 then -size else size

end CodeAtlas.Binary32
