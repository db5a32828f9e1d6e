/-!
# JSON values

Values keep the order of their fields and every repetition of a key, because the
two ways of reading a document treat repetitions differently: a document read
straight into a type refuses them, a document read as a plain value lets the last
one win. Hexadecimal digits, of which escapes and colours are made, are written in
lower case and read in either case.
-/

namespace CodeAtlas

namespace Hex

/-- The digit with the given value below 16. -/
def digit (n : Nat) : Char :=
  if n < 10 then Char.ofNat ('0'.toNat + n) else Char.ofNat ('a'.toNat + n - 10)

def digit? (c : Char) : Option Nat :=
  if '0' ≤ c ∧ c ≤ '9' then some (c.toNat - '0'.toNat)
  else if 'a' ≤ c ∧ c ≤ 'f' then some (c.toNat - 'a'.toNat + 10)
  else if 'A' ≤ c ∧ c ≤ 'F' then some (c.toNat - 'A'.toNat + 10)
  else none

theorem digit?_digit : ∀ n, n < 16 → digit? (digit n) = some n := by
  decide

end Hex

/--
A number of a document. A whole number written without fraction or exponent stays
exact as long as it fits 64 bits; every other one is a 32-bit floating point number.
-/
inductive Json.Number where
  /-- A whole number from `0` to `2 ^ 64 - 1`. -/
  | nat (n : Nat)
  /-- The negative whole number `-n`, from `-2 ^ 63` to `-1`. -/
  | neg (n : Nat)
  /-- Any other number. -/
  | real (x : Float32)

inductive Json where
  | null
  | bool (b : Bool)
  | number (n : Json.Number)
  | string (s : String)
  | array (items : List Json)
  | object (fields : List (String × Json))
  /--
  Well-formed text that has no value: a number beyond the range of 64-bit floating
  point, or a string whose escapes name no character. It may stand wherever it is skipped.
  -/
  | unreadable

namespace Json

def ofOption {α : Type} (encode : α → Json) : Option α → Json
  | none => .null
  | some a => encode a

def ofList {α : Type} (encode : α → Json) (items : List α) : Json :=
  .array (items.map encode)

def ofNat (n : Nat) : Json :=
  .number (.nat n)

def ofInt (i : Int) : Json :=
  if i < 0 then .number (.neg i.natAbs) else .number (.nat i.natAbs)

def ofReal (x : Float32) : Json :=
  .number (.real x)

mutual

/-- How deeply arrays and objects are nested. -/
def depth : Json → Nat
  | .array items => 1 + depthItems items
  | .object fields => 1 + depthFields fields
  | _ => 0

def depthItems : List Json → Nat
  | [] => 0
  | item :: items => max item.depth (depthItems items)

def depthFields : List (String × Json) → Nat
  | [] => 0
  | (_, value) :: fields => max value.depth (depthFields fields)

end

mutual

/-- Does every part of the value have a value? -/
def isReadable : Json → Bool
  | .unreadable => false
  | .array items => isReadableItems items
  | .object fields => isReadableFields fields
  | _ => true

def isReadableItems : List Json → Bool
  | [] => true
  | item :: items => item.isReadable && isReadableItems items

def isReadableFields : List (String × Json) → Bool
  | [] => true
  | (_, value) :: fields => value.isReadable && isReadableFields fields

end

/-- Among fields with one key, keep the last. -/
def lastByKey {α : Type} : List (String × α) → List (String × α)
  | [] => []
  | field :: fields =>
    if fields.any (fun later => later.1 == field.1) then lastByKey fields
    else field :: lastByKey fields

mutual

/-- The value in which, at every level, the last of several fields with one key won. -/
def lastWins : Json → Json
  | .array items => .array (lastWinsItems items)
  | .object fields => .object (lastByKey (lastWinsFields fields))
  | j => j

def lastWinsItems : List Json → List Json
  | [] => []
  | item :: items => item.lastWins :: lastWinsItems items

def lastWinsFields : List (String × Json) → List (String × Json)
  | [] => []
  | (key, value) :: fields => (key, value.lastWins) :: lastWinsFields fields

end

end Json

end CodeAtlas
