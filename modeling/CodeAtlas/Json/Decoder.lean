import CodeAtlas.Json.Basic

/-!
# Decoding JSON into types

A decoder answers `none` when a value does not have the shape of its type; nothing
is converted. A record is an object, or an array that lists the fields in their
declared order. In an object unknown keys are skipped and a known key must not be
repeated; an array must not be too long, and may be too short only where the missing
fields have a default.
-/

namespace CodeAtlas.Json

abbrev Decoder (α : Type) := Json → Option α

def bool? : Decoder Bool
  | .bool b => some b
  | _ => none

def string? : Decoder String
  | .string s => some s
  | _ => none

/-- A whole number from `0` to `2 ^ 64 - 1`. -/
def nat? : Decoder Nat
  | .number (.nat n) => if n < Nat.pow 2 64 then some n else none
  | _ => none

/-- A whole number from `-2 ^ 31` to `2 ^ 31 - 1`. -/
def int32? : Decoder Int
  | .number (.nat n) => if n < Nat.pow 2 31 then some n else none
  | .number (.neg n) => if n ≤ Nat.pow 2 31 then some (-(n : Int)) else none
  | _ => none

/-- A number from `0` to `255`. -/
def byte? : Decoder UInt8
  | .number (.nat n) => if n < 256 then some (UInt8.ofNat n) else none
  | _ => none

/-- Any number, as a 32-bit floating point number. -/
def real? : Decoder Float32
  | .number (.nat n) => some (Float32.ofNat n)
  | .number (.neg n) => some (-(Float32.ofNat n))
  | .number (.real x) => some x
  | _ => none

def list? {α : Type} (decode : Decoder α) : Decoder (List α)
  | .array items => items.mapM decode
  | _ => none

def nullable? {α : Type} (decode : Decoder α) : Decoder (Option α)
  | .null => some none
  | j => (decode j).map some

/-- The fields of a record, by the first of their names. -/
structure Record where
  slots : List (String × Option Json)
  /-- Fields were found by key and not by position. -/
  keyed : Bool

namespace Record

/-- The value of a known field that may go by several names. More than one value is refused. -/
def find? (fields : List (String × Json)) (names : List String) : Option (Option Json) :=
  match fields.filter (fun field => names.contains field.1) with
  | [] => some none
  | [field] => some (some field.2)
  | _ => none

/-- Pair names with the items of an array; `none` if there are more items than names. -/
def pair? : List (List String) → List Json → Option (List (String × Option Json))
  | [], [] => some []
  | [], _ :: _ => none
  | names :: rest, [] => (pair? rest []).map ((names.headD "", none) :: ·)
  | names :: rest, item :: items => (pair? rest items).map ((names.headD "", some item) :: ·)

/-- The record with the given fields, each of which lists the names it goes by. -/
def ofJson? (keys : List (List String)) : Decoder Record
  | .object fields => do
    let slots ← keys.mapM fun names => (find? fields names).map fun slot => (names.headD "", slot)
    return ⟨slots, true⟩
  | .array items => (pair? keys items).map fun slots => ⟨slots, false⟩
  | _ => none

/-- The record with the given fields, each of which goes by one name. -/
def ofKeys? (keys : List String) : Decoder Record :=
  ofJson? (keys.map ([·]))

def get? (r : Record) (key : String) : Option Json :=
  (r.slots.lookup key).join

def required {α : Type} (r : Record) (key : String) (decode : Decoder α) : Option α :=
  (r.get? key).bind decode

def withDefault {α : Type} (r : Record) (key : String) (decode : Decoder α) (default : α) :
    Option α :=
  match r.get? key with
  | none => some default
  | some j => decode j

/-- A field that may be absent or `null`, but whose place in an array must be filled. -/
def optional {α : Type} (r : Record) (key : String) (decode : Decoder α) : Option (Option α) :=
  match r.get? key with
  | none => if r.keyed then some none else none
  | some j => nullable? decode j

end Record

/-- One of several cases: its name as a string, or an object whose only key is its name. -/
def variant? : Decoder (String × Option Json)
  | .string name => some (name, none)
  | .object [(name, payload)] => some (name, some payload)
  | _ => none

/-- Is there nothing behind the name of a case? -/
def isBare : Option Json → Bool
  | none => true
  | some .null => true
  | some _ => false

end CodeAtlas.Json
