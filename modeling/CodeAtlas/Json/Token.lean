import CodeAtlas.Json.Literal

/-!
# JSON tokens

A document is first cut into tokens. Cutting checks the spelling of numbers,
strings and names; whether the tokens stand in a sensible order is decided later.

The strings of a document may name characters by their UTF-16 code units. A
string is scanned to pieces first, and the pieces are joined to characters
afterwards, because a skipped string has to be spelled correctly but need not
name characters.
-/

namespace CodeAtlas.Json

/-- A piece of a string: a character as it stands, or a code unit named by an escape. -/
inductive Piece where
  | char (c : Char)
  | codeUnit (n : Nat)

namespace Piece

/-- Is `n` the first half of a surrogate pair? -/
def isLeading (n : Nat) : Bool :=
  0xD800 ≤ n && n ≤ 0xDBFF

/-- Is `n` the second half of a surrogate pair? -/
def isTrailing (n : Nat) : Bool :=
  0xDC00 ≤ n && n ≤ 0xDFFF

/-- The character that a surrogate pair names. -/
def ofPair (leading trailing : Nat) : Char :=
  Char.ofNat ((leading - 0xD800) * 0x400 + (trailing - 0xDC00) + 0x10000)

/-- The characters that pieces name; `none` if half of a surrogate pair stands alone. -/
def join? : List Piece → Option (List Char)
  | [] => some []
  | .char c :: rest => (join? rest).map (c :: ·)
  | .codeUnit n :: .codeUnit m :: rest =>
    if isLeading n then
      if isTrailing m then (join? rest).map (ofPair n m :: ·) else none
    else if isTrailing n then none
    else (join? (.codeUnit m :: rest)).map (Char.ofNat n :: ·)
  | .codeUnit n :: rest =>
    if isLeading n || isTrailing n then none else (join? rest).map (Char.ofNat n :: ·)

end Piece

inductive Token where
  | openArray
  | closeArray
  | openObject
  | closeObject
  | comma
  | colon
  | null
  | bool (b : Bool)
  /-- A number, or a number out of range. -/
  | number (n : Option Number)
  /-- A string, or one that does not name characters. -/
  | string (s : Option String)

namespace Token

/-- The four characters that may stand between tokens. -/
def isBlank (c : Char) : Bool :=
  c == ' ' || c == '\n' || c == '\t' || c == '\r'

def digit? (c : Char) : Option Nat :=
  if '0' ≤ c ∧ c ≤ '9' then some (c.toNat - '0'.toNat) else none

def hexUnit? (a b c d : Char) : Option Nat := do
  let a ← Hex.digit? a
  let b ← Hex.digit? b
  let c ← Hex.digit? c
  let d ← Hex.digit? d
  return ((a * 16 + b) * 16 + c) * 16 + d

/-- The character that stands for itself or a control character after a backslash. -/
def escape? : Char → Option Char
  | '"' => some '"'
  | '\\' => some '\\'
  | '/' => some '/'
  | 'b' => some '\x08'
  | 'f' => some '\x0c'
  | 'n' => some '\n'
  | 'r' => some '\r'
  | 't' => some '\t'
  | _ => none

/-- Scan a string up to its closing quote: its pieces and what follows. -/
def scanString? : List Char → Option (List Piece × List Char)
  | [] => none
  | '"' :: rest => some ([], rest)
  | '\\' :: 'u' :: a :: b :: c :: d :: rest => do
    let n ← hexUnit? a b c d
    let (pieces, after) ← scanString? rest
    return (.codeUnit n :: pieces, after)
  | '\\' :: e :: rest => do
    let c ← escape? e
    let (pieces, after) ← scanString? rest
    return (.char c :: pieces, after)
  | c :: rest =>
    if c.toNat < 0x20 then none
    else do
      let (pieces, after) ← scanString? rest
      return (.char c :: pieces, after)

/-- The digits at the front, and what follows. -/
def scanDigits : List Char → List Nat × List Char
  | [] => ([], [])
  | c :: rest =>
    match digit? c with
    | some d => let (ds, after) := scanDigits rest; (d :: ds, after)
    | none => ([], c :: rest)

/-- Digits before the point: no superfluous leading zero. -/
def scanWhole? (cs : List Char) : Option (List Nat × List Char) :=
  match scanDigits cs with
  | ([], _) => none
  | (0 :: _ :: _, _) => none
  | found => some found

/-- A point and the digits after it, if a point stands here. -/
def scanFraction? : List Char → Option (List Nat × List Char)
  | '.' :: rest =>
    match scanDigits rest with
    | ([], _) => none
    | found => some found
  | cs => some ([], cs)

def ofDigits (ds : List Nat) : Nat :=
  ds.foldl (fun n d => n * 10 + d) 0

def scanPowerDigits? (negative : Bool) (cs : List Char) : Option (Option Int × List Char) :=
  match scanDigits cs with
  | ([], _) => none
  | (ds, after) => some (some (if negative then -(ofDigits ds : Int) else ofDigits ds), after)

def scanPower? : List Char → Option (Option Int × List Char)
  | c :: rest =>
    if c == 'e' || c == 'E' then
      match rest with
      | '+' :: rest => scanPowerDigits? false rest
      | '-' :: rest => scanPowerDigits? true rest
      | rest => scanPowerDigits? false rest
    else some (none, c :: rest)
  | [] => some (none, [])

/-- Scan a number after its sign: the literal and what follows. -/
def scanNumber? (negative : Bool) (cs : List Char) : Option (Literal × List Char) := do
  let (whole, cs) ← scanWhole? cs
  let (fraction, cs) ← scanFraction? cs
  let (power, cs) ← scanPower? cs
  return (⟨negative, whole, fraction, power⟩, cs)

/-- Scan one token that begins with `c`: the token and what follows. -/
def scanOne? (c : Char) (rest : List Char) : Option (Token × List Char) :=
  match c, rest with
  | '[', rest => some (.openArray, rest)
  | ']', rest => some (.closeArray, rest)
  | '\x7b', rest => some (.openObject, rest)
  | '\x7d', rest => some (.closeObject, rest)
  | ',', rest => some (.comma, rest)
  | ':', rest => some (.colon, rest)
  | 'n', 'u' :: 'l' :: 'l' :: rest => some (.null, rest)
  | 't', 'r' :: 'u' :: 'e' :: rest => some (.bool true, rest)
  | 'f', 'a' :: 'l' :: 's' :: 'e' :: rest => some (.bool false, rest)
  | '"', rest => (scanString? rest).map fun (pieces, after) =>
    (.string ((Piece.join? pieces).map String.ofList), after)
  | '-', rest => (scanNumber? true rest).map fun (literal, after) =>
    (.number literal.number?, after)
  | c, rest =>
    if (digit? c).isSome then
      (scanNumber? false (c :: rest)).map fun (literal, after) =>
        (.number literal.number?, after)
    else none

/--
Cut a text into tokens. `fuel` bounds the number of steps; each step uses up a
character.
-/
def scanWithin? : Nat → List Char → Option (List Token)
  | _, [] => some []
  | 0, _ :: _ => none
  | fuel + 1, c :: rest =>
    if isBlank c then scanWithin? fuel rest
    else do
      let (token, after) ← scanOne? c rest
      let tokens ← scanWithin? fuel after
      return token :: tokens

/-- The tokens of a text; `none` if some part of it is no token. -/
def scan? (text : List Char) : Option (List Token) :=
  scanWithin? text.length text

end Token

end CodeAtlas.Json
