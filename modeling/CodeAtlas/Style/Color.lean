import CodeAtlas.Json.Basic

/-!
# Colours

A colour is written `#rrggbb`, or `#rrggbbaa` when it is not opaque. Reading is
more lenient than writing: any number of leading `#` is dropped, digits may have
either case, and a channel may be written as a plus sign and one digit.
-/

namespace CodeAtlas

/-- A colour with an alpha channel; `255` is opaque. -/
structure Color where
  red : UInt8
  green : UInt8
  blue : UInt8
  alpha : UInt8
deriving Repr, BEq, DecidableEq

namespace Color

def solid (red green blue : UInt8) : Color :=
  ⟨red, green, blue, 255⟩

/-- A channel as two digits. -/
def channelText (channel : UInt8) : List Char :=
  [Hex.digit (channel.toNat / 16), Hex.digit (channel.toNat % 16)]

def text (c : Color) : String :=
  String.ofList ('#' :: (channelText c.red ++ channelText c.green ++ channelText c.blue ++
    if c.alpha = 255 then [] else channelText c.alpha))

/-- A channel from two characters: two digits, or a plus sign and a digit. -/
def channel? (a b : Char) : Option UInt8 :=
  if a = '+' then (Hex.digit? b).map UInt8.ofNat
  else do
    let high ← Hex.digit? a
    let low ← Hex.digit? b
    return UInt8.ofNat (high * 16 + low)

/-- The colour with the given text. Without an alpha channel it is opaque. -/
def ofText? (text : String) : Option Color :=
  match text.toList.dropWhile (· == '#') with
  | [r, r', g, g', b, b'] => do
    return solid (← channel? r r') (← channel? g g') (← channel? b b')
  | [r, r', g, g', b, b', a, a'] => do
    return ⟨← channel? r r', ← channel? g g', ← channel? b b', ← channel? a a'⟩
  | _ => none

def invalidMessage (text : String) : String :=
  "invalid color: " ++ text

end Color

end CodeAtlas
