import CodeAtlas.Binary32
import CodeAtlas.Json.Basic

/-!
# Writing JSON

Two layouts of one value: `compact` has no blanks, `pretty` puts every item and
every field on a line of its own, indented by two blanks per level. Only a quote, a
backslash and control characters are escaped in strings. A number that is not
finite is written `null`.
-/

namespace CodeAtlas.Json

/-- Numbers in documents: a whole floating point number keeps its `.0`. -/
def realFormat : Binary32.Format :=
  ⟨13, -6, true⟩

def Number.text : Number → List Char
  | .nat n => Nat.toDigits 10 n
  | .neg n => '-' :: Nat.toDigits 10 n
  | .real x => (realFormat.text? x).getD "null".toList

def escape : Char → List Char
  | '"' => ['\\', '"']
  | '\\' => ['\\', '\\']
  | '\x08' => ['\\', 'b']
  | '\x0c' => ['\\', 'f']
  | '\n' => ['\\', 'n']
  | '\r' => ['\\', 'r']
  | '\t' => ['\\', 't']
  | c =>
    if c.toNat < 0x20 then
      ['\\', 'u', '0', '0', Hex.digit (c.toNat / 16), Hex.digit (c.toNat % 16)]
    else [c]

def quote (s : String) : List Char :=
  '"' :: (s.toList.flatMap escape ++ ['"'])

mutual

/-- The text of a value without any blanks. -/
def compactChars : Json → List Char
  | .null => "null".toList
  | .bool true => "true".toList
  | .bool false => "false".toList
  | .number n => n.text
  | .string s => quote s
  | .array items => '[' :: (compactItems items ++ [']'])
  | .object fields => '\x7b' :: (compactFields fields ++ ['\x7d'])
  | .unreadable => "null".toList

def compactItems : List Json → List Char
  | [] => []
  | [item] => item.compactChars
  | item :: items => item.compactChars ++ ',' :: compactItems items

def compactFields : List (String × Json) → List Char
  | [] => []
  | [(key, value)] => quote key ++ ':' :: value.compactChars
  | (key, value) :: fields => quote key ++ ':' :: (value.compactChars ++ ',' :: compactFields fields)

end

def compact (j : Json) : String :=
  String.ofList j.compactChars

def newLine (level : Nat) : List Char :=
  '\n' :: List.replicate (2 * level) ' '

mutual

/-- The text of a value that stands at the given level. -/
def prettyChars (level : Nat) : Json → List Char
  | .array [] => ['[', ']']
  | .array (item :: items) =>
    '[' :: (newLine (level + 1) ++ prettyItems (level + 1) (item :: items) ++ newLine level ++ [']'])
  | .object [] => ['\x7b', '\x7d']
  | .object (field :: fields) =>
    '\x7b' :: (newLine (level + 1) ++ prettyFields (level + 1) (field :: fields) ++ newLine level ++
      ['\x7d'])
  | j => j.compactChars

def prettyItems (level : Nat) : List Json → List Char
  | [] => []
  | [item] => prettyChars level item
  | item :: items => prettyChars level item ++ ',' :: (newLine level ++ prettyItems level items)

def prettyFields (level : Nat) : List (String × Json) → List Char
  | [] => []
  | [(key, value)] => quote key ++ ':' :: ' ' :: prettyChars level value
  | (key, value) :: fields =>
    quote key ++ ':' :: ' ' ::
      (prettyChars level value ++ ',' :: (newLine level ++ prettyFields level fields))

end

/-- The text of a value on several lines, without a final line end. -/
def pretty (j : Json) : String :=
  String.ofList (prettyChars 0 j)

end CodeAtlas.Json
