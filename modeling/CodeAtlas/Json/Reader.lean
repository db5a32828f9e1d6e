import CodeAtlas.Json.Token

/-!
# Reading JSON

Tokens are put together by a machine with a stack of open arrays and objects. A
document may be read in two ways. `parse?` accepts every well-formed document and
leaves it to the consumer which parts of it matter. `value?` reads a plain value:
every part must be readable, nesting is limited, and the last of several fields
with one key wins.
-/

namespace CodeAtlas.Json

/-- An array or object that is still open; its parts are listed last one first. -/
inductive Frame where
  | array (items : List Json)
  | object (fields : List (Option String × Json))
  /-- An object whose next key has been read. -/
  | entry (fields : List (Option String × Json)) (key : Option String)

/-- What the machine waits for. -/
inductive Phase where
  | value
  /-- A value, or the end of the array that was just opened. -/
  | firstItem
  | key
  /-- A key, or the end of the object that was just opened. -/
  | firstKey
  | colon
  /-- A comma or the end of the innermost open array or object. -/
  | next
  /-- Nothing: the document is complete. -/
  | done (document : Json)

/-- The machine: what is open, innermost first, and what may come. -/
structure Machine where
  frames : List Frame
  phase : Phase

namespace Machine

def start : Machine :=
  ⟨[], .value⟩

/-- The object with the given fields, unless one of its keys names no characters. -/
def object (fields : List (Option String × Json)) : Json :=
  match fields.mapM (fun (key, value) => key.map fun k => (k, value)) with
  | some fields => .object fields
  | none => .unreadable

/-- A complete value goes to the innermost open array or object. -/
def give (value : Json) : List Frame → Option Machine
  | [] => some ⟨[], .done value⟩
  | .array items :: frames => some ⟨.array (value :: items) :: frames, .next⟩
  | .entry fields key :: frames => some ⟨.object ((key, value) :: fields) :: frames, .next⟩
  | .object _ :: _ => none

/-- A token that begins or is a value. -/
def begin (frames : List Frame) : Token → Option Machine
  | .openArray => some ⟨.array [] :: frames, .firstItem⟩
  | .openObject => some ⟨.object [] :: frames, .firstKey⟩
  | .null => give .null frames
  | .bool b => give (.bool b) frames
  | .number n => give (n.elim .unreadable .number) frames
  | .string s => give (s.elim .unreadable .string) frames
  | _ => none

/-- One token. `none` means that it may not stand here. -/
def step (m : Machine) (token : Token) : Option Machine :=
  match m.phase, token, m.frames with
  | .value, token, frames => begin frames token
  | .firstItem, .closeArray, .array items :: frames => give (.array items.reverse) frames
  | .firstItem, token, frames => begin frames token
  | .firstKey, .closeObject, .object fields :: frames => give (object fields.reverse) frames
  | .firstKey, .string key, .object fields :: frames => some ⟨.entry fields key :: frames, .colon⟩
  | .key, .string key, .object fields :: frames => some ⟨.entry fields key :: frames, .colon⟩
  | .colon, .colon, frames => some ⟨frames, .value⟩
  | .next, .comma, .array items :: frames => some ⟨.array items :: frames, .value⟩
  | .next, .comma, .object fields :: frames => some ⟨.object fields :: frames, .key⟩
  | .next, .closeArray, .array items :: frames => give (.array items.reverse) frames
  | .next, .closeObject, .object fields :: frames => give (object fields.reverse) frames
  | _, _, _ => none

def run (m : Machine) (tokens : List Token) : Option Machine :=
  tokens.foldlM step m

end Machine

def ofTokens? (tokens : List Token) : Option Json :=
  match Machine.start.run tokens with
  | some ⟨_, .done document⟩ => some document
  | _ => none

/-- Read a well-formed document, repetitions and unreadable parts included. -/
def parse? (text : String) : Option Json :=
  (Token.scan? text.toList).bind ofTokens?

/-- Plain values are nested at most this deeply. -/
def depthLimit : Nat := 127

/-- Is this a plain value, apart from repeated keys? -/
def isPlain (j : Json) : Bool :=
  j.isReadable && j.depth ≤ depthLimit

def value? (text : String) : Option Json :=
  (parse? text).bind fun j => if j.isPlain then some j.lastWins else none

end CodeAtlas.Json
