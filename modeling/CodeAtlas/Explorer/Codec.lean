import CodeAtlas.Explorer.Row
import CodeAtlas.Json.Decoder

/-!
# The explorer as JSON

Children are left out where an entry cannot have any.
-/

namespace CodeAtlas.Explorer

namespace EntryKind

def toJson (k : EntryKind) : Json :=
  .string k.name

def ofJson? : Json.Decoder EntryKind := fun j => do
  let (name, payload) ← j.variant?
  if Json.isBare payload then ofName? name else none

end EntryKind

namespace Entry

mutual

def toJson : Entry → Json
  | .mk name path kind none =>
    .object [("name", .string name), ("path", .string path), ("type", kind.toJson)]
  | .mk name path kind (some children) =>
    .object [("name", .string name), ("path", .string path), ("type", kind.toJson),
      ("children", .array (toJsonAll children))]

def toJsonAll : List Entry → List Json
  | [] => []
  | e :: es => e.toJson :: toJsonAll es

end

/-- Read an entry in which entries are nested at most as deep as given. -/
def ofJsonWithin? : Nat → Json.Decoder Entry
  | 0 => fun _ => none
  | levels + 1 => fun j => do
    let r ← Json.Record.ofKeys? ["name", "path", "type", "children"] j
    return .mk
      (← r.required "name" Json.string?)
      (← r.required "path" Json.string?)
      (← r.required "type" EntryKind.ofJson?)
      (← r.withDefault "children" (Json.nullable? (Json.list? (ofJsonWithin? levels))) none)

/-- Read an entry. An entry cannot be nested deeper than the value that it is read from. -/
def ofJson? : Json.Decoder Entry := fun j =>
  ofJsonWithin? j.depth j

end Entry

namespace Row

def toJson (row : Row) : Json :=
  .object [
    ("depth", .ofNat row.depth),
    ("name", .string row.name),
    ("path", .string row.path),
    ("kind", row.kind.toJson),
    ("expanded", .bool row.expanded)]

def ofJson? : Json.Decoder Row := fun j => do
  let r ← Json.Record.ofKeys? ["depth", "name", "path", "kind", "expanded"] j
  return {
    depth := ← r.required "depth" Json.nat?
    name := ← r.required "name" Json.string?
    path := ← r.required "path" Json.string?
    kind := ← r.required "kind" EntryKind.ofJson?
    expanded := ← r.required "expanded" Json.bool? }

end Row

end CodeAtlas.Explorer
