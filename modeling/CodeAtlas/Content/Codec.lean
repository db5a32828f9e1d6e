import CodeAtlas.Content.Panel
import CodeAtlas.Json.Decoder

/-!
# The content of the code panel as JSON
-/

namespace CodeAtlas

namespace ContentKind

def name : ContentKind → String
  | .source => "Source"
  | .library => "Module"
  | .failed => "Failed"

def ofJson? : Json.Decoder ContentKind := fun j => do
  let (name, payload) ← j.variant?
  if Json.isBare payload then
    match name with
    | "Source" => some .source
    | "Module" => some .library
    | "Failed" => some .failed
    | _ => none
  else none

end ContentKind

namespace ContentView

def toJson (c : ContentView) : Json :=
  .object [
    ("path", .string c.path),
    ("text", .string c.text),
    ("kind", .string c.kind.name),
    ("focus", .ofOption .string c.focus)]

def ofJson? : Json.Decoder ContentView := fun j => do
  let r ← Json.Record.ofKeys? ["path", "text", "kind", "focus"] j
  return {
    path := ← r.required "path" Json.string?
    text := ← r.required "text" Json.string?
    kind := ← r.required "kind" ContentKind.ofJson?
    focus := ← r.optional "focus" Json.string? }

end ContentView

end CodeAtlas
