import CodeAtlas.Json.Decoder
import CodeAtlas.Style.Basic

/-!
# Looks as JSON
-/

namespace CodeAtlas

namespace Color

/-- A colour is written as its text. -/
def toJson (c : Color) : Json :=
  .string c.text

def ofJson? : Json.Decoder Color := fun j =>
  j.string?.bind ofText?

end Color

namespace MarkerKind

def name : MarkerKind → String
  | .arrowClosed => "ArrowClosed"

def ofJson? : Json.Decoder MarkerKind := fun j => do
  let (name, payload) ← j.variant?
  if name = "ArrowClosed" && Json.isBare payload then some .arrowClosed else none

end MarkerKind

namespace EdgeMarker

def toJson (m : EdgeMarker) : Json :=
  .object [("kind", .string m.kind.name), ("color", m.color.toJson)]

def ofJson? : Json.Decoder EdgeMarker := fun j => do
  let r ← Json.Record.ofKeys? ["kind", "color"] j
  return ⟨← r.required "kind" MarkerKind.ofJson?, ← r.required "color" Color.ofJson?⟩

end EdgeMarker

namespace EdgeStyle

def toJson (s : EdgeStyle) : Json :=
  .object [
    ("stroke", s.stroke.toJson),
    ("width", .ofReal s.width),
    ("opacity", .ofReal s.opacity),
    ("marker_end", s.markerEnd.toJson),
    ("z_index", .ofInt s.zIndex),
    ("animated", .bool s.animated)]

def ofJson? : Json.Decoder EdgeStyle := fun j => do
  let r ← Json.Record.ofKeys?
    ["stroke", "width", "opacity", "marker_end", "z_index", "animated"] j
  return {
    stroke := ← r.required "stroke" Color.ofJson?
    width := ← r.required "width" Json.real?
    opacity := ← r.required "opacity" Json.real?
    markerEnd := ← r.required "marker_end" EdgeMarker.ofJson?
    zIndex := ← r.required "z_index" Json.int32?
    animated := ← r.required "animated" Json.bool? }

end EdgeStyle

namespace NodeStyle

def toJson (s : NodeStyle) : Json :=
  .object [
    ("fill", s.fill.toJson),
    ("border", s.border.toJson),
    ("accent", s.accent.toJson),
    ("text", s.text.toJson),
    ("corner_radius", .ofReal s.cornerRadius),
    ("z_index", .ofInt s.zIndex)]

def ofJson? : Json.Decoder NodeStyle := fun j => do
  let r ← Json.Record.ofKeys?
    ["fill", "border", "accent", "text", "corner_radius", "z_index"] j
  return {
    fill := ← r.required "fill" Color.ofJson?
    border := ← r.required "border" Color.ofJson?
    accent := ← r.required "accent" Color.ofJson?
    text := ← r.required "text" Color.ofJson?
    cornerRadius := ← r.required "corner_radius" Json.real?
    zIndex := ← r.required "z_index" Json.int32? }

end NodeStyle

end CodeAtlas
