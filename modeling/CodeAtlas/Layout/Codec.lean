import CodeAtlas.Graph.Codec
import CodeAtlas.Layout.Box
import CodeAtlas.Style.Codec

/-!
# Metrics and diagrams as JSON
-/

namespace CodeAtlas

namespace Direction

def name : Direction → String
  | .horizontal => "Horizontal"
  | .vertical => "Vertical"

def ofJson? : Json.Decoder Direction := fun j => do
  let (name, payload) ← j.variant?
  if Json.isBare payload then
    match name with
    | "Horizontal" => some .horizontal
    | "Vertical" => some .vertical
    | _ => none
  else none

end Direction

namespace Metrics

def toJson (m : Metrics Float32) : Json :=
  .object [
    ("card_width", .ofReal m.cardWidth),
    ("card_height", .ofReal m.cardHeight),
    ("padding_x", .ofReal m.paddingX),
    ("padding_top", .ofReal m.paddingTop),
    ("padding_bottom", .ofReal m.paddingBottom),
    ("card_gap", .ofReal m.cardGap),
    ("min_file_height", .ofReal m.minFileHeight),
    ("node_separation", .ofReal m.nodeSeparation),
    ("rank_separation", .ofReal m.rankSeparation),
    ("direction", .string m.direction.name)]

/-- Read metrics. What is not given is standard. -/
def ofJson? : Json.Decoder (Metrics Float32) := fun j => do
  let r ← Json.Record.ofKeys?
    ["card_width", "card_height", "padding_x", "padding_top", "padding_bottom", "card_gap",
      "min_file_height", "node_separation", "rank_separation", "direction"] j
  let d : Metrics Float32 := standard
  return {
    cardWidth := ← r.withDefault "card_width" Json.real? d.cardWidth
    cardHeight := ← r.withDefault "card_height" Json.real? d.cardHeight
    paddingX := ← r.withDefault "padding_x" Json.real? d.paddingX
    paddingTop := ← r.withDefault "padding_top" Json.real? d.paddingTop
    paddingBottom := ← r.withDefault "padding_bottom" Json.real? d.paddingBottom
    cardGap := ← r.withDefault "card_gap" Json.real? d.cardGap
    minFileHeight := ← r.withDefault "min_file_height" Json.real? d.minFileHeight
    nodeSeparation := ← r.withDefault "node_separation" Json.real? d.nodeSeparation
    rankSeparation := ← r.withDefault "rank_separation" Json.real? d.rankSeparation
    direction := ← r.withDefault "direction" Direction.ofJson? d.direction }

end Metrics

namespace Point

def toJson (p : Point Float32) : Json :=
  .object [("x", .ofReal p.x), ("y", .ofReal p.y)]

def ofJson? : Json.Decoder (Point Float32) := fun j => do
  let r ← Json.Record.ofKeys? ["x", "y"] j
  return ⟨← r.required "x" Json.real?, ← r.required "y" Json.real?⟩

end Point

namespace Rect

def toJson (r : Rect Float32) : Json :=
  .object [("min", r.low.toJson), ("max", r.high.toJson)]

def ofJson? : Json.Decoder (Rect Float32) := fun j => do
  let r ← Json.Record.ofKeys? ["min", "max"] j
  return ⟨← r.required "min" Point.ofJson?, ← r.required "max" Point.ofJson?⟩

end Rect

namespace Space

/-- A space as JSON: a tag, and the file if there is one. -/
def toJson : Space → Json
  | .global => .object [("space", .string "Global")]
  | .inside file => .object [("space", .string "ParentLocal"), ("parent", .string file)]

/-- The space with the given tag and what stands beside the tag. -/
def ofTag? : String → Option Json → Option Space
  | "Global", none => some .global
  | "Global", some .null => some .global
  | "ParentLocal", some (.string file) => some (.inside file)
  | _, _ => none

/--
Read a space: an object, or an array of the tag and what stands beside it. The tag in an
object is a case with nothing behind its name; in an array it is just the name.
-/
def ofJson? : Json.Decoder Space
  | .array [.string tag, content] => ofTag? tag (some content)
  | .object fields => do
    let (tag, payload) ← (← fields.lookup "space").variant?
    if Json.isBare payload then ofTag? tag (fields.lookup "parent") else none
  | _ => none

end Space

namespace PlacedNode

def toJson (p : PlacedNode Float32) : Json :=
  .object [
    ("node", p.node.toJson),
    ("position", p.position.toJson),
    ("size", p.size.toJson),
    ("space", p.space.toJson),
    ("z_index", .ofInt p.zIndex),
    ("style", p.style.toJson)]

def ofJson? : Json.Decoder (PlacedNode Float32) := fun j => do
  let r ← Json.Record.ofKeys? ["node", "position", "size", "space", "z_index", "style"] j
  return {
    node := ← r.required "node" Node.ofJson?
    position := ← r.required "position" Point.ofJson?
    size := ← r.required "size" Point.ofJson?
    space := ← r.required "space" Space.ofJson?
    zIndex := ← r.required "z_index" Json.int32?
    style := ← r.required "style" NodeStyle.ofJson? }

end PlacedNode

namespace StyledEdge

def toJson (e : StyledEdge) : Json :=
  .object [("edge", e.edge.toJson), ("style", e.style.toJson)]

def ofJson? : Json.Decoder StyledEdge := fun j => do
  let r ← Json.Record.ofKeys? ["edge", "style"] j
  return ⟨← r.required "edge" Edge.ofJson?, ← r.required "style" EdgeStyle.ofJson?⟩

end StyledEdge

namespace Diagram

def toJson (d : Diagram Float32) : Json :=
  .object [
    ("nodes", .ofList PlacedNode.toJson d.nodes),
    ("edges", .ofList StyledEdge.toJson d.edges),
    ("bounds", d.bounds.toJson)]

def ofJson? : Json.Decoder (Diagram Float32) := fun j => do
  let r ← Json.Record.ofKeys? ["nodes", "edges", "bounds"] j
  return {
    nodes := ← r.required "nodes" (Json.list? PlacedNode.ofJson?)
    edges := ← r.required "edges" (Json.list? StyledEdge.ofJson?)
    bounds := ← r.required "bounds" Rect.ofJson? }

end Diagram

def Box.toJson (b : Box Float32) : Json :=
  .object [
    ("id", .string b.id),
    ("kind", b.kind.toJson),
    ("rect", b.rect.toJson),
    ("z_index", .ofInt b.zIndex),
    ("style", b.style.toJson)]

end CodeAtlas
