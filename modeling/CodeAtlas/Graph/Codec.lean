import CodeAtlas.Graph.Snapshot
import CodeAtlas.Json.Decoder

/-!
# Nodes, edges and snapshots as JSON

The name of an edge and its label are left out where there is none; every other
absent part is written `null`. The parent of a reported node may also go by the
name `parentId`.
-/

namespace CodeAtlas

namespace NodeKind

def toJson (k : NodeKind) : Json :=
  .string k.name

def ofJson? : Json.Decoder NodeKind := fun j => do
  let (name, payload) ← j.variant?
  if Json.isBare payload then ofName? name else none

end NodeKind

namespace RawNode

def toJson (raw : RawNode) : Json :=
  .object [
    ("id", .string raw.id),
    ("label", .string raw.label),
    ("args", .ofList .string raw.args),
    ("returns", .string raw.returns),
    ("parent", .ofOption .string raw.parent)]

/-- Read a reported node. Only its identifier must be there. -/
def ofJson? : Json.Decoder RawNode := fun j => do
  let r ← Json.Record.ofJson? [["id"], ["label"], ["args"], ["returns"], ["parent", "parentId"]] j
  return {
    id := ← r.required "id" Json.string?
    label := ← r.withDefault "label" Json.string? ""
    args := ← r.withDefault "args" (Json.list? Json.string?) []
    returns := ← r.withDefault "returns" Json.string? ""
    parent := ← r.withDefault "parent" (Json.nullable? Json.string?) none }

end RawNode

namespace Node

def toJson (node : Node) : Json :=
  .object [
    ("id", .string node.id),
    ("kind", node.kind.toJson),
    ("label", .string node.label),
    ("args", .ofList .string node.args),
    ("returns", .string node.returns),
    ("parent", .ofOption .string node.parent)]

def ofJson? : Json.Decoder Node := fun j => do
  let r ← Json.Record.ofKeys? ["id", "kind", "label", "args", "returns", "parent"] j
  return {
    id := ← r.required "id" Json.string?
    kind := ← r.required "kind" NodeKind.ofJson?
    label := ← r.required "label" Json.string?
    args := ← r.required "args" (Json.list? Json.string?)
    returns := ← r.required "returns" Json.string?
    parent := ← r.optional "parent" Json.string? }

end Node

namespace Edge

/-- A field that is left out where there is no value. -/
def present (key : String) : Option String → List (String × Json)
  | none => []
  | some value => [(key, .string value)]

def toJson (edge : Edge) : Json :=
  .object (present "id" edge.id ++
    [("source", .string edge.source), ("target", .string edge.target)] ++
    present "label" edge.label)

/-- Read an edge. Only its two ends must be there. -/
def ofJson? : Json.Decoder Edge := fun j => do
  let r ← Json.Record.ofKeys? ["id", "source", "target", "label"] j
  return {
    id := ← r.withDefault "id" (Json.nullable? Json.string?) none
    source := ← r.required "source" Json.string?
    target := ← r.required "target" Json.string?
    label := ← r.withDefault "label" (Json.nullable? Json.string?) none }

end Edge

namespace Snapshot

def toJson (s : Snapshot) : Json :=
  .object [("nodes", .ofList RawNode.toJson s.nodes), ("edges", .ofList Edge.toJson s.edges)]

def ofJson? : Json.Decoder Snapshot := fun j => do
  let r ← Json.Record.ofKeys? ["nodes", "edges"] j
  return {
    nodes := ← r.withDefault "nodes" (Json.list? RawNode.ofJson?) []
    edges := ← r.withDefault "edges" (Json.list? Edge.ofJson?) [] }

end Snapshot

end CodeAtlas
