import CodeAtlas.Analyzer.Basic
import CodeAtlas.Graph.Codec
import CodeAtlas.Json.Reader

/-!
# The analyzer's own documents

An analyzer shapes nodes and edges for a flow chart: the label, the arguments and
the result of a node stand in a record of their own, and the parent goes by another
name than in a snapshot. A snapshot file may hold either form; the first node shows
which one it is.
-/

namespace CodeAtlas.Analyzer

structure NodeData where
  label : Option String := none
  args : Option (List String) := none
  returns : Option String := none
deriving Repr, BEq, DecidableEq

namespace NodeData

def toJson (d : NodeData) : Json :=
  .object [
    ("label", .ofOption .string d.label),
    ("args", .ofOption (.ofList .string) d.args),
    ("returns", .ofOption .string d.returns)]

/-- Read the data of a node. Nothing must be there. -/
def ofJson? : Json.Decoder NodeData := fun j => do
  let r ← Json.Record.ofKeys? ["label", "args", "returns"] j
  return {
    label := ← r.withDefault "label" (Json.nullable? Json.string?) none
    args := ← r.withDefault "args" (Json.nullable? (Json.list? Json.string?)) none
    returns := ← r.withDefault "returns" (Json.nullable? Json.string?) none }

end NodeData

structure PayloadNode where
  id : String
  type : Option String := none
  data : NodeData := {}
  parentNode : Option String := none
  extent : Option String := none
deriving Repr, BEq, DecidableEq

namespace PayloadNode

def toJson (n : PayloadNode) : Json :=
  .object [
    ("id", .string n.id),
    ("type", .ofOption .string n.type),
    ("data", n.data.toJson),
    ("parentNode", .ofOption .string n.parentNode),
    ("extent", .ofOption .string n.extent)]

/-- Read a node of the flow chart. Only its identifier must be there. -/
def ofJson? : Json.Decoder PayloadNode := fun j => do
  let r ← Json.Record.ofKeys? ["id", "type", "data", "parentNode", "extent"] j
  return {
    id := ← r.required "id" Json.string?
    type := ← r.withDefault "type" (Json.nullable? Json.string?) none
    data := ← r.withDefault "data" NodeData.ofJson? {}
    parentNode := ← r.withDefault "parentNode" (Json.nullable? Json.string?) none
    extent := ← r.withDefault "extent" (Json.nullable? Json.string?) none }

/-- The node as it is reported. An empty name of a parent counts as none. -/
def toRaw (n : PayloadNode) : RawNode where
  id := n.id
  label := n.data.label.getD ""
  args := n.data.args.getD []
  returns := n.data.returns.getD ""
  parent := n.parentNode.filter fun parent => !parent.isEmpty

end PayloadNode

structure PayloadEdge where
  id : Option String := none
  source : String
  target : String
  animated : Option Bool := none
  type : Option String := none
  label : Option String := none
deriving Repr, BEq, DecidableEq

namespace PayloadEdge

def toJson (e : PayloadEdge) : Json :=
  .object [
    ("id", .ofOption .string e.id),
    ("source", .string e.source),
    ("target", .string e.target),
    ("animated", .ofOption .bool e.animated),
    ("type", .ofOption .string e.type),
    ("label", .ofOption .string e.label)]

/-- Read an edge of the flow chart. Only its two ends must be there. -/
def ofJson? : Json.Decoder PayloadEdge := fun j => do
  let r ← Json.Record.ofKeys? ["id", "source", "target", "animated", "type", "label"] j
  return {
    id := ← r.withDefault "id" (Json.nullable? Json.string?) none
    source := ← r.required "source" Json.string?
    target := ← r.required "target" Json.string?
    animated := ← r.withDefault "animated" (Json.nullable? Json.bool?) none
    type := ← r.withDefault "type" (Json.nullable? Json.string?) none
    label := ← r.withDefault "label" (Json.nullable? Json.string?) none }

/-- The edge of a snapshot. An empty label counts as none. -/
def toEdge (e : PayloadEdge) : Edge where
  id := e.id
  source := e.source
  target := e.target
  label := e.label.filter fun label => !label.isEmpty

end PayloadEdge

/-- A flow chart. -/
structure Payload where
  nodes : List PayloadNode := []
  edges : List PayloadEdge := []
deriving Repr, BEq, DecidableEq

namespace Payload

def toJson (p : Payload) : Json :=
  .object [
    ("nodes", .ofList PayloadNode.toJson p.nodes),
    ("edges", .ofList PayloadEdge.toJson p.edges)]

def ofJson? : Json.Decoder Payload := fun j => do
  let r ← Json.Record.ofKeys? ["nodes", "edges"] j
  return {
    nodes := ← r.withDefault "nodes" (Json.list? PayloadNode.ofJson?) []
    edges := ← r.withDefault "edges" (Json.list? PayloadEdge.ofJson?) [] }

def toSnapshot (p : Payload) : Snapshot where
  nodes := p.nodes.map PayloadNode.toRaw
  edges := p.edges.map PayloadEdge.toEdge

end Payload

inductive SnapshotError where
  | notJson
  | malformedPayload
  | malformedSnapshot
deriving Repr, BEq, DecidableEq

def SnapshotError.message : SnapshotError → String
  | .notJson => "Snapshot is not JSON"
  | .malformedPayload => "Malformed analyzer payload"
  | .malformedSnapshot => "Malformed snapshot"

/-- Does the value have the analyzer's own form? Only the first node is looked at. -/
def isPayload : Json → Bool
  | .object fields =>
    match fields.lookup "nodes" with
    | some (.array (.object node :: _)) =>
      (node.lookup "data").isSome || (node.lookup "parentNode").isSome
    | _ => false
  | _ => false

/-- The snapshot in a text of either form. -/
def readSnapshot (text : String) : Except SnapshotError Snapshot :=
  match Json.value? text with
  | none => .error .notJson
  | some j =>
    if isPayload j then
      match Payload.ofJson? j with
      | some payload => .ok payload.toSnapshot
      | none => .error .malformedPayload
    else
      match Snapshot.ofJson? j with
      | some snapshot => .ok snapshot
      | none => .error .malformedSnapshot

/-- The answer to the question whether an analyzer is there. -/
structure HealthReport where
  status : Option String := none
  system : Option String := none
  llm : Option String := none
deriving Repr, BEq, DecidableEq

namespace HealthReport

def toJson (h : HealthReport) : Json :=
  .object [
    ("status", .ofOption .string h.status),
    ("system", .ofOption .string h.system),
    ("llm", .ofOption .string h.llm)]

/-- Read a health report. Nothing must be there. -/
def ofJson? : Json.Decoder HealthReport := fun j => do
  let r ← Json.Record.ofKeys? ["status", "system", "llm"] j
  return {
    status := ← r.withDefault "status" (Json.nullable? Json.string?) none
    system := ← r.withDefault "system" (Json.nullable? Json.string?) none
    llm := ← r.withDefault "llm" (Json.nullable? Json.string?) none }

def llmConnected (h : HealthReport) : Bool :=
  h.llm == some "connected"

end HealthReport

inductive FileReply where
  | content (path text : String)
  | failure (error : String)
deriving Repr, BEq, DecidableEq

namespace FileReply

def toJson : FileReply → Json
  | .content path text => .object [("path", .string path), ("content", .string text)]
  | .failure error => .object [("error", .string error)]

def caseName : FileReply → String
  | .content .. => "Content"
  | .failure _ => "Failure"

def content? (j : Json) : Option FileReply := do
  let r ← Json.Record.ofKeys? ["path", "content"] j
  return .content (← r.required "path" Json.string?) (← r.required "content" Json.string?)

def failure? (j : Json) : Option FileReply := do
  let r ← Json.Record.ofKeys? ["error"] j
  return .failure (← r.required "error" Json.string?)

/-- Read an answer: an object of plain values that holds a text or, failing that, an error. -/
def ofJson? : Json.Decoder FileReply
  | .object fields =>
    let j := Json.object fields
    if j.isPlain then (content? j).or (failure? j) else none
  | _ => none

end FileReply

/-- The body of an answer that reports an error. -/
structure ErrorDetail where
  detail : Option String := none
deriving Repr, BEq, DecidableEq

namespace ErrorDetail

def toJson (d : ErrorDetail) : Json :=
  .object [("detail", .ofOption .string d.detail)]

/-- Read the body. Nothing must be there. -/
def ofJson? : Json.Decoder ErrorDetail := fun j => do
  let r ← Json.Record.ofKeys? ["detail"] j
  return ⟨← r.withDefault "detail" (Json.nullable? Json.string?) none⟩

end ErrorDetail

end CodeAtlas.Analyzer
