import CodeAtlas.Analyzer.Basic
import CodeAtlas.Event.Basic

/-!
# Events as JSON

An event is an object whose only key is the name of the event and whose value holds
its details. An event without details is just its name. In a document of its own an
event may list its details in their order; inside a larger value they must be an object.
-/

namespace CodeAtlas

namespace Origin

def name : Origin → String
  | .graph => "Graph"
  | .fileTree => "FileTree"
  | .dependencies => "Dependencies"

def ofJson? : Json.Decoder Origin := fun j => do
  let (name, payload) ← j.variant?
  if Json.isBare payload then
    match name with
    | "Graph" => some .graph
    | "FileTree" => some .fileTree
    | "Dependencies" => some .dependencies
    | _ => none
  else none

end Origin

namespace Event

/-- An event with details. -/
def tagged (name : String) (details : List (String × Json)) : Json :=
  .object [(name, .object details)]

def toJson : Event → Json
  | .activateNode id origin =>
    tagged "ActivateNode" [("id", .string id), ("origin", .string origin.name)]
  | .openFile path focus =>
    tagged "OpenFile" [("path", .string path), ("focus", .ofOption .string focus)]
  | .openModule name => tagged "OpenModule" [("name", .string name)]
  | .folderToggled path expanded =>
    tagged "TreeFolderToggled" [("path", .string path), ("expanded", .bool expanded)]
  | .hoverEntered id => tagged "NodeHoverEnter" [("id", .string id)]
  | .hoverLeft => .string "NodeHoverLeave"
  | .snapshotApplied generation nodeCount edgeCount =>
    tagged "SnapshotApplied" [("generation", .ofNat generation), ("node_count", .ofNat nodeCount),
      ("edge_count", .ofNat edgeCount)]
  | .snapshotUnchanged generation =>
    tagged "SnapshotUnchanged" [("generation", .ofNat generation)]
  | .snapshotUnavailable reason => tagged "SnapshotUnavailable" [("reason", .string reason)]
  | .staleSnapshotDiscarded ticket => tagged "StaleSnapshotDiscarded" [("ticket", .ofNat ticket)]
  | .analyzerStatus health => .object [("AnalyzerStatus", health.toJson)]
  | .contentLoaded path bytes =>
    tagged "FileContentLoaded" [("path", .string path), ("bytes", .ofNat bytes)]
  | .contentFailed path error =>
    tagged "FileContentFailed" [("path", .string path), ("error", .string error)]

def ofDetails? (name : String) (details : Json) : Option Event :=
  let record (keys : List String) := Json.Record.ofKeys? keys details
  match name with
  | "ActivateNode" => do
    let r ← record ["id", "origin"]
    return .activateNode (← r.required "id" Json.string?) (← r.required "origin" Origin.ofJson?)
  | "OpenFile" => do
    let r ← record ["path", "focus"]
    return .openFile (← r.required "path" Json.string?) (← r.optional "focus" Json.string?)
  | "OpenModule" => do
    let r ← record ["name"]
    return .openModule (← r.required "name" Json.string?)
  | "TreeFolderToggled" => do
    let r ← record ["path", "expanded"]
    return .folderToggled (← r.required "path" Json.string?) (← r.required "expanded" Json.bool?)
  | "NodeHoverEnter" => do
    let r ← record ["id"]
    return .hoverEntered (← r.required "id" Json.string?)
  | "NodeHoverLeave" => if Json.isBare (some details) then some .hoverLeft else none
  | "SnapshotApplied" => do
    let r ← record ["generation", "node_count", "edge_count"]
    return .snapshotApplied (← r.required "generation" Json.nat?)
      (← r.required "node_count" Json.nat?) (← r.required "edge_count" Json.nat?)
  | "SnapshotUnchanged" => do
    let r ← record ["generation"]
    return .snapshotUnchanged (← r.required "generation" Json.nat?)
  | "SnapshotUnavailable" => do
    let r ← record ["reason"]
    return .snapshotUnavailable (← r.required "reason" Json.string?)
  | "StaleSnapshotDiscarded" => do
    let r ← record ["ticket"]
    return .staleSnapshotDiscarded (← r.required "ticket" Json.nat?)
  | "AnalyzerStatus" => (Health.ofJson? details).map .analyzerStatus
  | "FileContentLoaded" => do
    let r ← record ["path", "bytes"]
    return .contentLoaded (← r.required "path" Json.string?) (← r.required "bytes" Json.nat?)
  | "FileContentFailed" => do
    let r ← record ["path", "error"]
    return .contentFailed (← r.required "path" Json.string?) (← r.required "error" Json.string?)
  | _ => none

/-- Read an event that is a document of its own. -/
def ofJson? : Json.Decoder Event := fun j => do
  match ← j.variant? with
  | ("NodeHoverLeave", none) => some .hoverLeft
  | (_, none) => none
  | (name, some details) => ofDetails? name details

/-- Read an event that is part of a larger value. There details go by key, never by position. -/
def ofValue? : Json.Decoder Event
  | .object [(_, .array _)] => none
  | j => ofJson? j

end Event

end CodeAtlas
