import CodeAtlas.Analyzer.Payload
import CodeAtlas.CommandLine.Arguments
import CodeAtlas.Session.Basic
import CodeAtlas.Settings.Basic
import CodeAtlas.View.Basic

/-!
# Commands

What each command prints. Files are read through a function, and the analyzer is
one that may or may not be there.
-/

namespace CodeAtlas.CommandLine

structure Output where
  out : String := ""
  err : String := ""
deriving Repr, BEq, DecidableEq

inductive Failure where
  | settings (path : String)
  | input (path : String)
  | snapshot (error : Analyzer.SnapshotError)
  | fetch (address : String)
  | offline (address : String)
  | nothingToShow (target : String)
deriving Repr, BEq, DecidableEq

def Failure.message : Failure → String
  | .settings path => "Failed to load settings from " ++ path
  | .input path => "Failed to read " ++ path
  | .snapshot error => error.message
  | .fetch address => "Failed to fetch snapshot from " ++ address
  | .offline address => "Analyzer at " ++ address ++ " is offline"
  | .nothingToShow target => "Nothing to show for " ++ target

/-- Lines, each with its end. -/
def lines (texts : List String) : String :=
  String.join (texts.map (· ++ "\n"))

/-- The settings of an invocation. Without a settings file they come from the default one. -/
def settings (read : String → Option String) (home : Option String) (i : Invocation) :
    Except Failure Settings := do
  let loaded ←
    match i.config with
    | some path =>
      match Settings.load (read path) with
      | .ok settings => .ok settings
      | .error _ => .error (.settings path)
    | none => .ok (Settings.ofTextOrDefault home)
  match i.analyzer with
  | some url => .ok { loaded with analyzer := { loaded.analyzer with baseUrl := url } }
  | none => .ok loaded

/-- The snapshot that a command works on: from a file, or else from the analyzer. -/
def snapshot {ω : Type} (read : String → Option String) (analyzer : Analyzer ω) (address : String) :
    Option String → StateM (Session ω) (Except Failure Snapshot)
  | some path => return (
      match read path with
      | none => .error (.input path)
      | some text => (Analyzer.readSnapshot text).mapError .snapshot)
  | none => return (
      match ← analyzer.fetch with
      | .ok snapshot => .ok snapshot
      | .error _ => .error (.fetch address))

def layoutText (metrics : Metrics Float32) (global : Bool) (s : Snapshot) : String :=
  let diagram := Diagram.draw metrics (classify s.nodes) s.edges
  if global then (Json.ofList Box.toJson diagram.boxes).pretty else diagram.toJson.pretty

def rowText (row : Explorer.Row) : String :=
  let marker :=
    match row.kind, row.expanded with
    | .folder, true => "v "
    | .folder, false => "> "
    | .file, _ => "  "
  String.join (List.replicate row.depth "  ") ++ marker ++ row.name

def treeText (all : Bool) (s : Snapshot) : String :=
  let tree := s.tree
  let expanded := if all then Explorer.allFolders tree else []
  let dependencies := s.dependencies
  lines ((Explorer.visibleRows tree expanded).map rowText ++
    if dependencies.isEmpty then []
    else "" :: "Dependencies:" :: dependencies.map ("  " ++ ·))

def edgeText (edge : Edge) (style : EdgeStyle) : String :=
  edge.source ++ " -> " ++ edge.target ++ " (stroke " ++ style.stroke.text ++ ", width " ++
    String.ofList ((Binary32.plain.text? style.width).getD []) ++ ")"

/-- The edges that are highlighted while the pointer rests on a node. -/
def highlightText (node : String) (s : Snapshot) : String :=
  let highlight := Highlight.focused node
  let styles := highlight.styles s.edges
  lines ((highlight.promoted s.edges).filterMap fun i => do
    return edgeText (← s.edges[i]?) (← styles[i]?))

def contentOutput (content : ContentView) : Output where
  out := content.text ++ "\n"
  err :=
    match content.focus with
    | some focus => content.path ++ " (focus: " ++ focus ++ ")\n"
    | none => content.path ++ "\n"

def openOutput {ω : Type} (analyzer : Analyzer ω) (address target : String) :
    StateM (Session ω) (Except Failure Output) := do
  let health ← Session.checkHealth analyzer
  if health.backendOnline then
    match ← Session.openTarget analyzer (Target.ofText target) with
    | some content => return .ok (contentOutput content)
    | none => return .error (.nothingToShow target)
  else
    return .error (.offline address)

/-- What `watch` prints of an event. -/
def eventLine? : Event → Option String
  | .analyzerStatus health =>
    some ("analyzer online: " ++ toString health.backendOnline ++
      ", assistant online: " ++ toString health.llmOnline)
  | .snapshotApplied generation nodeCount edgeCount =>
    some ("snapshot " ++ Nat.repr generation ++ ": " ++ Nat.repr nodeCount ++ " nodes, " ++
      Nat.repr edgeCount ++ " edges")
  | .snapshotUnavailable reason => some ("snapshot unavailable: " ++ reason)
  | _ => none

/-- Carry out a command other than `watch`, which prints nothing here because it never ends. -/
def output {ω : Type} (read : String → Option String) (analyzer : Analyzer ω)
    (settings : Settings) (command : Command) : StateM (Session ω) (Except Failure Output) := do
  let address := analyzerAddress settings.analyzer.baseUrl
  let print (input : Option String) (text : Snapshot → String) :
      StateM (Session ω) (Except Failure Output) := do
    return (← snapshot read analyzer address input).map fun s => { out := text s }
  match command with
  | .layout input vertical global =>
    let metrics :=
      if vertical then { settings.layout with direction := .vertical } else settings.layout
    print input fun s => layoutText metrics global s ++ "\n"
  | .tree input all => print input (treeText all)
  | .highlight input node => print input (highlightText node)
  | .openTarget target => openOutput analyzer address target
  | .watch => return .ok {}

/-- Carry out an invocation with an analyzer that is not there. -/
def run (read : String → Option String) (home : Option String) (i : Invocation) :
    Except Failure Output := do
  let settings ← settings read home i
  let start : Session Unit := ⟨Controller.start settings.layout, ()⟩
  (output read Analyzer.unreachable settings i.command start).1

end CodeAtlas.CommandLine
