import CodeAtlas.Controller

/-!
# Sessions with an analyzer

A call to an analyzer takes time. While it lasts, other operations may run on the
same controller, so a call is an action on the whole session: it may change the
controller before it returns. What happens before and after the call is up to the
operations below.
-/

namespace CodeAtlas

/-- A controller and the world in which its analyzer lives. -/
structure Session (ω : Type) where
  controller : Controller
  world : ω

/-- An analyzer that lives in a world `ω`. -/
structure Analyzer (ω : Type) where
  /-- Never fails: an analyzer that cannot be reached is offline. -/
  health : StateM (Session ω) Health
  fetch : StateM (Session ω) (Except AnalyzerError Snapshot)
  read : String → StateM (Session ω) (Except AnalyzerError String)

/-- An analyzer that is not there. -/
def Analyzer.unreachable {ω : Type} : Analyzer ω where
  health := pure Health.offline
  fetch := pure (.error (.unavailable ""))
  read _ := pure (.error (.unavailable ""))

namespace Session

variable {ω : Type}

/-- Something done to the controller alone. -/
def onController {α : Type} (f : Controller → α × Controller) : StateM (Session ω) α := fun s =>
  let (a, controller) := f s.controller
  (a, { s with controller := controller })

def perform (operation : Controller.Operation) : StateM (Session ω) Controller.Answer :=
  onController fun c => c.perform operation

def checkHealth (analyzer : Analyzer ω) : StateM (Session ω) Health := do
  let health ← analyzer.health
  onController fun c => ((), c.setStatus health)
  return health

/-- Fetch a snapshot and show it. Nothing is fetched from an analyzer that is offline. -/
def refresh (analyzer : Analyzer ω) : StateM (Session ω) RefreshOutcome := do
  if (← get).controller.status.backendOnline then
    let ticket ← onController Controller.beginRefresh
    let answer ← analyzer.fetch
    onController fun c => c.completeRefresh ticket answer
  else
    return .skipped

/-- Load a file into the code panel. Nothing is loaded from an analyzer that is offline. -/
def loadFile (analyzer : Analyzer ω) (path : String) (focus : Option NodeId) :
    StateM (Session ω) Bool := do
  if (← get).controller.status.backendOnline then
    let ticket ← onController fun c => c.beginContent path focus
    let answer ← analyzer.read path
    onController fun c => c.completeContent ticket answer
  else
    return false

/-- Do what an event asks for: load a file or show a dependency. -/
def follow (analyzer : Analyzer ω) : Event → StateM (Session ω) Unit
  | .openFile path focus => do
    let _ ← loadFile analyzer path focus
  | .openModule name => onController fun c => ((), c.showModule name)
  | _ => pure ()

def followEach (analyzer : Analyzer ω) : List Event → StateM (Session ω) Unit
  | [] => pure ()
  | event :: events => do
    follow analyzer event
    followEach analyzer events

def followAll (analyzer : Analyzer ω) : StateM (Session ω) (List Event) := do
  let events ← onController Controller.drain
  followEach analyzer events
  return events

/-- Open a target: look at the analyzer, fetch a snapshot if possible, activate, and follow. -/
def openTarget (analyzer : Analyzer ω) (target : Target) : StateM (Session ω) (Option ContentView) := do
  let _ ← refresh analyzer
  onController fun c => ((), c.activate target)
  let _ ← followAll analyzer
  return (← get).controller.content

end Session

end CodeAtlas
