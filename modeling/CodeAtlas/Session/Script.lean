import CodeAtlas.Session.Basic

/-!
# Scripted sessions

An analyzer that answers from a script, in a world whose clock moves only while
somebody waits. The answer to a call may be delayed, and operations may run on the
controller before the call returns. Inside a script a ticket is named by its place
among the tickets that the script itself has taken.
-/

namespace CodeAtlas

open Controller (Operation Answer)

/-- An answer with the time it takes and the operations that run before it arrives. -/
structure Reply (α : Type) where
  answer : α
  /-- Milliseconds. -/
  delay : Nat := 0
  /-- An operation that could not be read is answered by nothing. -/
  during : List (Option Operation) := []

/-- The answers of an analyzer: the first to the first call, and the last to all later ones. -/
structure Script where
  health : List (Reply Health) := []
  snapshots : List (Reply (Except AnalyzerError Snapshot)) := []
  files : List (String × Reply (Except AnalyzerError String)) := []

namespace Script

/-- The answer to call number `n`, or the given one if there are no answers. -/
def nth {α : Type} (replies : List (Reply α)) (n : Nat) (otherwise : α) : Reply α :=
  (replies[n]?).getD (replies.getLast?.getD { answer := otherwise })

def file (s : Script) (path : String) : Reply (Except AnalyzerError String) :=
  (s.files.lookup path).getD { answer := .error (.notFound (path ++ " not found")) }

end Script

inductive CallKind where
  | health
  | snapshot
  | file (path : String)
deriving Repr, BEq, DecidableEq

structure Call where
  time : Nat
  kind : CallKind
deriving Repr, BEq, DecidableEq

structure World where
  now : Nat := 0
  healthCalls : Nat := 0
  snapshotCalls : Nat := 0
  calls : List Call := []
  /-- The tickets of refreshes that the script has taken, in order. -/
  refreshTickets : List Nat := []
  /-- The tickets of requests for files that the script has taken, in order. -/
  contentTickets : List Nat := []
  /-- What was answered to operations that ran during calls. -/
  asides : List (Option Answer) := []

namespace World

def noteCall (w : World) (kind : CallKind) : World :=
  { w with calls := w.calls ++ [⟨w.now, kind⟩] }

/-- The operation with the tickets that its places stand for. -/
def resolve? (w : World) : Operation → Option Operation
  | .completeRefresh place answer =>
    (w.refreshTickets[place]?).map fun ticket => .completeRefresh ticket answer
  | .completeContent place answer =>
    (w.contentTickets[place]?).map fun ticket => .completeContent ticket answer
  | operation => some operation

/-- Note a ticket that the script has taken. A request for a file is answered by its place. -/
def noteTicket (w : World) : Operation → Answer → Answer × World
  | .beginRefresh, .ticket ticket =>
    (.ticket ticket, { w with refreshTickets := w.refreshTickets ++ [ticket] })
  | .beginContent _ _, .ticket ticket =>
    (.ticket w.contentTickets.length, { w with contentTickets := w.contentTickets ++ [ticket] })
  | _, answer => (answer, w)

end World

abbrev ScriptM := StateM (Session World)

namespace ScriptM

/-- Something done to the world alone. -/
def onWorld {α : Type} (f : World → α × World) : ScriptM α := fun s =>
  let (a, world) := f s.world
  (a, { s with world := world })

def perform (operation : Operation) : ScriptM (Option Answer) := do
  match (← get).world.resolve? operation with
  | none => return none
  | some resolved =>
    let answer ← Session.perform resolved
    let answer ← onWorld fun w => w.noteTicket operation answer
    return some answer

def performAsides : List (Option Operation) → ScriptM Unit
  | [] => pure ()
  | operation :: operations => do
    let answer ←
      match operation with
      | some operation => perform operation
      | none => pure none
    onWorld fun w => ((), { w with asides := w.asides ++ [answer] })
    performAsides operations

/-- Wait for a reply and let other operations run before it arrives. -/
def await {α : Type} (reply : Reply α) : ScriptM α := do
  onWorld fun w => ((), { w with now := w.now + reply.delay })
  performAsides reply.during
  return reply.answer

end ScriptM

/-- The analyzer that answers from a script. -/
def Script.analyzer (script : Script) : Analyzer World where
  health := do
    let n ← ScriptM.onWorld fun w =>
      (w.healthCalls, { w.noteCall .health with healthCalls := w.healthCalls + 1 })
    ScriptM.await (Script.nth script.health n Health.offline)
  fetch := do
    let n ← ScriptM.onWorld fun w =>
      (w.snapshotCalls, { w.noteCall .snapshot with snapshotCalls := w.snapshotCalls + 1 })
    ScriptM.await (Script.nth script.snapshots n (.error (.decode "")))
  read path := do
    ScriptM.onWorld fun w => ((), w.noteCall (.file path))
    ScriptM.await (script.file path)

inductive Action where
  | perform (operation : Operation)
  | checkHealth
  | refresh
  | loadFile (path : String) (focus : Option NodeId)
  | follow (event : Event)
  | followAll

structure Report where
  /-- Nothing, if the step could not be read. -/
  answer : Option Answer
  asides : List (Option Answer)
  controller : Controller

namespace Script

def act (script : Script) : Action → ScriptM (Option Answer)
  | .perform operation => ScriptM.perform operation
  | .checkHealth => return some (.health (← Session.checkHealth script.analyzer))
  | .refresh => return some (.outcome (← Session.refresh script.analyzer))
  | .loadFile path focus => return some (.flag (← Session.loadFile script.analyzer path focus))
  | .follow event => do
    Session.follow script.analyzer event
    return some .done
  | .followAll => return some (.events (← Session.followAll script.analyzer))

/-- Carry out a step, if it could be read, and report. -/
def step (script : Script) (action : Option Action) : ScriptM Report := do
  ScriptM.onWorld fun w => ((), { w with asides := [] })
  let answer ←
    match action with
    | some action => script.act action
    | none => pure none
  let s ← get
  return ⟨answer, s.world.asides, s.controller⟩

def steps (script : Script) : List (Option Action) → ScriptM (List Report)
  | [] => return []
  | action :: actions => do
    let report ← script.step action
    return report :: (← script.steps actions)

/-- A scripted session from its start: the reports and the calls that the analyzer received. -/
def run (script : Script) (metrics : Metrics Float32) (actions : List (Option Action)) :
    List Report × List Call :=
  let (reports, s) := script.steps actions ⟨Controller.start metrics, {}⟩
  (reports, s.world.calls)

end Script

end CodeAtlas
