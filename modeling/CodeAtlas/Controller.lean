import CodeAtlas.Content.Panel
import CodeAtlas.Interaction

/-!
# The controller

The controller owns the current view, the code panel and the state of the
interaction. Every refresh takes a ticket. Only the newest ticket may change the
view, and only once. Whatever happens is published on a queue of events.
-/

namespace CodeAtlas

inductive RefreshOutcome where
  | applied (generation : Nat)
  /-- The snapshot is the one that is shown already. -/
  | unchanged
  /-- A newer refresh began, or the ticket was used already. -/
  | stale
  /-- The analyzer is offline, and nothing was fetched. -/
  | skipped
  /-- There is no snapshot; the view stays as it is. -/
  | failed (error : AnalyzerError)
deriving Repr, BEq, DecidableEq

/-- The whole state of a session, apart from the analyzer. -/
structure Controller where
  metrics : Metrics Float32
  view : View
  /-- The newest ticket of a refresh. -/
  issued : Nat
  /-- The newest ticket that was used. -/
  completed : Nat
  status : Health
  panel : Panel
  interaction : Interaction
  queue : EventQueue

namespace Controller

/-- Nothing shown, nothing selected, and the analyzer offline. -/
def start (metrics : Metrics Float32) : Controller where
  metrics := metrics
  view := View.initial
  issued := 0
  completed := 0
  status := Health.offline
  panel := {}
  interaction := {}
  queue := {}

def publish (c : Controller) (event : Event) : Controller :=
  { c with queue := c.queue.publish event }

def drain (c : Controller) : List Event × Controller :=
  let (events, queue) := c.queue.drain
  (events, { c with queue := queue })

def receive (c : Controller) : Option Event × Controller :=
  let (event, queue) := c.queue.receive
  (event, { c with queue := queue })

/-- Note what the analyzer said about itself. Only a change is published. -/
def setStatus (c : Controller) (health : Health) : Controller :=
  if c.status = health then c
  else { c with status := health }.publish (.analyzerStatus health)

/-! ## Refreshes -/

/-- Has a newer refresh begun, or was this ticket or a newer one used already? -/
def isStale (c : Controller) (ticket : Nat) : Bool :=
  ticket < c.issued || ticket ≤ c.completed

def beginRefresh (c : Controller) : Nat × Controller :=
  (c.issued + 1, { c with issued := c.issued + 1 })

def applyView (c : Controller) (ticket : Nat) (snapshot : Snapshot) : RefreshOutcome × Controller :=
  let generation := c.view.generation + 1
  let shown := { c with
    view := View.build generation snapshot c.metrics
    completed := ticket
    interaction := c.interaction.reset snapshot.edges }
  (.applied generation, shown.publish
    (.snapshotApplied generation snapshot.nodes.length snapshot.edges.length))

def completeRefresh (c : Controller) (ticket : Nat) (answer : Except AnalyzerError Snapshot) :
    RefreshOutcome × Controller :=
  if c.isStale ticket then (.stale, c.publish (.staleSnapshotDiscarded ticket))
  else
    match answer with
    | .error error =>
      (.failed error, { c with completed := ticket }.publish (.snapshotUnavailable error.message))
    | .ok snapshot =>
      if c.view.snapshot = snapshot then
        (.unchanged, { c with completed := ticket }.publish (.snapshotUnchanged c.view.generation))
      else c.applyView ticket snapshot

def applySnapshot (c : Controller) (snapshot : Snapshot) : RefreshOutcome × Controller :=
  let (ticket, c) := c.beginRefresh
  c.completeRefresh ticket (.ok snapshot)

/-! ## Interaction -/

def activate (c : Controller) (target : Target) : Controller :=
  let (interaction, events) := c.interaction.activate c.view target
  { c with interaction := interaction, queue := c.queue.publishAll events }

def hover (c : Controller) (h : Hover) : Controller :=
  let (interaction, events) := c.interaction.hover h
  { c with interaction := interaction, queue := c.queue.publishAll events }

def highlight (c : Controller) : Highlight :=
  c.interaction.overlay.highlight

def edgeStyles (c : Controller) : List EdgeStyle :=
  c.interaction.overlay.styles

def selection (c : Controller) : Option String :=
  c.interaction.selection

def treeRows (c : Controller) : List Explorer.Row :=
  Explorer.visibleRows c.view.tree c.interaction.expanded

/-! ## Code panel -/

def content (c : Controller) : Option ContentView :=
  c.panel.current

def beginContent (c : Controller) (path : String) (focus : Option NodeId) : Nat × Controller :=
  let (ticket, panel) := c.panel.begin path focus
  (ticket, { c with panel := panel })

def contentEvent (path : String) : Except AnalyzerError String → Event
  | .ok text => .contentLoaded path text.utf8ByteSize
  | .error error => .contentFailed path error.message

/-- Take the answer to a request for a file. Does the panel show it? -/
def completeContent (c : Controller) (ticket : Nat) (answer : Except AnalyzerError String) :
    Bool × Controller :=
  let path := c.panel.selectedPath?
  let (shown, panel) := c.panel.complete ticket answer
  let c := { c with panel := panel }
  match shown, path with
  | true, some path => (true, c.publish (contentEvent path answer))
  | _, _ => (false, c)

def showModule (c : Controller) (name : String) : Controller :=
  { c with panel := c.panel.showModule name }

/-! ## Operations -/

/-- Everything that can be asked of a controller without an analyzer. -/
inductive Operation where
  | setStatus (health : Health)
  | beginRefresh
  | completeRefresh (ticket : Nat) (answer : Except AnalyzerError Snapshot)
  | applySnapshot (snapshot : Snapshot)
  | activate (target : Target)
  | hover (h : Hover)
  | beginContent (path : String) (focus : Option NodeId)
  | completeContent (ticket : Nat) (answer : Except AnalyzerError String)
  | showModule (name : String)
  | publish (event : Event)
  | drain
  | receive
  | getView
  | getEdgeStyles

inductive Answer where
  | done
  | ticket (ticket : Nat)
  | outcome (outcome : RefreshOutcome)
  | flag (value : Bool)
  | health (health : Health)
  | event (event : Option Event)
  | events (events : List Event)
  | view (view : View)
  | styles (styles : List EdgeStyle)

def perform (c : Controller) : Operation → Answer × Controller
  | .setStatus health => (.done, c.setStatus health)
  | .beginRefresh => c.beginRefresh.map .ticket id
  | .completeRefresh ticket answer => (c.completeRefresh ticket answer).map .outcome id
  | .applySnapshot snapshot => (c.applySnapshot snapshot).map .outcome id
  | .activate target => (.done, c.activate target)
  | .hover h => (.done, c.hover h)
  | .beginContent path focus => (c.beginContent path focus).map .ticket id
  | .completeContent ticket answer => (c.completeContent ticket answer).map .flag id
  | .showModule name => (.done, c.showModule name)
  | .publish event => (.done, c.publish event)
  | .drain => c.drain.map .events id
  | .receive => c.receive.map .event id
  | .getView => (.view c.view, c)
  | .getEdgeStyles => (.styles c.edgeStyles, c)

end Controller

end CodeAtlas
