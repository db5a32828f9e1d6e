import CodeAtlas.Proofs.Content.Requests
import CodeAtlas.Proofs.Controller.Calls
import Mathlib.Data.Finset.Basic

/-! # Events determine the state of the interaction

A listener that hears every event the controller publishes can keep a mirror of open
folders, selection, focus, status and generation without ever looking at the controller.
-/

namespace CodeAtlas

/-- What a listener keeps track of. -/
structure Mirror where
  /-- The paths of the open folders. -/
  expanded : Finset String
  selection : Option String
  highlight : Highlight
  status : Health
  generation : ℕ
deriving DecidableEq

namespace Mirror

/-- Nothing open, nothing selected, nothing in focus, and the analyzer offline. -/
def initial : Mirror :=
  ⟨∅, none, .neutral, Health.offline, 0⟩

/-- Take note of an event. -/
def hear (m : Mirror) : Event → Mirror
  | .folderToggled path true => { m with expanded := insert path m.expanded }
  | .folderToggled path false => { m with expanded := m.expanded.erase path }
  | .openFile path _ => { m with selection := some path }
  | .openModule name => { m with selection := some ("module:" ++ name) }
  | .hoverEntered id => { m with highlight := .focused id }
  | .hoverLeft => { m with highlight := .neutral }
  | .analyzerStatus health => { m with status := health }
  | .snapshotApplied generation _ _ => { m with generation := generation, highlight := .neutral }
  | .activateNode _ _ | .snapshotUnchanged _ | .snapshotUnavailable _
  | .staleSnapshotDiscarded _ | .contentLoaded _ _ | .contentFailed _ _ => m

/-- What is known after a list of events, the oldest first. -/
def replay (events : List Event) : Mirror :=
  events.foldl hear initial

end Mirror

namespace Controller

/-- What there is to know of the controller. -/
def mirror (c : Controller) : Mirror :=
  ⟨c.interaction.expanded.toFinset, c.selection, c.highlight, c.status, c.view.generation⟩

/-! ## What is published and what is taken -/

/-- Does the operation act on the queue of events alone? -/
def Operation.isQueueAccess : Operation → Bool
  | .publish _ | .drain | .receive => true
  | _ => false

/-- What the controller itself publishes in an operation: what the queue gains. -/
def published (c : Controller) (op : Operation) : List Event :=
  if op.isQueueAccess then []
  else (c.perform op).2.queue.events.drop c.queue.events.length

/-- What an operation takes from the queue. -/
def taken (c : Controller) : Operation → List Event
  | .drain => c.drain.1
  | .receive => c.receive.1.toList
  | _ => []

/-- Everything the controller publishes in a run, the oldest first. -/
def publishedLog (c : Controller) : List Operation → List Event
  | [] => []
  | op :: ops => c.published op ++ (c.perform op).2.publishedLog ops

/-- Everything that is taken from the queue in a run, the oldest first. -/
def takenLog (c : Controller) : List Operation → List Event
  | [] => []
  | op :: ops => c.taken op ++ (c.perform op).2.takenLog ops

/-! ## One operation -/

/-- The second controller has published the events, and they say all that is different. -/
structure Announced (c d : Controller) (events : List Event) : Prop where
  queue : d.queue.events = c.queue.events ++ events
  mirror : d.mirror = events.foldl Mirror.hear c.mirror

theorem Announced.refl (c : Controller) : Announced c c [] :=
  ⟨(List.append_nil _).symm, rfl⟩

theorem Announced.trans {c d e : Controller} {xs ys : List Event} (h : Announced c d xs)
    (h' : Announced d e ys) : Announced c e (xs ++ ys) := by
  refine ⟨?_, ?_⟩
  · rw [h'.queue, h.queue, List.append_assoc]
  · rw [h'.mirror, h.mirror, List.foldl_append]

theorem announced_setStatus (c : Controller) (health : Health) :
    ∃ events, Announced c (c.setStatus health) events := by
  unfold setStatus
  split
  · exact ⟨[], Announced.refl c⟩
  · exact ⟨[.analyzerStatus health], rfl, rfl⟩

theorem announced_beginRefresh (c : Controller) : Announced c c.beginRefresh.2 [] :=
  ⟨(List.append_nil _).symm, rfl⟩

theorem announced_completeRefresh (c : Controller) (ticket : ℕ)
    (answer : Except AnalyzerError Snapshot) :
    ∃ events, Announced c (c.completeRefresh ticket answer).2 events := by
  rcases completeRefresh_cases c ticket answer with
    ⟨-, heq⟩ | ⟨-, error, -, heq⟩ | ⟨-, -, heq⟩ | ⟨-, snapshot, -, -, heq⟩
  · rw [heq]
    exact ⟨[.staleSnapshotDiscarded ticket], rfl, rfl⟩
  · rw [heq]
    exact ⟨[.snapshotUnavailable error.message], rfl, rfl⟩
  · rw [heq]
    exact ⟨[.snapshotUnchanged c.view.generation], rfl, rfl⟩
  · rw [heq]
    exact ⟨[.snapshotApplied (c.view.generation + 1) snapshot.nodes.length snapshot.edges.length],
      rfl, rfl⟩

theorem toFinset_filter_bne (paths : List String) (path : String) :
    (paths.filter (· != path)).toFinset = paths.toFinset.erase path := by
  ext other
  simp [and_comm]

theorem announced_toggle (c : Controller) (path : String) :
    Announced c (c.activate (.folder path)) (c.interaction.toggle path).2 := by
  refine ⟨rfl, ?_⟩
  by_cases hopen : c.interaction.expanded.contains path = true
  · simp only [activate, Interaction.activate, Interaction.toggle, if_pos hopen, mirror,
      toFinset_filter_bne]
    rfl
  · simp only [activate, Interaction.activate, Interaction.toggle, if_neg hopen, mirror,
      List.toFinset_cons]
    rfl

theorem announced_activate (c : Controller) (target : Target) :
    Announced c (c.activate target) (c.interaction.activate c.view target).2 := by
  cases target with
  | folder path => exact announced_toggle c path
  | dependency name => exact ⟨rfl, rfl⟩
  | graphNode id =>
      refine ⟨rfl, ?_⟩
      cases hname : NodeId.dependencyName? id <;>
        simp only [activate, Interaction.activate, hname] <;> rfl
  | file path =>
      refine ⟨rfl, ?_⟩
      cases hname : NodeId.dependencyName? path <;>
        simp only [activate, Interaction.activate, hname] <;> rfl

theorem announced_hover (c : Controller) (movement : Hover) :
    ∃ events, Announced c (c.hover movement) events := by
  cases movement with
  | enter id => exact ⟨[.hoverEntered id], rfl, rfl⟩
  | leave => exact ⟨[.hoverLeft], rfl, rfl⟩

theorem announced_completeContent (c : Controller) (ticket : ℕ)
    (answer : Except AnalyzerError String) :
    ∃ events, Announced c (c.completeContent ticket answer).2 events := by
  rcases completeContent_cases c ticket answer with ⟨request, -, -, heq⟩ | ⟨-, heq⟩
  · rw [heq]
    refine ⟨[contentEvent request.path answer], rfl, ?_⟩
    cases answer with
    | ok text => rfl
    | error error => rfl
  · rw [heq]
    exact ⟨[], (List.append_nil _).symm, rfl⟩

/-- Every operation but those on the queue publishes what it changes. -/
theorem exists_announced_perform (c : Controller) {op : Operation} (h : op.isQueueAccess = false) :
    ∃ events, Announced c (c.perform op).2 events := by
  cases op with
  | publish event => cases h
  | drain => cases h
  | receive => cases h
  | setStatus health => exact announced_setStatus c health
  | beginRefresh => exact ⟨[], announced_beginRefresh c⟩
  | completeRefresh ticket answer => exact announced_completeRefresh c ticket answer
  | applySnapshot snapshot =>
      obtain ⟨events, hevents⟩ :=
        announced_completeRefresh c.beginRefresh.2 c.beginRefresh.1 (.ok snapshot)
      exact ⟨events, (announced_beginRefresh c).trans hevents⟩
  | activate target => exact ⟨_, announced_activate c target⟩
  | hover movement => exact announced_hover c movement
  | completeContent ticket answer => exact announced_completeContent c ticket answer
  | beginContent path focus => exact ⟨[], (List.append_nil _).symm, rfl⟩
  | showModule name => exact ⟨[], (List.append_nil _).symm, rfl⟩
  | getView => exact ⟨[], Announced.refl c⟩
  | getEdgeStyles => exact ⟨[], Announced.refl c⟩

theorem announced_perform (c : Controller) {op : Operation} (h : op.isQueueAccess = false) :
    Announced c (c.perform op).2 (c.published op) := by
  obtain ⟨events, hevents⟩ := exists_announced_perform c h
  have hpublished : c.published op = events := by
    simp [published, h, hevents.queue]
  rw [hpublished]
  exact hevents

theorem mirror_perform (c : Controller) (op : Operation) :
    (c.perform op).2.mirror = (c.published op).foldl Mirror.hear c.mirror := by
  cases haccess : op.isQueueAccess with
  | false => exact (announced_perform c haccess).mirror
  | true =>
      cases op with
      | publish event => rfl
      | drain => rfl
      | receive => rfl
      | _ => cases haccess

/-- What is published goes through the queue, in order and without loss. -/
theorem taken_append_queue (c : Controller) {op : Operation} (h : ∀ event, op ≠ .publish event) :
    c.taken op ++ (c.perform op).2.queue.events = c.queue.events ++ c.published op := by
  cases haccess : op.isQueueAccess with
  | false =>
      have htaken : c.taken op = [] := by
        cases op <;> first | rfl | cases haccess
      rw [htaken, (announced_perform c haccess).queue, List.nil_append]
  | true =>
      cases op with
      | publish event => exact absurd rfl (h event)
      | drain => simp [taken, perform, drain, EventQueue.drain, published, Operation.isQueueAccess]
      | receive =>
          cases hqueue : c.queue.events <;>
            simp [taken, perform, receive, EventQueue.receive, published, Operation.isQueueAccess,
              hqueue]
      | _ => cases haccess

/-! ## Whole runs -/

theorem mirror_after (c : Controller) (ops : List Operation) :
    (c.after ops).mirror = (c.publishedLog ops).foldl Mirror.hear c.mirror := by
  induction ops generalizing c with
  | nil => rfl
  | cons op ops ih => rw [after_cons, ih, mirror_perform, publishedLog, List.foldl_append]

theorem takenLog_append_queue (c : Controller) (ops : List Operation)
    (h : ∀ event, .publish event ∉ ops) :
    c.takenLog ops ++ (c.after ops).queue.events = c.queue.events ++ c.publishedLog ops := by
  induction ops generalizing c with
  | nil => simp [takenLog, publishedLog]
  | cons op ops ih =>
      have hop : ∀ event, op ≠ .publish event := by
        rintro event rfl
        exact h event List.mem_cons_self
      have hops : ∀ event, .publish event ∉ ops := fun event hmem =>
        h event (List.mem_cons_of_mem op hmem)
      rw [takenLog, publishedLog, after_cons, List.append_assoc, ih _ hops, ← List.append_assoc,
        taken_append_queue c hop, List.append_assoc]

/--
The events that the controller published, replayed from the beginning, give its open
folders, selection, focus, status and generation, whatever was called and whatever was
done while an analyzer was asked. As long as nobody else publishes anything, these are
the events that were taken from the queue, followed by those that still wait in it.
-/
theorem replay_published_eq_mirror {ω : Type} (analyzer : Analyzer ω) (m : analyzer.Meanwhile)
    (metrics : Metrics Float32) (world : ω) (actions : List Action) :
    let s : Session ω := ⟨start metrics, world⟩
    let ops := m.operationsOf s actions
    let c := (s.actAll analyzer actions).controller
    Mirror.replay ((start metrics).publishedLog ops) = c.mirror ∧
    ((∀ event, .publish event ∉ ops) →
      (start metrics).takenLog ops ++ c.queue.events = (start metrics).publishedLog ops) := by
  intro s ops c
  have hc : c = (start metrics).after ops := m.after_operationsOf s actions
  rw [hc]
  refine ⟨?_, ?_⟩
  · rw [mirror_after]
    rfl
  · intro hpublish
    rw [takenLog_append_queue _ _ hpublish]
    rfl

/-- An analyzer during whose answer the pointer moves. -/
def restlessAnalyzer : Analyzer Unit where
  health := pure ⟨true, false⟩
  fetch := do
    let _ ← Session.perform (.hover (.enter "a"))
    return .ok { nodes := [{ id := "a" }] }
  read _ := pure (.error (.notFound ""))

def restlessMeanwhile : restlessAnalyzer.Meanwhile where
  health _ := []
  fetch _ := [.hover (.enter "a")]
  read _ _ := []
  after_health _ := rfl
  after_fetch _ := rfl
  after_read _ _ := rfl

/-- Two refreshes of which the second brings nothing new, clicks, and a listener in between. -/
def restlessActions : List Action :=
  [.checkHealth, .refresh, .perform (.activate (.folder "src")), .perform .drain, .checkHealth,
    .perform (.activate (.folder "lib")), .perform (.activate (.dependency "os")),
    .perform (.activate (.folder "src")), .perform .receive, .refresh]

theorem restlessActions_replay :
    let s : Session Unit := ⟨start Metrics.standard, ()⟩
    let ops := restlessMeanwhile.operationsOf s restlessActions
    let c := (s.actAll restlessAnalyzer restlessActions).controller
    (∀ event, .publish event ∉ ops) ∧
    Mirror.replay ((start Metrics.standard).publishedLog ops) =
      ⟨{"lib"}, some "module:os", .focused "a", ⟨true, false⟩, 1⟩ ∧
    (start Metrics.standard).takenLog ops ++ c.queue.events =
      (start Metrics.standard).publishedLog ops := by
  have hops : restlessMeanwhile.operationsOf ⟨start Metrics.standard, ()⟩ restlessActions =
      [.setStatus ⟨true, false⟩, .beginRefresh, .hover (.enter "a"),
        .completeRefresh 1 (.ok { nodes := [{ id := "a" }] }), .activate (.folder "src"), .drain,
        .setStatus ⟨true, false⟩, .activate (.folder "lib"), .activate (.dependency "os"),
        .activate (.folder "src"), .receive, .beginRefresh, .hover (.enter "a"),
        .completeRefresh 2 (.ok { nodes := [{ id := "a" }] })] := rfl
  have hpublish : ∀ event, .publish event ∉
      restlessMeanwhile.operationsOf ⟨start Metrics.standard, ()⟩ restlessActions := by
    simp [hops]
  have hmirror : (Session.actAll restlessAnalyzer ⟨start Metrics.standard, ()⟩
      restlessActions).controller.mirror =
        ⟨{"lib"}, some "module:os", .focused "a", ⟨true, false⟩, 1⟩ := by
    decide +kernel
  have h := replay_published_eq_mirror restlessAnalyzer restlessMeanwhile Metrics.standard ()
    restlessActions
  exact ⟨hpublish, h.1.trans hmirror, h.2 hpublish⟩

end Controller

end CodeAtlas
