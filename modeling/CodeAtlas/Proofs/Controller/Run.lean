import CodeAtlas.Session.Basic
import Mathlib.Data.List.Induction

/-! # Runs of the controller

A run is a list of operations, carried out one after the other. What it shows of
refreshes is recorded mark by mark: a ticket is issued, or a ticket is completed
with an outcome. Calls that wait for an analyzer are no operations of their own.
The last section says which operations they amount to, whatever else is done to
the controller while they wait.
-/

namespace CodeAtlas.Controller

/-! ## Operations in a row -/

/-- The controller after a list of operations. -/
def after (c : Controller) : List Operation → Controller
  | [] => c
  | op :: ops => (c.perform op).2.after ops

@[simp] theorem after_nil (c : Controller) : c.after [] = c := rfl

@[simp] theorem after_cons (c : Controller) (op : Operation) (ops : List Operation) :
    c.after (op :: ops) = (c.perform op).2.after ops := rfl

theorem after_append (c : Controller) (xs ys : List Operation) :
    c.after (xs ++ ys) = (c.after xs).after ys := by
  induction xs generalizing c with
  | nil => rfl
  | cons op xs ih => simp [ih]

/-- What can be seen of a refresh. -/
inductive RefreshMark where
  | issued (ticket : Nat)
  | completed (ticket : Nat) (outcome : RefreshOutcome)
deriving DecidableEq

/--
What an operation shows of refreshes. A snapshot that is at hand is a refresh that
begins and ends at once.
-/
def refreshMarks (c : Controller) : Operation → List RefreshMark
  | .beginRefresh => [.issued c.beginRefresh.1]
  | .completeRefresh ticket answer => [.completed ticket (c.completeRefresh ticket answer).1]
  | .applySnapshot snapshot =>
    [.issued c.beginRefresh.1, .completed c.beginRefresh.1 (c.applySnapshot snapshot).1]
  | _ => []

/-- What a list of operations shows of refreshes, the oldest first. -/
def refreshLog (c : Controller) : List Operation → List RefreshMark
  | [] => []
  | op :: ops => c.refreshMarks op ++ (c.perform op).2.refreshLog ops

theorem refreshLog_append (c : Controller) (xs ys : List Operation) :
    c.refreshLog (xs ++ ys) = c.refreshLog xs ++ (c.after xs).refreshLog ys := by
  induction xs generalizing c with
  | nil => rfl
  | cons op xs ih => simp [refreshLog, ih]

theorem refreshLog_concat (c : Controller) (ops : List Operation) (op : Operation) :
    c.refreshLog (ops ++ [op]) = c.refreshLog ops ++ (c.after ops).refreshMarks op := by
  simp [refreshLog_append, refreshLog]

/-- Did a new snapshot come to be shown? -/
def RefreshMark.isApplied : RefreshMark → Bool
  | .completed _ (.applied _) => true
  | _ => false

/-- How many new snapshots came to be shown. -/
def appliedCount (log : List RefreshMark) : Nat :=
  log.countP RefreshMark.isApplied

theorem appliedCount_concat (log : List RefreshMark) (mark : RefreshMark) :
    appliedCount (log ++ [mark]) = appliedCount log + if mark.isApplied then 1 else 0 := by
  simp [appliedCount, List.countP_append, List.countP_singleton]

/-- Every ticket with which a refresh is completed was issued earlier in the run. -/
def TicketsIssued (c : Controller) (ops : List Operation) : Prop :=
  ∀ earlier ticket answer later, ops = earlier ++ .completeRefresh ticket answer :: later →
    .issued ticket ∈ c.refreshLog earlier

theorem TicketsIssued.of_append {c : Controller} {xs ys : List Operation}
    (h : c.TicketsIssued (xs ++ ys)) : c.TicketsIssued xs := by
  intro earlier ticket answer later hxs
  exact h earlier ticket answer (later ++ ys) (by simp [hxs])

theorem TicketsIssued.last {c : Controller} {ops : List Operation} {ticket : Nat}
    {answer : Except AnalyzerError Snapshot}
    (h : c.TicketsIssued (ops ++ [.completeRefresh ticket answer])) :
    .issued ticket ∈ c.refreshLog ops :=
  h ops ticket answer [] rfl

/-- A position in a list with one more element is an old position or the last one. -/
theorem concat_eq_append_cons {α : Type} {xs before later : List α} {x y : α}
    (h : xs ++ [x] = before ++ y :: later) :
    (xs = before ∧ x = y) ∨ ∃ rest, xs = before ++ y :: rest := by
  cases later using List.reverseRecOn with
  | nil =>
      obtain ⟨hxs, hx⟩ := List.append_inj' h rfl
      exact Or.inl ⟨hxs, by simpa using hx⟩
  | append_singleton rest z =>
      rw [← List.cons_append, ← List.append_assoc] at h
      exact Or.inr ⟨rest, (List.append_inj' h rfl).1⟩

theorem TicketsIssued.nil (c : Controller) : c.TicketsIssued [] := by
  simp [TicketsIssued]

theorem TicketsIssued.concat {c : Controller} {ops : List Operation} {op : Operation}
    (h : c.TicketsIssued ops)
    (hop : ∀ ticket answer, op = .completeRefresh ticket answer →
      .issued ticket ∈ c.refreshLog ops) :
    c.TicketsIssued (ops ++ [op]) := by
  intro earlier ticket answer later hops
  rcases concat_eq_append_cons hops with ⟨rfl, hlast⟩ | ⟨rest, hrest⟩
  · exact hop ticket answer hlast
  · exact h earlier ticket answer rest hrest

/-! ## What one operation does -/

/-- The four ways in which a refresh ends, each with all that it changes. -/
theorem completeRefresh_cases (c : Controller) (ticket : Nat)
    (answer : Except AnalyzerError Snapshot) :
    (c.isStale ticket = true ∧
      c.completeRefresh ticket answer = (.stale, c.publish (.staleSnapshotDiscarded ticket))) ∨
    (c.isStale ticket = false ∧ ∃ error, answer = .error error ∧
      c.completeRefresh ticket answer =
        (.failed error,
          { c with completed := ticket }.publish (.snapshotUnavailable error.message))) ∨
    (c.isStale ticket = false ∧ answer = .ok c.view.snapshot ∧
      c.completeRefresh ticket answer =
        (.unchanged,
          { c with completed := ticket }.publish (.snapshotUnchanged c.view.generation))) ∨
    (c.isStale ticket = false ∧ ∃ snapshot, answer = .ok snapshot ∧ c.view.snapshot ≠ snapshot ∧
      c.completeRefresh ticket answer = c.applyView ticket snapshot) := by
  cases hstale : c.isStale ticket with
  | true => exact Or.inl ⟨rfl, by simp [completeRefresh, hstale]⟩
  | false =>
      cases answer with
      | error error =>
          exact Or.inr (Or.inl ⟨rfl, error, rfl, by simp [completeRefresh, hstale]⟩)
      | ok snapshot =>
          by_cases hsame : c.view.snapshot = snapshot
          · subst hsame
            exact Or.inr (Or.inr (Or.inl ⟨rfl, rfl, by simp [completeRefresh, hstale]⟩))
          · exact Or.inr (Or.inr (Or.inr
              ⟨rfl, snapshot, rfl, hsame, by simp [completeRefresh, hstale, hsame]⟩))

/-- Does the operation begin or complete a refresh? -/
def Operation.isRefresh : Operation → Bool
  | .beginRefresh | .completeRefresh _ _ | .applySnapshot _ => true
  | _ => false

theorem refreshMarks_eq_nil (c : Controller) {op : Operation} (h : op.isRefresh = false) :
    c.refreshMarks op = [] := by
  cases op <;> first | rfl | cases h

theorem activate_overlay (i : Interaction) (view : View) (target : Target) :
    (i.activate view target).1.overlay = i.overlay := by
  cases target with
  | graphNode id =>
      simp only [Interaction.activate, Interaction.announce]
      split <;> rfl
  | folder path =>
      simp only [Interaction.activate, Interaction.toggle]
      split <;> rfl
  | file path =>
      simp only [Interaction.activate, Interaction.announce]
      split <;> rfl
  | dependency name => rfl

/-- What operations that are no refreshes leave alone: only the pointer reaches the overlay. -/
structure SameView (c d : Controller) : Prop where
  metrics : d.metrics = c.metrics
  view : d.view = c.view
  issued : d.issued = c.issued
  completed : d.completed = c.completed
  overlay : d.interaction.overlay = c.interaction.overlay ∨
    ∃ h, d.interaction.overlay = c.interaction.overlay.hover h

theorem SameView.of_eq {c d : Controller} (hmetrics : d.metrics = c.metrics)
    (hview : d.view = c.view) (hissued : d.issued = c.issued)
    (hcompleted : d.completed = c.completed)
    (hoverlay : d.interaction.overlay = c.interaction.overlay) : SameView c d :=
  ⟨hmetrics, hview, hissued, hcompleted, Or.inl hoverlay⟩

theorem perform_sameView (c : Controller) {op : Operation} (h : op.isRefresh = false) :
    SameView c (c.perform op).2 := by
  cases op with
  | beginRefresh => cases h
  | completeRefresh ticket answer => cases h
  | applySnapshot snapshot => cases h
  | setStatus health =>
      simp only [perform, setStatus]
      split <;> exact SameView.of_eq rfl rfl rfl rfl rfl
  | activate target => exact SameView.of_eq rfl rfl rfl rfl (activate_overlay _ _ _)
  | hover movement =>
      refine ⟨rfl, rfl, rfl, rfl, Or.inr ⟨movement, ?_⟩⟩
      cases movement <;> rfl
  | completeContent ticket answer =>
      simp only [perform, completeContent, Prod.map, id]
      split <;> exact SameView.of_eq rfl rfl rfl rfl rfl
  | beginContent path focus => exact SameView.of_eq rfl rfl rfl rfl rfl
  | showModule name => exact SameView.of_eq rfl rfl rfl rfl rfl
  | publish event => exact SameView.of_eq rfl rfl rfl rfl rfl
  | drain => exact SameView.of_eq rfl rfl rfl rfl rfl
  | receive => exact SameView.of_eq rfl rfl rfl rfl rfl
  | getView => exact SameView.of_eq rfl rfl rfl rfl rfl
  | getEdgeStyles => exact SameView.of_eq rfl rfl rfl rfl rfl

end CodeAtlas.Controller

namespace CodeAtlas

open Controller

variable {ω α β : Type}

/-! ## Calls that wait for an analyzer -/

namespace Session

theorem refresh_offline (analyzer : Analyzer ω) (s : Session ω)
    (h : s.controller.status.backendOnline = false) : refresh analyzer s = (.skipped, s) := by
  simp only [refresh, bind, StateT.bind, get, getThe, MonadStateOf.get, StateT.get, pure, h]
  rfl

/-- The session in which the analyzer is asked for a snapshot. -/
def refreshing (s : Session ω) : Session ω :=
  { s with controller := s.controller.beginRefresh.2 }

theorem refresh_online (analyzer : Analyzer ω) (s : Session ω)
    (h : s.controller.status.backendOnline = true) :
    refresh analyzer s =
      onController (fun c => c.completeRefresh s.controller.beginRefresh.1
        (analyzer.fetch s.refreshing).1) (analyzer.fetch s.refreshing).2 := by
  simp only [refresh, bind, StateT.bind, get, getThe, MonadStateOf.get, StateT.get, pure, h]
  rfl

/-- What the action does to the controller is what some list of operations does to it. -/
def ByOperations (m : StateM (Session ω) α) : Prop :=
  ∀ s, ∃ ops, (m s).2.controller = s.controller.after ops

theorem ByOperations.pure (a : α) : ByOperations (pure a : StateM (Session ω) α) :=
  fun _ => ⟨[], rfl⟩

theorem ByOperations.get : ByOperations (get : StateM (Session ω) (Session ω)) :=
  fun _ => ⟨[], rfl⟩

theorem ByOperations.bind {m : StateM (Session ω) α} {k : α → StateM (Session ω) β}
    (hm : ByOperations m) (hk : ∀ a, ByOperations (k a)) : ByOperations (m >>= k) := by
  intro s
  obtain ⟨xs, hxs⟩ := hm s
  obtain ⟨ys, hys⟩ := hk (m s).1 (m s).2
  refine ⟨xs ++ ys, ?_⟩
  rw [after_append, ← hxs]
  exact hys

theorem ByOperations.onController {f : Controller → α × Controller} (op : Operation)
    (h : ∀ c, (f c).2 = (c.perform op).2) :
    ByOperations (onController f : StateM (Session ω) α) :=
  fun s => ⟨[op], h s.controller⟩

end Session

/-- Whatever the analyzer does to the controller while it is asked, it does by operations. -/
structure Analyzer.ByOperations (analyzer : Analyzer ω) : Prop where
  health : Session.ByOperations analyzer.health
  fetch : Session.ByOperations analyzer.fetch
  read : ∀ path, Session.ByOperations (analyzer.read path)

namespace Session

theorem checkHealth_byOperations {analyzer : Analyzer ω} (h : analyzer.ByOperations) :
    ByOperations (checkHealth analyzer) := by
  refine h.health.bind fun health => ByOperations.bind ?_ fun _ => ByOperations.pure health
  exact ByOperations.onController (.setStatus health) fun _ => rfl

theorem refresh_byOperations {analyzer : Analyzer ω} (h : analyzer.ByOperations) :
    ByOperations (refresh analyzer) := by
  refine ByOperations.get.bind fun s => ?_
  split
  · refine ByOperations.bind ?_ fun ticket => h.fetch.bind fun answer => ?_
    · exact ByOperations.onController .beginRefresh fun _ => rfl
    · exact ByOperations.onController (.completeRefresh ticket answer) fun _ => rfl
  · exact ByOperations.pure _

theorem loadFile_byOperations {analyzer : Analyzer ω} (h : analyzer.ByOperations) (path : String)
    (focus : Option NodeId) : ByOperations (loadFile analyzer path focus) := by
  refine ByOperations.get.bind fun s => ?_
  split
  · refine ByOperations.bind ?_ fun ticket => (h.read path).bind fun answer => ?_
    · exact ByOperations.onController (.beginContent path focus) fun _ => rfl
    · exact ByOperations.onController (.completeContent ticket answer) fun _ => rfl
  · exact ByOperations.pure _

theorem follow_byOperations {analyzer : Analyzer ω} (h : analyzer.ByOperations) (event : Event) :
    ByOperations (follow analyzer event) := by
  cases event with
  | openFile path focus =>
      exact (loadFile_byOperations h path focus).bind fun _ => ByOperations.pure ()
  | openModule name => exact ByOperations.onController (.showModule name) fun _ => rfl
  | _ => exact ByOperations.pure ()

end Session

end CodeAtlas
