import CodeAtlas.Proofs.Controller.Run

/-! # Answers of the code panel

The panel keeps one ticket, one request on its way and one text. Against the record of
what was asked, answered and shown these are enough: an answer is shown exactly when it
belongs to the last request, nothing else was shown since, and it is the first answer.
-/

namespace CodeAtlas.Panel

/-! ## Steps and their record -/

/-- Everything that is done to a panel. -/
inductive Step where
  | begin (path : String) (focus : Option NodeId)
  | complete (ticket : ℕ) (answer : Except AnalyzerError String)
  | showModule (name : String)

def step (p : Panel) : Step → Panel
  | .begin path focus => (p.begin path focus).2
  | .complete ticket answer => (p.complete ticket answer).2
  | .showModule name => p.showModule name

/-- What can be seen of a step. -/
inductive Mark where
  | asked (ticket : ℕ) (request : ContentRequest)
  | answered (ticket : ℕ) (shown : Bool)
  | moduleShown
deriving DecidableEq

def Mark.isAnswer : Mark → Bool
  | .answered _ _ => true
  | _ => false

def mark (p : Panel) : Step → Mark
  | .begin path focus => .asked (p.begin path focus).1 ⟨path, focus⟩
  | .complete ticket answer => .answered ticket (p.complete ticket answer).1
  | .showModule _ => .moduleShown

def after (p : Panel) (steps : List Step) : Panel :=
  steps.foldl step p

/-- The marks of steps in a row, the oldest first. -/
def log (p : Panel) : List Step → List Mark
  | [] => []
  | s :: steps => p.mark s :: (p.step s).log steps

theorem after_concat (p : Panel) (steps : List Step) (s : Step) :
    p.after (steps ++ [s]) = (p.after steps).step s := by
  simp [after]

theorem log_concat (p : Panel) (steps : List Step) (s : Step) :
    p.log (steps ++ [s]) = p.log steps ++ [(p.after steps).mark s] := by
  induction steps generalizing p with
  | nil => rfl
  | cons first steps ih =>
      rw [List.cons_append, log, ih, log, List.cons_append]
      rfl

/-- The last request has this ticket, and no dependency was shown since. -/
def Latest (log : List Mark) (ticket : ℕ) (request : ContentRequest) : Prop :=
  ∃ earlier later, log = earlier ++ .asked ticket request :: later ∧
    ∀ mark ∈ later, mark.isAnswer = true

theorem latest_concat {log : List Mark} {m : Mark} {ticket : ℕ} {request : ContentRequest} :
    Latest (log ++ [m]) ticket request ↔
      m = .asked ticket request ∨ m.isAnswer = true ∧ Latest log ticket request := by
  constructor
  · rintro ⟨earlier, later, hlog, hlater⟩
    rcases List.eq_nil_or_concat later with rfl | ⟨rest, last, rfl⟩
    · exact Or.inl (by simpa using (List.append_inj' hlog rfl).2)
    · rw [List.concat_eq_append, ← List.cons_append, ← List.append_assoc] at hlog
      obtain ⟨hbefore, hlast⟩ := List.append_inj' hlog rfl
      rw [List.singleton_inj] at hlast
      refine Or.inr ⟨?_, earlier, rest, hbefore, ?_⟩
      · exact hlater m (by simp [hlast])
      · exact fun mark hmark => hlater mark (by simp [hmark])
  · rintro (rfl | ⟨hanswer, earlier, later, rfl, hlater⟩)
    · exact ⟨log, [], rfl, by simp⟩
    · refine ⟨earlier, later ++ [m], by simp, ?_⟩
      intro mark hmark
      rcases List.mem_append.mp hmark with hmark | hmark
      · exact hlater mark hmark
      · rw [List.mem_singleton.mp hmark]
        exact hanswer

/-! ## The panel and the record -/

/-- The two ways in which an answer is received, each with all that it changes. -/
theorem complete_cases (p : Panel) (ticket : ℕ) (answer : Except AnalyzerError String) :
    (∃ request, ticket = p.latest ∧ p.pending = some request ∧
      p.complete ticket answer = (true, { p with
        pending := none
        current := some (ContentView.ofAnswer request.path request.focus answer) })) ∨
    ((∀ request, ¬(ticket = p.latest ∧ p.pending = some request)) ∧
      p.complete ticket answer = (false, p)) := by
  by_cases hticket : ticket = p.latest
  · cases hpending : p.pending with
    | none => exact Or.inr ⟨by simp, by simp [complete, hpending]⟩
    | some request =>
        exact Or.inl ⟨request, hticket, rfl, by simp [complete, hticket, hpending]⟩
  · exact Or.inr ⟨by simp [hticket], by simp [complete, hticket]⟩

/-- Ticket and request of the panel say what is to be known of the record. -/
structure Tracks (log : List Mark) (p : Panel) : Prop where
  asked_le : ∀ ticket request, .asked ticket request ∈ log → ticket ≤ p.latest
  asked_unique : ∀ ticket request request', .asked ticket request ∈ log →
    .asked ticket request' ∈ log → request = request'
  answered_le : ∀ ticket, .answered ticket true ∈ log → ticket ≤ p.latest
  pending_iff : ∀ ticket request, ticket = p.latest ∧ p.pending = some request ↔
    Latest log ticket request ∧ .answered ticket true ∉ log

theorem Tracks.start : Tracks [] {} where
  asked_le := by simp
  asked_unique := by simp
  answered_le := by simp
  pending_iff := by simp [Latest]

theorem Tracks.begin {log : List Mark} {p : Panel} (h : Tracks log p) (path : String)
    (focus : Option NodeId) :
    Tracks (log ++ [.asked (p.begin path focus).1 ⟨path, focus⟩]) (p.begin path focus).2 := by
  -- The new ticket is above every ticket of the record, so the record says nothing of it.
  have hfresh : ∀ request, .asked (p.latest + 1) request ∉ log := fun request hmem =>
    absurd (h.asked_le _ _ hmem) (Nat.not_succ_le_self p.latest)
  have hunanswered : .answered (p.latest + 1) true ∉ log := fun hmem =>
    absurd (h.answered_le _ hmem) (Nat.not_succ_le_self p.latest)
  refine ⟨?_, ?_, ?_, ?_⟩
  · intro ticket request hmem
    rcases List.mem_append.mp hmem with hmem | hmem
    · exact Nat.le_succ_of_le (h.asked_le ticket request hmem)
    · cases List.mem_singleton.mp hmem
      exact Nat.le_refl _
  · intro ticket request request' hmem hmem'
    rcases List.mem_append.mp hmem with hmem | hmem
    · rcases List.mem_append.mp hmem' with hmem' | hmem'
      · exact h.asked_unique ticket request request' hmem hmem'
      · cases List.mem_singleton.mp hmem'
        exact absurd hmem (hfresh request)
    · cases List.mem_singleton.mp hmem
      rcases List.mem_append.mp hmem' with hmem' | hmem'
      · exact absurd hmem' (hfresh request')
      · cases List.mem_singleton.mp hmem'
        rfl
  · intro ticket hmem
    exact Nat.le_succ_of_le (h.answered_le ticket (by simpa using hmem))
  · intro ticket request
    rw [latest_concat]
    constructor
    · rintro ⟨rfl, hpending⟩
      cases hpending
      exact ⟨Or.inl rfl, by simpa [Panel.begin] using hunanswered⟩
    · rintro ⟨hasked | ⟨hanswer, -⟩, -⟩
      · cases hasked
        exact ⟨rfl, rfl⟩
      · cases hanswer

theorem Tracks.complete {log : List Mark} {p : Panel} (h : Tracks log p) (ticket : ℕ)
    (answer : Except AnalyzerError String) :
    Tracks (log ++ [.answered ticket (p.complete ticket answer).1])
      (p.complete ticket answer).2 := by
  rcases complete_cases p ticket answer with ⟨request, rfl, hpending, heq⟩ | ⟨-, heq⟩
  · rw [heq]
    refine ⟨?_, ?_, ?_, ?_⟩
    · simpa using h.asked_le
    · simpa using h.asked_unique
    · intro ticket hmem
      rcases List.mem_append.mp hmem with hmem | hmem
      · exact h.answered_le ticket hmem
      · cases List.mem_singleton.mp hmem
        exact Nat.le_refl _
    · intro ticket request'
      rw [latest_concat]
      constructor
      · rintro ⟨-, hnone⟩
        cases hnone
      · rintro ⟨hasked | ⟨-, hlatest⟩, hunanswered⟩
        · cases hasked
        · -- Only the ticket that was answered just now can have been the open one.
          rw [List.mem_append, not_or] at hunanswered
          obtain ⟨rfl, -⟩ := (h.pending_iff ticket request').mpr ⟨hlatest, hunanswered.1⟩
          exact absurd (List.mem_singleton_self _) hunanswered.2
  · rw [heq]
    refine ⟨?_, ?_, ?_, ?_⟩
    · simpa using h.asked_le
    · simpa using h.asked_unique
    · simpa using h.answered_le
    · intro ticket' request
      rw [latest_concat, h.pending_iff]
      simp [Mark.isAnswer]

theorem Tracks.showModule {log : List Mark} {p : Panel} (h : Tracks log p) (name : String) :
    Tracks (log ++ [.moduleShown]) (p.showModule name) := by
  refine ⟨?_, ?_, ?_, ?_⟩
  · intro ticket request hmem
    exact Nat.le_succ_of_le (h.asked_le ticket request (by simpa using hmem))
  · simpa using h.asked_unique
  · intro ticket hmem
    exact Nat.le_succ_of_le (h.answered_le ticket (by simpa using hmem))
  · intro ticket request
    simp [latest_concat, Mark.isAnswer, Panel.showModule]

theorem tracks_after (steps : List Step) : Tracks (log {} steps) (after {} steps) := by
  induction steps using List.reverseRecOn with
  | nil => exact Tracks.start
  | append_singleton steps s ih =>
      rw [log_concat, after_concat]
      cases s with
      | begin path focus => exact ih.begin path focus
      | complete ticket answer => exact ih.complete ticket answer
      | showModule name => exact ih.showModule name

/-- An answer is shown exactly when it is the first one to the last request. -/
theorem Tracks.complete_eq_true_iff {log : List Mark} {p : Panel} (h : Tracks log p) (ticket : ℕ)
    (answer : Except AnalyzerError String) :
    (p.complete ticket answer).1 = true ↔
      (∃ request, Latest log ticket request) ∧ .answered ticket true ∉ log := by
  have hopen : ((∃ request, Latest log ticket request) ∧ .answered ticket true ∉ log) ↔
      ∃ request, ticket = p.latest ∧ p.pending = some request := by
    simp only [h.pending_iff, exists_and_right]
  rw [hopen]
  rcases complete_cases p ticket answer with ⟨request, hticket, hpending, heq⟩ | ⟨hclosed, heq⟩
  · rw [heq]
    exact ⟨fun _ => ⟨request, hticket, hpending⟩, fun _ => rfl⟩
  · rw [heq]
    exact ⟨fun h => absurd h Bool.false_ne_true, fun ⟨request, hr⟩ => absurd hr (hclosed request)⟩

/-- The request that an answer is shown for is the one that took the ticket. -/
theorem Tracks.pending_of_complete {log : List Mark} {p : Panel} (h : Tracks log p) {ticket : ℕ}
    {answer : Except AnalyzerError String} (hshown : (p.complete ticket answer).1 = true)
    {request : ContentRequest} (hasked : .asked ticket request ∈ log) :
    p.pending = some request ∧
      (p.complete ticket answer).2 = { p with
        pending := none
        current := some (ContentView.ofAnswer request.path request.focus answer) } := by
  rcases complete_cases p ticket answer with ⟨request', hticket, hpending, heq⟩ | ⟨-, heq⟩
  · obtain ⟨earlier, later, hlog, -⟩ := ((h.pending_iff ticket request').mp ⟨hticket, hpending⟩).1
    have hrequest : request' = request :=
      h.asked_unique ticket request' request (by simp [hlog]) hasked
    rw [heq, hpending, hrequest]
    exact ⟨rfl, rfl⟩
  · rw [heq] at hshown
    cases hshown

end CodeAtlas.Panel

/-! ## The panel of a controller -/

namespace CodeAtlas.Controller

/-- What an operation does to the panel. -/
def Operation.panelStep? : Operation → Option Panel.Step
  | .beginContent path focus => some (.begin path focus)
  | .completeContent ticket answer => some (.complete ticket answer)
  | .showModule name => some (.showModule name)
  | _ => none

theorem panel_completeRefresh (c : Controller) (ticket : ℕ)
    (answer : Except AnalyzerError Snapshot) :
    (c.completeRefresh ticket answer).2.panel = c.panel := by
  rcases completeRefresh_cases c ticket answer with
    ⟨-, heq⟩ | ⟨-, error, -, heq⟩ | ⟨-, -, heq⟩ | ⟨-, snapshot, -, -, heq⟩
  all_goals
    rw [heq]
    rfl

/-- What the controller makes of an answer is what its panel makes of it, and one event. -/
theorem completeContent_cases (c : Controller) (ticket : ℕ) (answer : Except AnalyzerError String) :
    (∃ request, c.panel.pending = some request ∧ (c.panel.complete ticket answer).1 = true ∧
      c.completeContent ticket answer =
        (true, { c with panel := (c.panel.complete ticket answer).2 }.publish
          (contentEvent request.path answer))) ∨
    ((c.panel.complete ticket answer).1 = false ∧
      c.completeContent ticket answer =
        (false, { c with panel := (c.panel.complete ticket answer).2 })) := by
  rcases Panel.complete_cases c.panel ticket answer with ⟨request, -, hpending, heq⟩ | ⟨-, heq⟩
  · exact Or.inl ⟨request, hpending, by rw [heq],
      by simp [completeContent, heq, Panel.selectedPath?, hpending]⟩
  · exact Or.inr ⟨by rw [heq], by simp [completeContent, heq]⟩

theorem panel_perform (c : Controller) (op : Operation) :
    (c.perform op).2.panel = (op.panelStep?.map c.panel.step).getD c.panel := by
  cases op with
  | completeContent ticket answer =>
      rcases completeContent_cases c ticket answer with ⟨request, -, -, heq⟩ | ⟨-, heq⟩
      all_goals
        simp only [perform, heq]
        rfl
  | setStatus health =>
      simp only [perform, setStatus]
      split <;> rfl
  | completeRefresh ticket answer => exact panel_completeRefresh c ticket answer
  | applySnapshot snapshot =>
      exact panel_completeRefresh c.beginRefresh.2 c.beginRefresh.1 (.ok snapshot)
  | _ => rfl

theorem panel_after (c : Controller) (ops : List Operation) :
    (c.after ops).panel = c.panel.after (ops.filterMap Operation.panelStep?) := by
  induction ops generalizing c with
  | nil => rfl
  | cons op ops ih =>
      rw [after_cons, ih, panel_perform]
      cases hstep : op.panelStep? with
      | none => rw [List.filterMap_cons_none hstep]; rfl
      | some s => rw [List.filterMap_cons_some hstep]; rfl

/-- The event names the request that took the ticket, and without a text shown there is none. -/
theorem completeContent_of_tracks {c : Controller} {log : List Panel.Mark}
    (h : Panel.Tracks log c.panel) (ticket : ℕ) (answer : Except AnalyzerError String) :
    (c.completeContent ticket answer).1 = (c.panel.complete ticket answer).1 ∧
    (c.completeContent ticket answer).2.panel = (c.panel.complete ticket answer).2 ∧
    ((c.panel.complete ticket answer).1 = false →
      (c.completeContent ticket answer).2.queue.events = c.queue.events) ∧
    ((c.panel.complete ticket answer).1 = true → ∀ request, .asked ticket request ∈ log →
      (c.completeContent ticket answer).2.queue.events =
        c.queue.events ++ [contentEvent request.path answer]) := by
  rcases completeContent_cases c ticket answer with
    ⟨request, hpending, hshown, heq⟩ | ⟨hhidden, heq⟩
  · refine ⟨by rw [heq, hshown], by rw [heq]; rfl, by simp [hshown], ?_⟩
    intro _ request' hasked
    have hpending' := (h.pending_of_complete hshown hasked).1
    rw [hpending] at hpending'
    cases hpending'
    rw [heq]
    rfl
  · exact ⟨by rw [heq, hhidden], by rw [heq], fun _ => by rw [heq], by simp [hhidden]⟩

/--
An answer is shown exactly when its ticket belongs to the last request, no dependency
was shown since, and no answer with that ticket was shown before. Then the panel holds
the path and the focus of that request with the text or the note for the error, and
waits for nothing; otherwise it stays as it is. A controller, whatever else is done to
it, gives the same answer and publishes one event for that path, or none.
-/
theorem complete_shows_iff_first_answer_to_latest (steps : List Panel.Step) (ticket : ℕ)
    (answer : Except AnalyzerError String) :
    let p := Panel.after {} steps
    let log := Panel.log {} steps
    let shown := (p.complete ticket answer).1
    let q := (p.complete ticket answer).2
    (shown = true ↔
      (∃ request, Panel.Latest log ticket request) ∧ .answered ticket true ∉ log) ∧
    (shown = false → q = p) ∧
    (shown = true → ∀ request, .asked ticket request ∈ log →
      q.pending = none ∧
      (∀ text, answer = .ok text →
        q.current = some ⟨request.path, text, .source, request.focus⟩) ∧
      (∀ error, answer = .error error →
        q.current = some ⟨request.path, ContentView.noteFor error, .failed, request.focus⟩)) ∧
    (∀ metrics ops, ops.filterMap Operation.panelStep? = steps →
      let c := (start metrics).after ops
      let result := c.completeContent ticket answer
      result.1 = shown ∧ result.2.panel = q ∧
      (shown = false → result.2.queue.events = c.queue.events) ∧
      (shown = true → ∀ request, .asked ticket request ∈ log →
        (∀ text, answer = .ok text → result.2.queue.events =
          c.queue.events ++ [.contentLoaded request.path text.utf8ByteSize]) ∧
        (∀ error, answer = .error error → result.2.queue.events =
          c.queue.events ++ [.contentFailed request.path error.message]))) := by
  intro p log shown q
  have htracks : Panel.Tracks log p := Panel.tracks_after steps
  refine ⟨htracks.complete_eq_true_iff ticket answer, ?_, ?_, ?_⟩
  · intro hshown
    rcases Panel.complete_cases p ticket answer with ⟨request, -, -, heq⟩ | ⟨-, heq⟩
    · exact absurd (congrArg Prod.fst heq) (ne_true_of_eq_false hshown)
    · exact congrArg Prod.snd heq
  · intro hshown request hasked
    have hq : q = _ := (htracks.pending_of_complete hshown hasked).2
    rw [hq]
    refine ⟨rfl, ?_, ?_⟩
    · rintro text rfl
      rfl
    · rintro error rfl
      rfl
  · intro metrics ops hops c result
    have hpanel : c.panel = p :=
      (panel_after (start metrics) ops).trans (congrArg (Panel.after {}) hops)
    obtain ⟨hresult, hafter, hnone, hone⟩ :=
      completeContent_of_tracks (hpanel ▸ htracks : Panel.Tracks log c.panel) ticket answer
    rw [hpanel] at hresult hafter hnone hone
    refine ⟨hresult, hafter, hnone, ?_⟩
    intro hshown request hasked
    refine ⟨?_, ?_⟩
    · rintro text rfl
      exact hone hshown request hasked
    · rintro error rfl
      exact hone hshown request hasked

/-- Two requests of which the first is answered late, and the pointer moves in between. -/
def overtakenSteps : List Panel.Step :=
  [.begin "a.py" none, .begin "b.py" (some "b.py::f"), .complete 1 (.ok "late")]

def overtakenOperations : List Operation :=
  [.beginContent "a.py" none, .hover (.enter "x"), .beginContent "b.py" (some "b.py::f"),
    .completeContent 1 (.ok "late")]

/-- The late answer is dropped, and the second request gets its text of three bytes. -/
theorem overtakenSteps_answer :
    let p := Panel.after {} overtakenSteps
    let c := (start Metrics.standard).after overtakenOperations
    overtakenOperations.filterMap Operation.panelStep? = overtakenSteps ∧
    Panel.log {} overtakenSteps = [.asked 1 ⟨"a.py", none⟩, .asked 2 ⟨"b.py", some "b.py::f"⟩,
      .answered 1 false] ∧
    (p.complete 2 (.ok "é!")).1 = true ∧
    (p.complete 2 (.ok "é!")).2.current = some ⟨"b.py", "é!", .source, some "b.py::f"⟩ ∧
    (p.complete 1 (.ok "late")).2 = p ∧
    (c.completeContent 2 (.ok "é!")).2.queue.events =
      [.hoverEntered "x", .contentLoaded "b.py" 3] := by
  intro p c
  have hlog : Panel.log {} overtakenSteps =
      [.asked 1 ⟨"a.py", none⟩, .asked 2 ⟨"b.py", some "b.py::f"⟩, .answered 1 false] := rfl
  have hasked : .asked 2 ⟨"b.py", some "b.py::f"⟩ ∈ Panel.log {} overtakenSteps := by
    simp [hlog]
  obtain ⟨hiff, -, hshow, hcontroller⟩ :=
    complete_shows_iff_first_answer_to_latest overtakenSteps 2 (.ok "é!")
  have hshown : (p.complete 2 (.ok "é!")).1 = true := by
    refine hiff.mpr ⟨⟨⟨"b.py", some "b.py::f"⟩, [.asked 1 ⟨"a.py", none⟩], [.answered 1 false],
      hlog, by simp [Panel.Mark.isAnswer]⟩, by simp [hlog]⟩
  have hlate := (complete_shows_iff_first_answer_to_latest overtakenSteps 1 (.ok "late")).2.1 rfl
  have hevents := ((hcontroller Metrics.standard overtakenOperations rfl).2.2.2 hshown
    ⟨"b.py", some "b.py::f"⟩ hasked).1 "é!" rfl
  exact ⟨rfl, hlog, hshown, (hshow hshown _ hasked).2.1 _ rfl, hlate, hevents⟩

end CodeAtlas.Controller
