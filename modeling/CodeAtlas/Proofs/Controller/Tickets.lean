import CodeAtlas.Proofs.Controller.Run

/-! # Tickets of refreshes

The controller keeps two counters: the newest ticket and the newest ticket that was
used. Against the record of a run they are shown to be enough: a refresh is found
stale exactly when another ticket is newer or the same ticket was used before.
-/

namespace CodeAtlas.Controller

/-! ## Readings of the record -/

/-- The tickets that were issued, the oldest first. -/
def issuedTickets (log : List RefreshMark) : List Nat :=
  log.filterMap fun
    | .issued ticket => some ticket
    | .completed _ _ => none

/-- The ticket that was issued last. -/
def newestTicket? (log : List RefreshMark) : Option Nat :=
  (issuedTickets log).getLast?

/-- The tickets that were completed and not found stale, the oldest first. -/
def settledTickets (log : List RefreshMark) : List Nat :=
  log.filterMap fun
    | .issued _ => none
    | .completed ticket outcome => if outcome = .stale then none else some ticket

theorem issuedTickets_issued (log : List RefreshMark) (ticket : Nat) :
    issuedTickets (log ++ [.issued ticket]) = issuedTickets log ++ [ticket] := by
  simp [issuedTickets, List.filterMap_append]

theorem issuedTickets_completed (log : List RefreshMark) (ticket : Nat)
    (outcome : RefreshOutcome) :
    issuedTickets (log ++ [.completed ticket outcome]) = issuedTickets log := by
  simp [issuedTickets, List.filterMap_append]

theorem mem_issuedTickets {log : List RefreshMark} {ticket : Nat} :
    ticket ∈ issuedTickets log ↔ .issued ticket ∈ log := by
  simp only [issuedTickets, List.mem_filterMap]
  constructor
  · rintro ⟨mark, hmark, hticket⟩
    cases mark with
    | issued ticket' =>
        cases hticket
        exact hmark
    | completed ticket' outcome => cases hticket
  · intro hmark
    exact ⟨.issued ticket, hmark, rfl⟩

theorem settledTickets_issued (log : List RefreshMark) (ticket : Nat) :
    settledTickets (log ++ [.issued ticket]) = settledTickets log := by
  simp [settledTickets, List.filterMap_append]

theorem settledTickets_stale (log : List RefreshMark) (ticket : Nat) :
    settledTickets (log ++ [.completed ticket .stale]) = settledTickets log := by
  simp [settledTickets, List.filterMap_append]

theorem settledTickets_completed (log : List RefreshMark) (ticket : Nat)
    {outcome : RefreshOutcome} (h : outcome ≠ .stale) :
    settledTickets (log ++ [.completed ticket outcome]) = settledTickets log ++ [ticket] := by
  simp [settledTickets, List.filterMap_append, h]

/-! ## The counters and the record -/

/-- Why a refresh that is completed after `before` has the outcome that it has. -/
structure Explained (before : List RefreshMark) (ticket : Nat) (outcome : RefreshOutcome) :
    Prop where
  stale_iff : outcome = .stale ↔
    newestTicket? before ≠ some ticket ∨ ticket ∈ settledTickets before
  generation : ∀ g, outcome = .applied g → g = 1 + appliedCount before

/-- The counters of the controller say what is to be known of the record. -/
structure Tracks (log : List RefreshMark) (c : Controller) : Prop where
  issued : issuedTickets log = List.range' 1 c.issued
  increasing : (settledTickets log).Pairwise (· < ·)
  settled_le : ∀ ticket ∈ settledTickets log, ticket ≤ c.completed
  completed_settled : c.completed = 0 ∨ c.completed ∈ settledTickets log
  completed_le : c.completed ≤ c.issued
  generation : c.view.generation = appliedCount log
  explained : ∀ before ticket outcome later,
    log = before ++ .completed ticket outcome :: later → Explained before ticket outcome

theorem Tracks.start (metrics : Metrics Float32) : Tracks [] (Controller.start metrics) where
  issued := rfl
  increasing := List.Pairwise.nil
  settled_le := by simp [settledTickets]
  completed_settled := Or.inl rfl
  completed_le := Nat.le_refl _
  generation := rfl
  explained := by simp

theorem Tracks.of_sameView {log : List RefreshMark} {c d : Controller} (h : Tracks log c)
    (hsame : SameView c d) : Tracks log d where
  issued := by rw [hsame.issued]; exact h.issued
  increasing := h.increasing
  settled_le := by rw [hsame.completed]; exact h.settled_le
  completed_settled := by rw [hsame.completed]; exact h.completed_settled
  completed_le := by rw [hsame.completed, hsame.issued]; exact h.completed_le
  generation := by rw [hsame.view]; exact h.generation
  explained := h.explained

theorem Tracks.mem_issued_iff {log : List RefreshMark} {c : Controller} (h : Tracks log c)
    (ticket : Nat) : .issued ticket ∈ log ↔ 1 ≤ ticket ∧ ticket ≤ c.issued := by
  rw [← mem_issuedTickets, h.issued, List.mem_range'_1]
  omega

theorem Tracks.newestTicket?_eq {log : List RefreshMark} {c : Controller} (h : Tracks log c)
    (hpos : 1 ≤ c.issued) : newestTicket? log = some c.issued := by
  obtain ⟨n, hn⟩ : ∃ n, c.issued = n + 1 := ⟨c.issued - 1, by omega⟩
  rw [newestTicket?, h.issued, hn, List.range'_concat]
  simp [Nat.add_comm]

/-- The test of the controller against the record. -/
theorem Tracks.isStale_iff {log : List RefreshMark} {c : Controller} (h : Tracks log c)
    {ticket : Nat} (hticket : .issued ticket ∈ log) :
    c.isStale ticket = true ↔ newestTicket? log ≠ some ticket ∨ ticket ∈ settledTickets log := by
  obtain ⟨hpos, hle⟩ := (h.mem_issued_iff ticket).mp hticket
  have hcompleted := h.completed_le
  rw [h.newestTicket?_eq (by omega)]
  simp only [isStale, Bool.or_eq_true, decide_eq_true_eq, ne_eq, Option.some.injEq]
  constructor
  · intro hstale
    by_cases hnewest : c.issued = ticket
    · have heq : c.completed = ticket := by omega
      rcases h.completed_settled with hzero | hmem
      · omega
      · exact Or.inr (heq ▸ hmem)
    · exact Or.inl hnewest
  · rintro (hnewest | hmem)
    · omega
    · exact Or.inr (h.settled_le ticket hmem)

/-! ## What each step does to the record -/

theorem Tracks.explained_concat {log : List RefreshMark} {c : Controller} (h : Tracks log c)
    {mark : RefreshMark}
    (hmark : ∀ ticket outcome, mark = .completed ticket outcome → Explained log ticket outcome) :
    ∀ before ticket outcome later,
      log ++ [mark] = before ++ .completed ticket outcome :: later →
        Explained before ticket outcome := by
  intro before ticket outcome later hlog
  rcases concat_eq_append_cons hlog with ⟨rfl, hlast⟩ | ⟨rest, hrest⟩
  · exact hmark ticket outcome hlast
  · exact h.explained before ticket outcome rest hrest

theorem Tracks.beginRefresh {log : List RefreshMark} {c : Controller} (h : Tracks log c) :
    Tracks (log ++ [.issued c.beginRefresh.1]) c.beginRefresh.2 where
  issued := by
    rw [issuedTickets_issued, h.issued]
    simp [Controller.beginRefresh, List.range'_concat, Nat.add_comm]
  increasing := by rw [settledTickets_issued]; exact h.increasing
  settled_le := by rw [settledTickets_issued]; exact h.settled_le
  completed_settled := by rw [settledTickets_issued]; exact h.completed_settled
  completed_le := Nat.le_succ_of_le h.completed_le
  generation := by
    rw [appliedCount_concat]
    exact h.generation
  explained := h.explained_concat (by simp)

/-- A ticket that is used is newer than all that were used before. -/
theorem Tracks.settle {log : List RefreshMark} {c d : Controller} (h : Tracks log c)
    {ticket : Nat} {outcome : RefreshOutcome} (hticket : .issued ticket ∈ log)
    (hfresh : c.isStale ticket = false) (houtcome : outcome ≠ .stale)
    (hexplained : Explained log ticket outcome)
    (hissued : d.issued = c.issued) (hcompleted : d.completed = ticket)
    (hgeneration : d.view.generation = appliedCount (log ++ [.completed ticket outcome])) :
    Tracks (log ++ [.completed ticket outcome]) d := by
  have hsettled := settledTickets_completed log ticket houtcome
  have hbefore : ∀ earlier ∈ settledTickets log, earlier < ticket := by
    intro earlier hearlier
    have hle := h.settled_le earlier hearlier
    simp only [isStale, Bool.or_eq_false_iff, decide_eq_false_iff_not] at hfresh
    omega
  refine ⟨?_, ?_, ?_, ?_, ?_, hgeneration, ?_⟩
  · rw [issuedTickets_completed, hissued]
    exact h.issued
  · rw [hsettled, List.pairwise_append]
    refine ⟨h.increasing, List.pairwise_singleton _ _, ?_⟩
    intro earlier hearlier last hlast
    rw [List.mem_singleton.mp hlast]
    exact hbefore earlier hearlier
  · intro used hused
    rw [hsettled, List.mem_append, List.mem_singleton] at hused
    rw [hcompleted]
    rcases hused with hused | rfl
    · exact Nat.le_of_lt (hbefore used hused)
    · exact Nat.le_refl _
  · rw [hsettled, hcompleted]
    exact Or.inr (by simp)
  · rw [hcompleted, hissued]
    exact ((h.mem_issued_iff ticket).mp hticket).2
  · apply h.explained_concat
    intro ticket' outcome' hmark
    cases hmark
    exact hexplained

/-- An outcome other than stale or applied, at a ticket that is not stale, needs no more reasons. -/
theorem Tracks.explained_of_fresh {log : List RefreshMark} {c : Controller} (h : Tracks log c)
    {ticket : Nat} {outcome : RefreshOutcome} (hticket : .issued ticket ∈ log)
    (hfresh : c.isStale ticket = false) (houtcome : outcome ≠ .stale)
    (hgeneration : ∀ g, outcome = .applied g → g = 1 + appliedCount log) :
    Explained log ticket outcome := by
  refine ⟨?_, hgeneration⟩
  rw [← h.isStale_iff hticket, hfresh]
  simp [houtcome]

theorem Tracks.completeRefresh {log : List RefreshMark} {c : Controller} (h : Tracks log c)
    {ticket : Nat} (hticket : .issued ticket ∈ log) (answer : Except AnalyzerError Snapshot) :
    Tracks (log ++ [.completed ticket (c.completeRefresh ticket answer).1])
      (c.completeRefresh ticket answer).2 := by
  rcases completeRefresh_cases c ticket answer with
    ⟨hstale, heq⟩ | ⟨hfresh, error, -, heq⟩ | ⟨hfresh, -, heq⟩ | ⟨hfresh, snapshot, -, -, heq⟩
  · rw [heq]
    refine ⟨?_, ?_, ?_, ?_, h.completed_le, ?_, ?_⟩
    · rw [issuedTickets_completed]; exact h.issued
    · rw [settledTickets_stale]; exact h.increasing
    · rw [settledTickets_stale]; exact h.settled_le
    · rw [settledTickets_stale]; exact h.completed_settled
    · rw [appliedCount_concat]; exact h.generation
    · apply h.explained_concat
      intro ticket' outcome' hmark
      cases hmark
      refine ⟨?_, by simp⟩
      simpa using (h.isStale_iff hticket).mp hstale
  · rw [heq]
    refine h.settle hticket hfresh (by simp) ?_ rfl rfl ?_
    · exact h.explained_of_fresh hticket hfresh (by simp) (by simp)
    · rw [appliedCount_concat]; exact h.generation
  · rw [heq]
    refine h.settle hticket hfresh (by simp) ?_ rfl rfl ?_
    · exact h.explained_of_fresh hticket hfresh (by simp) (by simp)
    · rw [appliedCount_concat]; exact h.generation
  · rw [heq]
    have hnext : c.view.generation + 1 = 1 + appliedCount log := by
      rw [h.generation, Nat.add_comm]
    refine h.settle hticket hfresh (by simp [applyView]) ?_ rfl rfl ?_
    · refine h.explained_of_fresh hticket hfresh (by simp [applyView]) ?_
      intro g hg
      cases hg
      exact hnext
    · rw [appliedCount_concat, Nat.add_comm]
      exact hnext

/-- One operation adds its marks to the record and keeps the counters true to it. -/
theorem Tracks.perform {log : List RefreshMark} {c : Controller} (h : Tracks log c)
    (op : Operation)
    (hticket : ∀ ticket answer, op = .completeRefresh ticket answer → .issued ticket ∈ log) :
    Tracks (log ++ c.refreshMarks op) (c.perform op).2 := by
  cases hop : op.isRefresh with
  | false =>
      rw [refreshMarks_eq_nil c hop, List.append_nil]
      exact h.of_sameView (perform_sameView c hop)
  | true =>
      cases op with
      | beginRefresh => exact h.beginRefresh
      | completeRefresh ticket answer =>
          exact h.completeRefresh (hticket ticket answer rfl) answer
      | applySnapshot snapshot =>
          have hissued : .issued c.beginRefresh.1 ∈ log ++ [.issued c.beginRefresh.1] := by simp
          have hcompleted := h.beginRefresh.completeRefresh hissued (.ok snapshot)
          rw [List.append_assoc] at hcompleted
          exact hcompleted
      | _ => cases hop

theorem tracks_after {metrics : Metrics Float32} {ops : List Operation}
    (h : (start metrics).TicketsIssued ops) :
    Tracks ((start metrics).refreshLog ops) ((start metrics).after ops) := by
  induction ops using List.reverseRecOn with
  | nil => exact Tracks.start metrics
  | append_singleton ops op ih =>
      rw [refreshLog_concat, after_append]
      refine (ih h.of_append).perform op ?_
      rintro ticket answer rfl
      exact h.last

/-- A refresh that waits for its analyzer while `meanwhile` happens, as a part of a run. -/
theorem refresh_after {ω : Type} (analyzer : Analyzer ω) (s : Session ω)
    {metrics : Metrics Float32} {ops meanwhile : List Operation}
    (hs : s.controller = (start metrics).after ops)
    (honline : s.controller.status.backendOnline = true)
    (hmeanwhile : (analyzer.fetch s.refreshing).2.controller =
      s.refreshing.controller.after meanwhile) :
    let waited := ops ++ .beginRefresh :: meanwhile
    let ticket := s.controller.beginRefresh.1
    let whole := waited ++ [.completeRefresh ticket (analyzer.fetch s.refreshing).1]
    (Session.refresh analyzer s).2.controller = (start metrics).after whole ∧
      (start metrics).refreshLog whole =
        (start metrics).refreshLog waited ++ [.completed ticket (Session.refresh analyzer s).1] ∧
      ((start metrics).TicketsIssued waited → (start metrics).TicketsIssued whole) := by
  intro waited ticket whole
  have hwaited : (analyzer.fetch s.refreshing).2.controller = (start metrics).after waited := by
    rw [hmeanwhile, after_append, ← hs]
    rfl
  have hissued : .issued ticket ∈ (start metrics).refreshLog waited := by
    simp [waited, ticket, refreshLog_append, refreshLog, refreshMarks, ← hs]
  rw [Session.refresh_online analyzer s honline]
  refine ⟨?_, ?_, ?_⟩
  · rw [after_append, ← hwaited]
    rfl
  · rw [refreshLog_concat, ← hwaited]
    rfl
  · intro hticket
    refine hticket.concat ?_
    intro ticket' answer' hop
    cases hop
    exact hissued

/--
A refresh is found stale exactly when its ticket is not the newest one or was used
before, whatever happens in between. So no ticket is used twice, tickets are used in
the order in which they were issued, and every new view has the next generation.
A refresh through an analyzer is such a run, with anything done while it waits.
-/
theorem refresh_stale_iff_superseded_or_settled (metrics : Metrics Float32)
    (ops : List Operation) (h : (start metrics).TicketsIssued ops) :
    let log := (start metrics).refreshLog ops
    let c := (start metrics).after ops
    (∀ before ticket outcome later, log = before ++ .completed ticket outcome :: later →
      (outcome = .stale ↔
        newestTicket? before ≠ some ticket ∨ ticket ∈ settledTickets before)) ∧
    c.completed ≤ c.issued ∧
    (settledTickets log).Pairwise (· < ·) ∧
    (settledTickets log).Nodup ∧
    (∀ before ticket generation later,
      log = before ++ .completed ticket (.applied generation) :: later →
        generation = 1 + appliedCount before) ∧
    (∀ {ω : Type} (analyzer : Analyzer ω) (s : Session ω), s.controller = c →
      (c.status.backendOnline = false → Session.refresh analyzer s = (.skipped, s)) ∧
      (c.status.backendOnline = true → ∀ meanwhile,
        (analyzer.fetch s.refreshing).2.controller = s.refreshing.controller.after meanwhile →
        let waited := ops ++ .beginRefresh :: meanwhile
        let ticket := c.beginRefresh.1
        let whole := waited ++ [.completeRefresh ticket (analyzer.fetch s.refreshing).1]
        (Session.refresh analyzer s).2.controller = (start metrics).after whole ∧
          (start metrics).refreshLog whole = (start metrics).refreshLog waited ++
            [.completed ticket (Session.refresh analyzer s).1] ∧
          ((start metrics).TicketsIssued waited → (start metrics).TicketsIssued whole))) := by
  intro log c
  have htracks : Tracks log c := tracks_after h
  refine ⟨?_, htracks.completed_le, htracks.increasing, ?_, ?_, ?_⟩
  · intro before ticket outcome later hlog
    exact (htracks.explained before ticket outcome later hlog).stale_iff
  · exact htracks.increasing.imp fun hlt => Nat.ne_of_lt hlt
  · intro before ticket generation later hlog
    exact (htracks.explained before ticket _ later hlog).generation generation rfl
  · intro ω analyzer s hs
    rw [← hs]
    exact ⟨Session.refresh_offline analyzer s,
      fun honline meanwhile => refresh_after analyzer s hs honline⟩

/-- Two refreshes at once: the older ticket comes too late, and the newer one is used twice. -/
def racingRefreshes : List Operation :=
  [.setStatus ⟨true, true⟩, .beginRefresh, .beginRefresh, .completeRefresh 1 (.ok {}),
    .completeRefresh 2 (.error (.notFound "a")), .completeRefresh 2 (.ok {}),
    .applySnapshot { nodes := [{ id := "a" }] }]

/-- An analyzer during whose answer another refresh begins. -/
def overtakenAnalyzer : Analyzer Unit where
  health := pure ⟨true, true⟩
  fetch := do
    let _ ← Session.perform .beginRefresh
    return .ok {}
  read _ := pure (.error (.notFound ""))

theorem racingRefreshes_ticketsIssued :
    (start Metrics.standard).TicketsIssued racingRefreshes := by
  refine TicketsIssued.concat (TicketsIssued.concat (TicketsIssued.concat (TicketsIssued.concat
    (TicketsIssued.concat (TicketsIssued.concat (TicketsIssued.concat (TicketsIssued.nil _)
      ?_) ?_) ?_) ?_) ?_) ?_) ?_
  all_goals
    intro ticket answer hop
    cases hop
  · exact List.mem_cons_self
  · exact List.mem_cons_of_mem _ List.mem_cons_self
  · exact List.mem_cons_of_mem _ List.mem_cons_self

/-- The record of the two refreshes, and a third one that is overtaken while it waits. -/
theorem racingRefreshes_outcomes :
    let log := (start Metrics.standard).refreshLog racingRefreshes
    let c := (start Metrics.standard).after racingRefreshes
    (start Metrics.standard).TicketsIssued racingRefreshes ∧
    log = [.issued 1, .issued 2, .completed 1 .stale, .completed 2 (.failed (.notFound "a")),
      .completed 2 .stale, .issued 3, .completed 3 (.applied 1)] ∧
    (settledTickets log).Pairwise (· < ·) ∧
    (newestTicket? (log.take 2) ≠ some 1 ∨ 1 ∈ settledTickets (log.take 2)) ∧
    (newestTicket? (log.take 4) ≠ some 2 ∨ 2 ∈ settledTickets (log.take 4)) ∧
    1 = 1 + appliedCount (log.take 6) ∧
    (Session.refresh overtakenAnalyzer ⟨c, ()⟩).1 = .stale ∧
    (Session.refresh overtakenAnalyzer ⟨c, ()⟩).2.controller =
      (start Metrics.standard).after (racingRefreshes ++
        [.beginRefresh, .beginRefresh, .completeRefresh 4 (.ok {})]) := by
  intro log c
  have h := refresh_stale_iff_superseded_or_settled Metrics.standard racingRefreshes
    racingRefreshes_ticketsIssued
  have hrefresh := (h.2.2.2.2.2 overtakenAnalyzer ⟨c, ()⟩ rfl).2 rfl [.beginRefresh] rfl
  refine ⟨racingRefreshes_ticketsIssued, rfl, h.2.2.1, ?_, ?_, ?_, rfl, hrefresh.1⟩
  · exact (h.1 (log.take 2) 1 .stale (log.drop 3) rfl).mp rfl
  · exact (h.1 (log.take 4) 2 .stale (log.drop 5) rfl).mp rfl
  · exact h.2.2.2.2.1 (log.take 6) 3 1 [] rfl

end CodeAtlas.Controller
