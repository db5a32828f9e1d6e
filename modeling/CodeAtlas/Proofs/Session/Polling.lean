import CodeAtlas.Proofs.Controller.Run
import CodeAtlas.Session.Poller

/-! # Polling never asks an analyzer that was last seen offline

The two timers may go off in any order: a run is any list of turns. What the controller
believes about the analyzer is at every turn what the last health call answered, and
offline before the first one. So a snapshot is fetched only after a health call that said
the analyzer is there. The poller's own rounds are such a list of turns, and they last
until it is time to stop.
-/

namespace CodeAtlas

open Controller (Operation)

/-! ## Operations that run during a call -/

/-- Does the operation say whether the analyzer is there? -/
def Controller.Operation.setsStatus : Operation → Bool
  | .setStatus _ => true
  | _ => false

theorem Controller.status_setStatus (c : Controller) (health : Health) :
    (c.setStatus health).status = health := by
  unfold setStatus
  split
  · assumption
  · rfl

theorem Controller.status_completeRefresh (c : Controller) (ticket : Nat)
    (answer : Except AnalyzerError Snapshot) :
    (c.completeRefresh ticket answer).2.status = c.status := by
  rcases completeRefresh_cases c ticket answer with
    ⟨-, heq⟩ | ⟨-, error, -, heq⟩ | ⟨-, -, heq⟩ | ⟨-, snapshot, -, -, heq⟩ <;>
  · rw [heq]
    rfl

theorem Controller.status_perform (c : Controller) {op : Operation} (h : op.setsStatus = false) :
    (c.perform op).2.status = c.status := by
  cases op with
  | setStatus health => cases h
  | completeRefresh ticket answer => exact status_completeRefresh c ticket answer
  | applySnapshot snapshot =>
      exact status_completeRefresh c.beginRefresh.2 c.beginRefresh.1 (.ok snapshot)
  | completeContent ticket answer =>
      simp only [perform, completeContent, Prod.map, id]
      split <;> rfl
  | _ => rfl

/-- The calls so far, and how many of them the world has counted as health calls. -/
def World.log (w : World) : List Call × Nat :=
  (w.calls, w.healthCalls)

theorem World.log_noteTicket (w : World) (op : Operation) (answer : Controller.Answer) :
    (w.noteTicket op answer).2.log = w.log := by
  unfold noteTicket
  split <;> rfl

theorem World.setsStatus_resolve? {w : World} {op resolved : Operation}
    (h : w.resolve? op = some resolved) : resolved.setsStatus = op.setsStatus := by
  unfold resolve? at h
  split at h
  · obtain ⟨ticket, -, rfl⟩ := Option.map_eq_some_iff.1 h
    rfl
  · obtain ⟨ticket, -, rfl⟩ := Option.map_eq_some_iff.1 h
    rfl
  · cases h
    rfl

namespace ScriptM

theorem perform_of_none {op : Operation} {s : Session World} (h : s.world.resolve? op = none) :
    perform op s = (none, s) := by
  simp only [perform, bind, StateT.bind, get, getThe, MonadStateOf.get, StateT.get, pure, h]
  rfl

theorem perform_of_some {op resolved : Operation} {s : Session World}
    (h : s.world.resolve? op = some resolved) :
    (perform op s).2 =
      ⟨(s.controller.perform resolved).2,
        (s.world.noteTicket op (s.controller.perform resolved).1).2⟩ := by
  simp only [perform, bind, StateT.bind, get, getThe, MonadStateOf.get, StateT.get, pure, h]
  rfl

theorem log_perform (op : Operation) (s : Session World) :
    (perform op s).2.world.log = s.world.log := by
  cases h : s.world.resolve? op with
  | none => rw [perform_of_none h]
  | some resolved =>
      rw [perform_of_some h]
      exact World.log_noteTicket s.world op _

theorem status_perform {op : Operation} (hop : op.setsStatus = false) (s : Session World) :
    (perform op s).2.controller.status = s.controller.status := by
  cases h : s.world.resolve? op with
  | none => rw [perform_of_none h]
  | some resolved =>
      rw [perform_of_some h]
      apply Controller.status_perform
      rw [World.setsStatus_resolve? h, hop]

/-- No operation that runs during a call calls the analyzer. -/
theorem log_performAsides (ops : List (Option Operation)) (s : Session World) :
    (performAsides ops s).2.world.log = s.world.log := by
  induction ops generalizing s with
  | nil => rfl
  | cons op ops ih =>
      cases op with
      | none => exact ih _
      | some op => exact (ih _).trans (log_perform op s)

theorem status_performAsides (ops : List (Option Operation))
    (h : ∀ op, some op ∈ ops → op.setsStatus = false) (s : Session World) :
    (performAsides ops s).2.controller.status = s.controller.status := by
  induction ops generalizing s with
  | nil => rfl
  | cons op ops ih =>
      have hops : ∀ op, some op ∈ ops → op.setsStatus = false :=
        fun op hmem => h op (List.mem_cons_of_mem _ hmem)
      cases op with
      | none => exact ih hops _
      | some op => exact (ih hops _).trans (status_perform (h op List.mem_cons_self) s)

end ScriptM

/-! ## What was heard -/

namespace Script

/-- Whatever runs while a snapshot is fetched leaves it to the health calls to say what is there. -/
def LeavesStatus (script : Script) : Prop :=
  ∀ reply ∈ script.snapshots, ∀ op, some op ∈ reply.during → op.setsStatus = false

theorem mem_or_eq_nth {α : Type} (replies : List (Reply α)) (n : Nat) (otherwise : α) :
    nth replies n otherwise ∈ replies ∨ nth replies n otherwise = { answer := otherwise } := by
  unfold nth
  cases hn : replies[n]? with
  | some reply => exact .inl (List.mem_of_getElem? hn)
  | none =>
      cases hlast : replies.getLast? with
      | some reply => exact .inl (List.mem_of_getLast? hlast)
      | none => exact .inr rfl

theorem LeavesStatus.nth {script : Script} (h : script.LeavesStatus) (n : Nat)
    (otherwise : Except AnalyzerError Snapshot) (op : Operation)
    (hop : some op ∈ (Script.nth script.snapshots n otherwise).during) :
    op.setsStatus = false := by
  rcases mem_or_eq_nth script.snapshots n otherwise with hmem | heq
  · exact h _ hmem op hop
  · rw [heq] at hop
    cases hop

/-- The answer to the last health call among the calls. -/
def lastHealth? (script : Script) (calls : List Call) : Option Health :=
  match calls.countP (·.kind == .health) with
  | 0 => none
  | n + 1 => some (nth script.health n Health.offline).answer

/-- Has the analyzer been asked for its health, and was it there the last time? -/
def seenOnline (script : Script) (calls : List Call) : Bool :=
  (script.lastHealth? calls).any (·.backendOnline)

theorem lastHealth?_concat_health (script : Script) (calls : List Call) (time : Nat) :
    script.lastHealth? (calls ++ [⟨time, .health⟩]) =
      some (nth script.health (calls.countP (·.kind == .health)) Health.offline).answer := by
  simp only [lastHealth?, List.countP_append]
  rfl

theorem lastHealth?_concat_snapshot (script : Script) (calls : List Call) (time : Nat) :
    script.lastHealth? (calls ++ [⟨time, .snapshot⟩]) = script.lastHealth? calls := by
  simp only [lastHealth?, List.countP_append]
  rfl

/-- Each snapshot was fetched after a health call, the last of which found the analyzer there. -/
def FetchesSeenOnline (script : Script) (calls : List Call) : Prop :=
  ∀ before call later, calls = before ++ call :: later → call.kind = .snapshot →
    script.seenOnline before = true

theorem FetchesSeenOnline.concat {script : Script} {calls : List Call} {call : Call}
    (h : script.FetchesSeenOnline calls)
    (hcall : call.kind = .snapshot → script.seenOnline calls = true) :
    script.FetchesSeenOnline (calls ++ [call]) := by
  intro before fetch later heq hfetch
  rcases List.eq_nil_or_concat later with rfl | ⟨rest, final, rfl⟩
  · obtain ⟨rfl, hlast⟩ := List.append_inj' heq rfl
    cases hlast
    exact hcall hfetch
  · have hsplit : calls ++ [call] = (before ++ fetch :: rest) ++ [final] := by
      simpa using heq
    obtain ⟨hcalls, -⟩ := List.append_inj' hsplit rfl
    exact h before fetch rest hcalls hfetch

end Script

/-! ## Turns in any order -/

namespace Poller

def takeTurn (script : Script) (s : Session World) : Turn → Session World
  | .stop => s
  | .health => (Session.checkHealth script.analyzer s).2
  | .snapshot => (Session.refresh script.analyzer s).2
  | .wait time => { s with world := { s.world with now := time } }

def afterTurns (script : Script) : Session World → List Turn → Session World
  | s, [] => s
  | s, t :: turns => afterTurns script (takeTurn script s t) turns

/-- The session in which nothing has happened yet. -/
def freshSession (metrics : Metrics Float32) : Session World :=
  ⟨Controller.start metrics, {}⟩

/-- The controller believes what was last heard, and has fetched only when that was good news. -/
structure Informed (script : Script) (s : Session World) : Prop where
  counted : s.world.healthCalls = s.world.calls.countP (·.kind == .health)
  believed : s.controller.status = (script.lastHealth? s.world.calls).getD Health.offline
  fetched : script.FetchesSeenOnline s.world.calls

theorem Informed.start (script : Script) (metrics : Metrics Float32) :
    Informed script (freshSession metrics) where
  counted := rfl
  believed := rfl
  fetched := by
    intro before call later heq
    simp [freshSession] at heq

theorem Informed.backendOnline {script : Script} {s : Session World} (h : Informed script s) :
    s.controller.status.backendOnline = script.seenOnline s.world.calls := by
  rw [h.believed, Script.seenOnline]
  cases script.lastHealth? s.world.calls <;> rfl

theorem log_checkHealth (script : Script) (s : Session World) :
    (takeTurn script s .health).world.log =
      (s.world.calls ++ [⟨s.world.now, .health⟩], s.world.healthCalls + 1) :=
  ScriptM.log_performAsides _ _

theorem status_checkHealth (script : Script) (s : Session World) :
    (takeTurn script s .health).controller.status =
      (Script.nth script.health s.world.healthCalls Health.offline).answer :=
  Controller.status_setStatus _ _

theorem log_refresh (script : Script) {s : Session World}
    (h : s.controller.status.backendOnline = true) :
    (takeTurn script s .snapshot).world.log =
      (s.world.calls ++ [⟨s.world.now, .snapshot⟩], s.world.healthCalls) := by
  unfold takeTurn
  rw [Session.refresh_online _ _ h]
  exact ScriptM.log_performAsides _ _

theorem status_refresh {script : Script} (hscript : script.LeavesStatus) {s : Session World}
    (h : s.controller.status.backendOnline = true) :
    (takeTurn script s .snapshot).controller.status = s.controller.status := by
  unfold takeTurn
  rw [Session.refresh_online _ _ h]
  refine (Controller.status_completeRefresh _ _ _).trans ?_
  exact ScriptM.status_performAsides _ (hscript.nth _ _) _

/-- A turn keeps the controller informed. -/
theorem Informed.takeTurn {script : Script} (hscript : script.LeavesStatus) {s : Session World}
    (h : Informed script s) (t : Turn) : Informed script (takeTurn script s t) := by
  cases t with
  | stop => exact h
  | wait time => exact ⟨h.counted, h.believed, h.fetched⟩
  | health =>
      -- The call's number is the count of those before it, so its answer is the last one heard.
      obtain ⟨hcalls, hcount⟩ := Prod.mk.inj (log_checkHealth script s)
      refine ⟨?_, ?_, ?_⟩
      · rw [hcalls, hcount, h.counted, List.countP_append]
        rfl
      · rw [hcalls, status_checkHealth, Script.lastHealth?_concat_health, h.counted]
        rfl
      · rw [hcalls]
        exact h.fetched.concat nofun
  | snapshot =>
      cases honline : s.controller.status.backendOnline with
      | false =>
          rw [Poller.takeTurn, Session.refresh_offline _ _ honline]
          exact h
      | true =>
          obtain ⟨hcalls, hcount⟩ := Prod.mk.inj (log_refresh script honline)
          refine ⟨?_, ?_, ?_⟩
          · rw [hcalls, hcount, h.counted, List.countP_append]
            rfl
          · rw [hcalls, status_refresh hscript honline, Script.lastHealth?_concat_snapshot]
            exact h.believed
          · rw [hcalls]
            exact h.fetched.concat fun _ => h.backendOnline.symm.trans honline

theorem Informed.afterTurns {script : Script} (hscript : script.LeavesStatus) (turns : List Turn)
    {s : Session World} (h : Informed script s) : Informed script (afterTurns script s turns) := by
  induction turns generalizing s with
  | nil => exact h
  | cons t turns ih => exact ih (h.takeTurn hscript t)

/-! ## The poller's own order -/

end Poller

/-- The timers after a turn that was taken at the given time. -/
def Timers.after (settings : PollSettings) (now : Nat) (timers : Timers) : Poller.Turn → Timers
  | .health => { timers with health := next now timers.health settings.healthInterval }
  | .snapshot => { timers with snapshot := next now timers.snapshot settings.snapshotInterval }
  | _ => timers

namespace Poller

/-- The turns that the poller takes. -/
def turnsTaken (script : Script) (settings : PollSettings) (finish : Nat) :
    Nat → Timers → Session World → List Turn
  | 0, _, _ => []
  | fuel + 1, timers, s =>
    match turn finish timers s.world.now with
    | .stop => []
    | t => t :: turnsTaken script settings finish fuel (timers.after settings s.world.now t)
        (takeTurn script s t)

variable (script : Script) (settings : PollSettings) (finish : Nat)

theorem rounds_of_stop {fuel : Nat} {timers : Timers} {s : Session World}
    (h : turn finish timers s.world.now = .stop) :
    rounds script settings finish (fuel + 1) timers s = ((), s) := by
  simp only [rounds, bind, StateT.bind, get, getThe, MonadStateOf.get, StateT.get, pure, h]
  rfl

theorem rounds_of_turn {fuel : Nat} {timers : Timers} {s : Session World} {t : Turn}
    (h : turn finish timers s.world.now = t) (ht : t ≠ .stop) :
    rounds script settings finish (fuel + 1) timers s =
      rounds script settings finish fuel (timers.after settings s.world.now t)
        (takeTurn script s t) := by
  cases t with
  | stop => exact absurd rfl ht
  | _ =>
      simp only [rounds, bind, StateT.bind, get, getThe, MonadStateOf.get, StateT.get, pure, h]
      rfl

theorem rounds_eq_afterTurns (fuel : Nat) (timers : Timers) (s : Session World) :
    (rounds script settings finish fuel timers s).2 =
      afterTurns script s (turnsTaken script settings finish fuel timers s) := by
  induction fuel generalizing timers s with
  | zero => rfl
  | succ fuel ih =>
      cases ht : turn finish timers s.world.now with
      | stop =>
          rw [rounds_of_stop script settings finish ht]
          simp only [turnsTaken, ht]
          rfl
      | _ =>
          rw [rounds_of_turn script settings finish ht nofun, ih]
          simp only [turnsTaken, ht]
          rfl

/-! ## The rounds suffice -/

theorem lt_next (now due ms : Nat) : due < Timers.next now due (max ms 1) := by
  unfold Timers.next
  split <;> omega

/-- What a turn says about the timers and the time. -/
theorem turn_spec (timers : Timers) (now : Nat) :
    match turn finish timers now with
    | .stop => finish ≤ now
    | .health => timers.health ≤ now ∧ now < finish
    | .snapshot => timers.snapshot ≤ now ∧ now < finish
    | .wait time => time = min finish (min timers.health timers.snapshot) := by
  fun_cases turn finish timers now with
  | case1 hstop => exact hstop
  | case2 hstop hhealth => exact ⟨hhealth, Nat.lt_of_not_le hstop⟩
  | case3 hstop _ hsnapshot => exact ⟨hsnapshot, Nat.lt_of_not_le hstop⟩
  | case4 => rfl

/-- The rounds that are left after the timers have gone off for the last time. -/
def Turn.endRounds : Turn → Nat
  | .wait _ => 2
  | _ => 1

theorem Turn.endRounds_pos (t : Turn) : 0 < t.endRounds := by
  cases t <;> simp [endRounds]

theorem Turn.endRounds_le (t : Turn) : t.endRounds ≤ 2 := by
  cases t <;> simp [endRounds]

/-- After a wait a timer is due, or it is time to stop. -/
theorem endRounds_after_wait {timers : Timers} {now time : Nat}
    (h : turn finish timers now = .wait time) : (turn finish timers time).endRounds = 1 := by
  have htime := turn_spec finish timers now
  rw [h] at htime
  fun_cases turn finish timers time with
  | case1 => rfl
  | case2 => rfl
  | case3 => rfl
  | case4 hstop hhealth hsnapshot =>
      change time = _ at htime
      omega

/-- As many rounds as can be left: each timer goes off at most once a millisecond, after a wait. -/
def roundsLeft (timers : Timers) (now : Nat) : Nat :=
  2 * ((finish - timers.health) + (finish - timers.snapshot)) + (turn finish timers now).endRounds

/-- A turn uses up one of the rounds that are left, however long its call takes. -/
theorem roundsLeft_after {timers : Timers} {now later : Nat} {t : Turn}
    (h : turn finish timers now = t) (ht : t ≠ .stop) (hlater : ∀ time, t = .wait time → later = time) :
    roundsLeft finish (timers.after settings now t) later < roundsLeft finish timers now := by
  have hspec := turn_spec finish timers now
  have hend := (turn finish (timers.after settings now t) later).endRounds_le
  rw [h] at hspec
  unfold roundsLeft
  rw [h]
  cases t with
  | stop => exact absurd rfl ht
  | health =>
      obtain ⟨hdue, hfinish⟩ := hspec
      have hnext : timers.health < (timers.after settings now .health).health := lt_next ..
      have hsame : (timers.after settings now .health).snapshot = timers.snapshot := rfl
      have hpos := Turn.health.endRounds_pos
      omega
  | snapshot =>
      obtain ⟨hdue, hfinish⟩ := hspec
      have hnext : timers.snapshot < (timers.after settings now .snapshot).snapshot := lt_next ..
      have hsame : (timers.after settings now .snapshot).health = timers.health := rfl
      have hpos := Turn.snapshot.endRounds_pos
      omega
  | wait time =>
      cases hlater time rfl
      have hone : (turn finish (timers.after settings now (.wait later)) later).endRounds = 1 :=
        endRounds_after_wait finish h
      rw [hone]
      exact Nat.lt_succ_self _

-- On the fuel: each round leaves fewer rounds than it found, so the fuel outlasts them.
theorem finish_le_now_rounds (fuel : Nat) (timers : Timers) (s : Session World)
    (h : roundsLeft finish timers s.world.now ≤ fuel) :
    finish ≤ (rounds script settings finish fuel timers s).2.world.now := by
  induction fuel generalizing timers s with
  | zero =>
      have hpos := (turn finish timers s.world.now).endRounds_pos
      unfold roundsLeft at h
      omega
  | succ fuel ih =>
      by_cases hstop : turn finish timers s.world.now = .stop
      · have hspec := turn_spec finish timers s.world.now
        rw [hstop] at hspec
        rw [rounds_of_stop script settings finish hstop]
        exact hspec
      · rw [rounds_of_turn script settings finish rfl hstop]
        apply ih
        have hless := roundsLeft_after settings finish rfl hstop fun time ht =>
          show (takeTurn script s (turn finish timers s.world.now)).world.now = time by rw [ht]; rfl
        omega

/-- The limit on the rounds never cuts polling short. -/
theorem finish_le_now_run (metrics : Metrics Float32) :
    finish ≤ (run script settings metrics finish).world.now := by
  apply finish_le_now_rounds
  have hend := (turn finish {} 0).endRounds_le
  show 2 * (finish + finish) + (turn finish {} 0).endRounds ≤ 4 * finish + 2
  omega

/-! ## Only an analyzer that was seen is asked -/

/--
In every order of turns, each fetch comes after a health call, the last of which found the
analyzer there. A snapshot turn fetches if that was the last news, and otherwise does
nothing. The poller's run is such an order of turns and reaches its end.
-/
theorem fetches_iff_last_seen_online (script : Script) (hscript : script.LeavesStatus)
    (metrics : Metrics Float32) :
    (∀ turns : List Turn,
      script.FetchesSeenOnline (afterTurns script (freshSession metrics) turns).world.calls) ∧
    (∀ turns : List Turn,
      let s := afterTurns script (freshSession metrics) turns
      (script.seenOnline s.world.calls = false →
        Session.refresh script.analyzer s = (.skipped, s)) ∧
      (script.seenOnline s.world.calls = true →
        (Session.refresh script.analyzer s).2.world.calls =
          s.world.calls ++ [⟨s.world.now, .snapshot⟩])) ∧
    ∀ (settings : PollSettings) (finish : Nat),
      run script settings metrics finish =
        afterTurns script (freshSession metrics)
          (turnsTaken script settings finish (roundLimit finish) {} (freshSession metrics)) ∧
      script.FetchesSeenOnline (run script settings metrics finish).world.calls ∧
      finish ≤ (run script settings metrics finish).world.now := by
  have hinformed := fun turns => (Informed.start script metrics).afterTurns hscript turns
  refine ⟨fun turns => (hinformed turns).fetched, fun turns => ⟨?_, ?_⟩, fun settings finish => ?_⟩
  · intro hseen
    exact Session.refresh_offline _ _ ((hinformed turns).backendOnline.trans hseen)
  · intro hseen
    have honline := (hinformed turns).backendOnline.trans hseen
    exact congrArg Prod.fst (log_refresh script honline)
  · have hrun := rounds_eq_afterTurns script settings finish (roundLimit finish) {}
      (freshSession metrics)
    have hfetched :=
      (hinformed (turnsTaken script settings finish (roundLimit finish) {} (freshSession metrics))).fetched
    rw [← hrun] at hfetched
    exact ⟨hrun, hfetched, finish_le_now_run script settings finish metrics⟩

/-- An analyzer that comes up late and goes away again; another refresh begins while it answers. -/
def flickering : Script where
  health := [⟨⟨false, false⟩, 2, []⟩, ⟨⟨true, false⟩, 0, []⟩, ⟨⟨false, true⟩, 1, []⟩]
  snapshots := [⟨.ok {}, 3, [some .beginRefresh, none]⟩]

/-- The snapshot timer goes off before and after every health call. -/
def flickeringTurns : List Turn :=
  [.snapshot, .health, .snapshot, .wait 7, .health, .snapshot, .snapshot, .health, .snapshot]

theorem flickering_fetched :
    flickering.LeavesStatus ∧
    (afterTurns flickering (freshSession Metrics.standard) flickeringTurns).world.calls =
      [⟨0, .health⟩, ⟨7, .health⟩, ⟨7, .snapshot⟩, ⟨10, .snapshot⟩, ⟨13, .health⟩] ∧
    flickering.FetchesSeenOnline
      [⟨0, .health⟩, ⟨7, .health⟩, ⟨7, .snapshot⟩, ⟨10, .snapshot⟩, ⟨13, .health⟩] := by
  have hleaves : flickering.LeavesStatus := by
    intro reply hreply op hop
    cases List.mem_singleton.1 hreply
    rcases List.mem_cons.1 hop with heq | hmem
    · cases heq
      rfl
    · cases List.mem_singleton.1 hmem
  have hcalls : (afterTurns flickering (freshSession Metrics.standard) flickeringTurns).world.calls =
      [⟨0, .health⟩, ⟨7, .health⟩, ⟨7, .snapshot⟩, ⟨10, .snapshot⟩, ⟨13, .health⟩] := by
    decide +kernel
  have hfetches :=
    (fetches_iff_last_seen_online flickering hleaves Metrics.standard).1 flickeringTurns
  rw [hcalls] at hfetches
  exact ⟨hleaves, hcalls, hfetches⟩

end Poller

end CodeAtlas
