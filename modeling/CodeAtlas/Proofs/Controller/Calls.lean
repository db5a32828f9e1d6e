import CodeAtlas.Proofs.Controller.Run
import CodeAtlas.Session.Script

/-! # Calls as runs

A call that waits for an analyzer begins with one operation and ends with another one,
and whatever is done to the controller in between is done by operations too. So a list
of calls is a run, and what holds after every run holds after all calls.
-/

namespace CodeAtlas

open Controller

variable {ω : Type}

namespace Session

/-- The session after a call, with any analyzer. -/
def act (analyzer : Analyzer ω) (s : Session ω) : Action → Session ω
  | .perform op => (perform op s).2
  | .checkHealth => (checkHealth analyzer s).2
  | .refresh => (refresh analyzer s).2
  | .loadFile path focus => (loadFile analyzer path focus s).2
  | .follow event => (follow analyzer event s).2
  | .followAll => (followAll analyzer s).2

def actAll (analyzer : Analyzer ω) (s : Session ω) : List Action → Session ω
  | [] => s
  | action :: actions => (s.act analyzer action).actAll analyzer actions

/-- The session in which the analyzer is asked for a file. -/
def loading (s : Session ω) (path : String) (focus : Option NodeId) : Session ω :=
  { s with controller := (s.controller.beginContent path focus).2 }

/-- The session in which drained events are followed. -/
def drained (s : Session ω) : Session ω :=
  { s with controller := s.controller.drain.2 }

theorem loadFile_offline (analyzer : Analyzer ω) (s : Session ω) (path : String)
    (focus : Option NodeId) (h : s.controller.status.backendOnline = false) :
    loadFile analyzer path focus s = (false, s) := by
  simp only [loadFile, bind, StateT.bind, get, getThe, MonadStateOf.get, StateT.get, pure, h]
  rfl

theorem loadFile_online (analyzer : Analyzer ω) (s : Session ω) (path : String)
    (focus : Option NodeId) (h : s.controller.status.backendOnline = true) :
    loadFile analyzer path focus s =
      onController (fun c => c.completeContent (s.controller.beginContent path focus).1
        (analyzer.read path (s.loading path focus)).1)
        (analyzer.read path (s.loading path focus)).2 := by
  simp only [loadFile, bind, StateT.bind, get, getThe, MonadStateOf.get, StateT.get, pure, h]
  rfl

end Session

/-- What is done to the controller while the analyzer is asked, as operations. -/
structure Analyzer.Meanwhile (analyzer : Analyzer ω) where
  health : Session ω → List Operation
  fetch : Session ω → List Operation
  read : String → Session ω → List Operation
  after_health : ∀ s, (analyzer.health s).2.controller = s.controller.after (health s)
  after_fetch : ∀ s, (analyzer.fetch s).2.controller = s.controller.after (fetch s)
  after_read : ∀ path s, (analyzer.read path s).2.controller = s.controller.after (read path s)

namespace Analyzer.Meanwhile

variable {analyzer : Analyzer ω} (m : analyzer.Meanwhile) (s : Session ω)

/-! ## The operations of a call -/

def loadOperations (path : String) (focus : Option NodeId) : List Operation :=
  if s.controller.status.backendOnline then
    .beginContent path focus :: m.read path (s.loading path focus) ++
      [.completeContent (s.controller.beginContent path focus).1
        (analyzer.read path (s.loading path focus)).1]
  else []

def refreshOperations : List Operation :=
  if s.controller.status.backendOnline then
    .beginRefresh :: m.fetch s.refreshing ++
      [.completeRefresh s.controller.beginRefresh.1 (analyzer.fetch s.refreshing).1]
  else []

def followOperations : Event → List Operation
  | .openFile path focus => m.loadOperations s path focus
  | .openModule name => [.showModule name]
  | _ => []

def followEachOperations (s : Session ω) : List Event → List Operation
  | [] => []
  | event :: events => m.followOperations s event ++
      followEachOperations (Session.follow analyzer event s).2 events

/-- The operations of which a call consists. -/
def operations : Action → List Operation
  | .perform op => [op]
  | .checkHealth => m.health s ++ [.setStatus (analyzer.health s).1]
  | .refresh => m.refreshOperations s
  | .loadFile path focus => m.loadOperations s path focus
  | .follow event => m.followOperations s event
  | .followAll => .drain :: m.followEachOperations s.drained s.controller.drain.1

/-- The operations of which a list of calls consists. -/
def operationsOf (s : Session ω) : List Action → List Operation
  | [] => []
  | action :: actions => m.operations s action ++ operationsOf (s.act analyzer action) actions

/-! ## Calls do what their operations do -/

theorem after_loadOperations (path : String) (focus : Option NodeId) :
    (Session.loadFile analyzer path focus s).2.controller =
      s.controller.after (m.loadOperations s path focus) := by
  cases honline : s.controller.status.backendOnline with
  | false => simp [Session.loadFile_offline analyzer s path focus honline, loadOperations, honline]
  | true =>
      have hread : (analyzer.read path (s.loading path focus)).2.controller =
          (s.controller.perform (.beginContent path focus)).2.after
            (m.read path (s.loading path focus)) :=
        m.after_read path (s.loading path focus)
      rw [Session.loadFile_online analyzer s path focus honline, loadOperations, if_pos honline,
        List.cons_append, after_cons, after_append, ← hread]
      rfl

theorem after_refreshOperations :
    (Session.refresh analyzer s).2.controller = s.controller.after (m.refreshOperations s) := by
  cases honline : s.controller.status.backendOnline with
  | false => simp [Session.refresh_offline analyzer s honline, refreshOperations, honline]
  | true =>
      have hfetch : (analyzer.fetch s.refreshing).2.controller =
          (s.controller.perform .beginRefresh).2.after (m.fetch s.refreshing) :=
        m.after_fetch s.refreshing
      rw [Session.refresh_online analyzer s honline, refreshOperations, if_pos honline,
        List.cons_append, after_cons, after_append, ← hfetch]
      rfl

theorem after_followOperations (event : Event) :
    (Session.follow analyzer event s).2.controller =
      s.controller.after (m.followOperations s event) := by
  cases event with
  | openFile path focus => exact m.after_loadOperations s path focus
  | _ => rfl

theorem after_followEachOperations (events : List Event) :
    (Session.followEach analyzer events s).2.controller =
      s.controller.after (m.followEachOperations s events) := by
  induction events generalizing s with
  | nil => rfl
  | cons event events ih =>
      rw [followEachOperations, after_append, ← m.after_followOperations]
      exact ih (Session.follow analyzer event s).2

theorem after_operations (action : Action) :
    (s.act analyzer action).controller = s.controller.after (m.operations s action) := by
  cases action with
  | perform op => rfl
  | checkHealth =>
      rw [operations, after_append, ← m.after_health]
      rfl
  | refresh => exact m.after_refreshOperations s
  | loadFile path focus => exact m.after_loadOperations s path focus
  | follow event => exact m.after_followOperations s event
  | followAll => exact m.after_followEachOperations s.drained s.controller.drain.1

theorem after_operationsOf (actions : List Action) :
    (s.actAll analyzer actions).controller = s.controller.after (m.operationsOf s actions) := by
  induction actions generalizing s with
  | nil => rfl
  | cons action actions ih =>
      rw [Session.actAll, ih, operationsOf, after_append, m.after_operations]

end Analyzer.Meanwhile

end CodeAtlas
