import CodeAtlas.Session.Script
import CodeAtlas.Settings.Basic

/-!
# Polling

Two timers drive a session: one asks whether the analyzer is there, the other one
fetches snapshots. Both are due at once when polling starts, and health goes first.
Nothing else happens while a call lasts. A timer that is late by more than a little
starts its interval anew; otherwise it keeps its rhythm.
-/

namespace CodeAtlas

/-- The times at which the two timers are due next. -/
structure Timers where
  health : Nat := 0
  snapshot : Nat := 0
deriving Repr, BEq, DecidableEq

namespace Timers

/-- A timer may be late by this many milliseconds and still keep its rhythm. -/
def grace : Nat := 5

/-- When a timer that goes off now is due again. -/
def next (now due interval : Nat) : Nat :=
  if due + grace < now then now + interval else due + interval

end Timers

namespace Poller

/-- What happens in a round. -/
inductive Turn where
  | stop
  | health
  | snapshot
  /-- Nothing is due before the given time. -/
  | wait (time : Nat)
deriving Repr, BEq, DecidableEq

/-- What happens now, if polling is to stop at `finish`. -/
def turn (finish : Nat) (timers : Timers) (now : Nat) : Turn :=
  if finish ≤ now then .stop
  else if timers.health ≤ now then .health
  else if timers.snapshot ≤ now then .snapshot
  else .wait (min finish (min timers.health timers.snapshot))

def rounds (script : Script) (settings : PollSettings) (finish : Nat) :
    Nat → Timers → ScriptM Unit
  | 0, _ => pure ()
  | fuel + 1, timers => do
    let now := (← get).world.now
    match turn finish timers now with
    | .stop => pure ()
    | .health =>
      let _ ← Session.checkHealth script.analyzer
      rounds script settings finish fuel
        { timers with health := Timers.next now timers.health settings.healthInterval }
    | .snapshot =>
      let _ ← Session.refresh script.analyzer
      rounds script settings finish fuel
        { timers with snapshot := Timers.next now timers.snapshot settings.snapshotInterval }
    | .wait time =>
      ScriptM.onWorld fun w => ((), { w with now := time })
      rounds script settings finish fuel timers

/--
More rounds than there can be: each timer goes off at most once a millisecond, and
after each wait a timer goes off or polling stops.
-/
def roundLimit (finish : Nat) : Nat :=
  4 * finish + 2

/-- Poll until the given time, from a fresh start. -/
def run (script : Script) (settings : PollSettings) (metrics : Metrics Float32) (finish : Nat) :
    Session World :=
  (rounds script settings finish (roundLimit finish) {} ⟨Controller.start metrics, {}⟩).2

end Poller

end CodeAtlas
