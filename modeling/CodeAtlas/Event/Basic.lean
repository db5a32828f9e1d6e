import CodeAtlas.Analyzer.Basic

/-!
# Events

What a session tells the outside: what was activated, opened or hovered over, what
became of a refresh, and what the analyzer said. Events wait in a queue until
somebody takes them out.
-/

namespace CodeAtlas

inductive Origin where
  | graph
  | fileTree
  | dependencies
deriving Repr, BEq, DecidableEq

inductive Event where
  | activateNode (id : NodeId) (origin : Origin)
  /-- A file is to be shown. The focus is the node that led to it, if there is one. -/
  | openFile (path : String) (focus : Option NodeId)
  /-- A dependency is to be shown. Nothing has to be fetched for it. -/
  | openModule (name : String)
  | folderToggled (path : String) (expanded : Bool)
  | hoverEntered (id : NodeId)
  | hoverLeft
  | snapshotApplied (generation nodeCount edgeCount : Nat)
  | snapshotUnchanged (generation : Nat)
  | snapshotUnavailable (reason : String)
  | staleSnapshotDiscarded (ticket : Nat)
  | analyzerStatus (health : Health)
  | contentLoaded (path : String) (bytes : Nat)
  | contentFailed (path error : String)
deriving Repr, BEq, DecidableEq

/-- Events that nobody has taken yet, the oldest first. -/
structure EventQueue where
  events : List Event := []
deriving Repr, BEq, DecidableEq

namespace EventQueue

def pending (q : EventQueue) : Nat :=
  q.events.length

def publish (q : EventQueue) (event : Event) : EventQueue :=
  ⟨q.events ++ [event]⟩

def publishAll (q : EventQueue) (events : List Event) : EventQueue :=
  ⟨q.events ++ events⟩

def receive (q : EventQueue) : Option Event × EventQueue :=
  match q.events with
  | [] => (none, q)
  | event :: events => (some event, ⟨events⟩)

def drain (q : EventQueue) : List Event × EventQueue :=
  (q.events, {})

end EventQueue

end CodeAtlas
