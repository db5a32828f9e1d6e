import CodeAtlas.Event.Basic
import CodeAtlas.Highlight.Overlay
import CodeAtlas.View.Basic

/-!
# Clicks and hovers

Which folders are open, what is selected and what is in focus, and which events
follow from a click or a movement of the pointer.
-/

namespace CodeAtlas

inductive Target where
  | graphNode (id : NodeId)
  | folder (path : String)
  | file (path : String)
  /-- A dependency by its bare name. -/
  | dependency (name : String)
deriving Repr, BEq, DecidableEq

/-- What a text on the command line stands for. -/
def Target.ofText (text : String) : Target :=
  match NodeId.dependencyName? text with
  | some name => .dependency name
  | none => if NodeId.hasMemberMark text then .graphNode text else .file text

/-- The state that clicks and hovers change. -/
structure Interaction where
  /-- The paths of the open folders. -/
  expanded : List String := []
  selection : Option String := none
  overlay : Overlay := {}

namespace Interaction

/-- Show new edges with nothing in focus. Folders stay open. -/
def reset (i : Interaction) (edges : List Edge) : Interaction :=
  { i with overlay := Overlay.ofEdges edges }

/-- Open a closed folder and close an open one. -/
def toggle (i : Interaction) (path : String) : Interaction × List Event :=
  if i.expanded.contains path then
    ({ i with expanded := i.expanded.filter (· != path) }, [.folderToggled path false])
  else
    ({ i with expanded := path :: i.expanded }, [.folderToggled path true])

def openFile (i : Interaction) (path : String) (focus : Option NodeId) :
    Interaction × List Event :=
  ({ i with selection := some path }, [.openFile path focus])

def openModule (i : Interaction) (name : String) : Interaction × List Event :=
  ({ i with selection := some (NodeId.ofDependency name) }, [.openModule name])

/-- Announce an activation before what follows from it. -/
def announce (id : NodeId) (origin : Origin) (r : Interaction × List Event) :
    Interaction × List Event :=
  (r.1, .activateNode id origin :: r.2)

def activate (i : Interaction) (view : View) : Target → Interaction × List Event
  | .graphNode id =>
    announce id .graph <|
      match NodeId.dependencyName? id with
      | some name => i.openModule name
      | none => i.openFile (view.owningFile id) (some id)
  | .folder path => i.toggle path
  | .file path =>
    announce path .fileTree <|
      match NodeId.dependencyName? path with
      | some name => i.openModule name
      | none => i.openFile path none
  | .dependency name =>
    announce (NodeId.ofDependency name) .dependencies (i.openModule name)

def hover (i : Interaction) : Hover → Interaction × List Event
  | .enter id => ({ i with overlay := i.overlay.hover (.enter id) }, [.hoverEntered id])
  | .leave => ({ i with overlay := i.overlay.hover .leave }, [.hoverLeft])

end Interaction

end CodeAtlas
