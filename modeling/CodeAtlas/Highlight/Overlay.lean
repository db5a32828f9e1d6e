import CodeAtlas.Graph.Snapshot
import CodeAtlas.Json.Decoder
import CodeAtlas.Style.Basic

/-!
# Highlighting

While the pointer rests on a node, the edges that touch the node are drawn with the
bright look. Nothing moves.
-/

namespace CodeAtlas

/-- The node in focus, if any. -/
inductive Highlight where
  | neutral
  | focused (id : NodeId)
deriving Repr, BEq, DecidableEq

inductive Hover where
  | enter (id : NodeId)
  | leave
deriving Repr, BEq, DecidableEq

namespace Highlight

def focus? : Highlight → Option NodeId
  | .neutral => none
  | .focused id => some id

/-- Entering a node focuses it and leaving clears the focus, whatever was in focus before. -/
def next (_ : Highlight) : Hover → Highlight
  | .enter id => .focused id
  | .leave => .neutral

def styles (h : Highlight) (edges : List Edge) : List EdgeStyle :=
  edges.map fun edge =>
    match h.focus? with
    | some id => if edge.touches id then .highlighted else .neutral
    | none => .neutral

/-- The positions of the edges that touch the node in focus. -/
def promoted (h : Highlight) (edges : List Edge) : List Nat :=
  match h.focus? with
  | none => []
  | some id => (edges.zipIdx.filter fun (edge, _) => edge.touches id).map (·.2)

def toJson : Highlight → Json
  | .neutral => .string "Neutral"
  | .focused id => .object [("Focused", .string id)]

def ofJson? : Json.Decoder Highlight := fun j => do
  match ← j.variant? with
  | ("Neutral", payload) => if Json.isBare payload then some .neutral else none
  | ("Focused", some (.string id)) => some (.focused id)
  | _ => none

end Highlight

/-- The edges of a view with their current looks. -/
structure Overlay where
  edges : List Edge := []
  highlight : Highlight := .neutral
  styles : List EdgeStyle := []

namespace Overlay

def ofEdges (edges : List Edge) : Overlay :=
  ⟨edges, .neutral, Highlight.styles .neutral edges⟩

def hover (o : Overlay) (h : Hover) : Overlay :=
  let highlight := o.highlight.next h
  { o with highlight := highlight, styles := highlight.styles o.edges }

def isPromoted (o : Overlay) (i : Nat) : Bool :=
  match o.styles[i]? with
  | some style => style.isHighlighted
  | none => false

end Overlay

end CodeAtlas
