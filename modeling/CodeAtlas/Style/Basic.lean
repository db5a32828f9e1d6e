import CodeAtlas.Graph.Node
import CodeAtlas.Style.Color

/-!
# Looks of nodes and edges

Edges have exactly two looks: the quiet one with which every edge starts, and the
bright one of an edge that touches the node in focus. Files and members differ in
colours, in the roundness of their corners and in the layer in which they are drawn.
-/

namespace CodeAtlas

inductive MarkerKind where
  | arrowClosed
deriving Repr, BEq, DecidableEq

structure EdgeMarker where
  kind : MarkerKind
  color : Color
deriving Repr, BEq

structure EdgeStyle where
  stroke : Color
  width : Float32
  opacity : Float32
  markerEnd : EdgeMarker
  zIndex : Int
  animated : Bool
deriving Repr, BEq

namespace EdgeStyle

/-- The layer of an edge that touches the node in focus. -/
def focusLayer : Int := 999

def quietColor : Color := Color.solid 0x71 0x71 0x7a

def focusColor : Color := Color.solid 0xf5 0x9e 0x0b

/-- The look with which every edge starts. -/
def neutral : EdgeStyle where
  stroke := quietColor
  width := 1.0
  opacity := 0.15
  markerEnd := ⟨.arrowClosed, quietColor⟩
  zIndex := 0
  animated := true

instance : Inhabited EdgeStyle := ⟨neutral⟩

def highlighted : EdgeStyle where
  stroke := focusColor
  width := 2.0
  opacity := 1.0
  markerEnd := ⟨.arrowClosed, focusColor⟩
  zIndex := focusLayer
  animated := true

/-- Is this the bright look? The layer decides. -/
def isHighlighted (s : EdgeStyle) : Bool :=
  s.zIndex == focusLayer

end EdgeStyle

structure NodeStyle where
  fill : Color
  border : Color
  accent : Color
  text : Color
  cornerRadius : Float32
  zIndex : Int
deriving Repr, BEq

namespace NodeStyle

/-- Files are drawn below their members. -/
def fileLayer : Int := 0

def memberLayer : Int := 10

def file : NodeStyle where
  fill := Color.solid 0x09 0x09 0x0b
  border := Color.solid 0x27 0x27 0x2a
  accent := Color.solid 0xd9 0x77 0x06
  text := Color.solid 0xe4 0xe4 0xe7
  cornerRadius := 16.0
  zIndex := fileLayer

def member : NodeStyle where
  fill := Color.solid 0x13 0x13 0x15
  border := Color.solid 0x27 0x27 0x2a
  accent := Color.solid 0xf5 0x9e 0x0b
  text := Color.solid 0xe4 0xe4 0xe7
  cornerRadius := 8.0
  zIndex := memberLayer

def ofKind : NodeKind → NodeStyle
  | .file => file
  | .function => member
  | .classDef => member

end NodeStyle

end CodeAtlas
