import CodeAtlas.Proofs.Graph.Owners
import CodeAtlas.Proofs.Layout.Diagram

/-! # Only edges between files move anything

Of its edges a drawing places only those that lead from one file to another. Edges that
do not, and the names and labels of edges, may come and go without moving a node.
-/

namespace CodeAtlas

namespace Model

/--
The second list is the first one with idle edges put in anywhere, and with the names and
labels of edges changed.
-/
inductive Padded (kept : List Node) : List Edge → List Edge → Prop
  | nil : Padded kept [] []
  | keep {edge edge' : Edge} {edges edges' : List Edge} (hsource : edge'.source = edge.source)
      (htarget : edge'.target = edge.target) (hrest : Padded kept edges edges') :
      Padded kept (edge :: edges) (edge' :: edges')
  | insert {edge : Edge} {edges edges' : List Edge} (hidle : Idle kept edge)
      (hrest : Padded kept edges edges') : Padded kept edges (edge :: edges')

variable {nodes : List Node} {edges edges' : List Edge}

theorem liftEdge?_ofNodes_congr {edge edge' : Edge} (hsource : edge'.source = edge.source)
    (htarget : edge'.target = edge.target) :
    (ofNodes nodes edges').liftEdge? edge' = (ofNodes nodes edges).liftEdge? edge := by
  unfold liftEdge?
  rw [hsource, htarget]
  rfl

theorem fileEdges_cons (edge : Edge) (edges : List Edge) :
    (ofNodes nodes (edge :: edges)).fileEdges =
      ((ofNodes nodes edges).liftEdge? edge).toList ++ (ofNodes nodes edges).fileEdges := by
  have hlift : (ofNodes nodes (edge :: edges)).liftEdge? = (ofNodes nodes edges).liftEdge? := by
    funext e
    exact liftEdge?_ofNodes_congr rfl rfl
  unfold fileEdges
  rw [hlift]
  show (edge :: edges).filterMap _ = _ ++ edges.filterMap _
  cases h : (ofNodes nodes edges).liftEdge? edge with
  | none => simp [h]
  | some arc => simp [h]

/-- Padding adds no edge between files and changes none. -/
theorem Padded.fileEdges_eq (h : Padded (firstOccurrences Node.id nodes) edges edges') :
    (ofNodes nodes edges').fileEdges = (ofNodes nodes edges).fileEdges := by
  rw [← firstByKey_eq_firstOccurrences] at h
  induction h with
  | nil => rfl
  | keep hsource htarget _ ih =>
      rw [fileEdges_cons, fileEdges_cons, ih, liftEdge?_ofNodes_congr hsource htarget]
  | @insert edge _ edges' hidle _ ih =>
      have hnone : (ofNodes nodes edges').liftEdge? edge = none :=
        (liftEdge?_eq_none_iff (distinctIds_ofNodes nodes edges')).mpr hidle
      rw [fileEdges_cons, hnone, ih]
      rfl

end Model

namespace Diagram

variable {α : Type} [Scalar α]

theorem fileGraph_ofNodes_congr (metrics : Metrics α) {nodes : List Node}
    {edges edges' : List Edge}
    (h : (Model.ofNodes nodes edges').fileEdges = (Model.ofNodes nodes edges).fileEdges) :
    fileGraph metrics (Model.ofNodes nodes edges') =
      fileGraph metrics (Model.ofNodes nodes edges) := by
  unfold fileGraph Layout.FileGraph.ofModel
  rw [h]
  rfl

/-- Apart from the edges that it lists, a drawing depends on the nodes and the graph of files. -/
theorem draw_congr (metrics : Metrics α) {nodes : List Node} {edges edges' : List Edge}
    (h : (Model.ofNodes nodes edges').fileEdges = (Model.ofNodes nodes edges).fileEdges) :
    (draw metrics nodes edges').nodes = (draw metrics nodes edges).nodes ∧
      (draw metrics nodes edges').bounds = (draw metrics nodes edges).bounds := by
  have hgraph := fileGraph_ofNodes_congr metrics h
  unfold draw layered ofModel
  rw [hgraph]
  by_cases hempty : (Model.ofNodes nodes edges).isEmpty = true
  · have hempty' : (Model.ofNodes nodes edges').isEmpty = true := hempty
    simp only [hempty, hempty', if_true, and_self]
  · have hempty' : ¬ (Model.ofNodes nodes edges').isEmpty = true := hempty
    simp only [if_neg hempty, if_neg hempty']
    exact ⟨rfl, rfl⟩

/--
Two lists of edges that come to the same list of edges between files leave every node in
the same place, with the same size, space and look, inside the same bounds. So does
putting in edges with an unknown end, edges that touch an orphan and edges inside one
file, and changing the names and labels of edges. Nothing is assumed of the numbers.
-/
theorem draw_eq_of_same_file_edges (metrics : Metrics α) (nodes : List Node)
    (edges edges' : List Edge)
    (h : (Model.ofNodes nodes edges').fileEdges = (Model.ofNodes nodes edges).fileEdges ∨
      Model.Padded (firstOccurrences Node.id nodes) edges edges') :
    (draw metrics nodes edges').nodes = (draw metrics nodes edges).nodes ∧
      (draw metrics nodes edges').bounds = (draw metrics nodes edges).bounds := by
  rcases h with hsame | hpadded
  · exact draw_congr metrics hsame
  · exact draw_congr metrics hpadded.fileEdges_eq

/-- Two files with a member each, and a member of a file that is missing. -/
def callingNodes : List Node :=
  classify [RawNode.file "a.py", RawNode.member "a.py" "f", RawNode.file "b.py",
    RawNode.member "b.py" "g", RawNode.member "c.py" "h"]

def callingEdge : Edge :=
  { source := "a.py::f", target := "b.py::g" }

/-- The edge with a name and a label, behind, between and before edges that lead nowhere. -/
def paddedEdges : List Edge :=
  [{ source := "a.py::f", target := "d.py" }, { source := "a.py", target := "a.py::f" },
    { callingEdge with id := some "e1", label := some "calls" },
    { source := "c.py::h", target := "b.py::g" }]

/-- The edge may also be drawn from file to file, which is another list with the same lifting. -/
theorem callingNodes_drawn_alike :
    ((draw (Metrics.standard : Metrics Float32) callingNodes paddedEdges).nodes =
        (draw Metrics.standard callingNodes [callingEdge]).nodes ∧
      (draw (Metrics.standard : Metrics Float32) callingNodes paddedEdges).bounds =
        (draw Metrics.standard callingNodes [callingEdge]).bounds) ∧
    (draw (Metrics.standard : Metrics Float32) callingNodes
        [{ source := "a.py", target := "b.py" }]).nodes =
      (draw Metrics.standard callingNodes [callingEdge]).nodes := by
  have hfile : Node.ofRaw (RawNode.file "a.py") ∈ firstOccurrences Node.id callingNodes :=
    List.mem_of_getElem? (i := 0) rfl
  have hmember : Node.ofRaw (RawNode.member "a.py" "f") ∈ firstOccurrences Node.id callingNodes :=
    List.mem_of_getElem? (i := 1) rfl
  have hpadded : Model.Padded (firstOccurrences Node.id callingNodes) [callingEdge] paddedEdges := by
    refine .insert (.unknownEnd "d.py" (by decide) ?_)
      (.insert (.oneFile (Node.ofRaw (RawNode.file "a.py")) ?_ ?_)
        (.keep rfl rfl (.insert (.orphanEnd "c.py::h" (by decide) ?_) .nil)))
    · unfold Model.Unknown
      decide
    · exact ⟨hfile, rfl, _, hfile, rfl, Or.inl rfl⟩
    · exact ⟨hfile, rfl, _, hmember, rfl, Or.inr ⟨by decide, rfl⟩⟩
    · unfold Model.Orphaned
      decide
  exact ⟨draw_eq_of_same_file_edges Metrics.standard callingNodes [callingEdge] paddedEdges
      (Or.inr hpadded),
    (draw_eq_of_same_file_edges Metrics.standard callingNodes [callingEdge]
      [{ source := "a.py", target := "b.py" }] (Or.inl (by decide))).1⟩

end Diagram

end CodeAtlas
