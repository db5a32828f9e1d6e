import Mathlib.Data.List.Basic
import Mathlib.Data.List.Induction
import CodeAtlas.CommandLine.Run

/-! # Looks over whole runs

The looks of the edges are stored, the positions of the bright edges are listed, and whether
an edge is bright is read off the layer of its stored look. All three come from the node in
focus, and they say the same after any movements of the pointer. Every position that is listed
has an edge and a look, so nothing is left out where the bright edges are printed.
-/

namespace CodeAtlas

theorem Edge.touches_iff {edge : Edge} {node : NodeId} :
    edge.touches node = true ↔ edge.source = node ∨ edge.target = node := by
  simp [touches]

namespace EdgeStyle

@[simp] theorem isHighlighted_highlighted : highlighted.isHighlighted = true := rfl

@[simp] theorem isHighlighted_neutral : neutral.isHighlighted = false := rfl

/-- The layer tells the two looks apart. -/
theorem neutral_ne_highlighted : neutral ≠ highlighted := by
  intro h
  have hlayer := congrArg isHighlighted h
  simp at hlayer

end EdgeStyle

namespace Highlight

variable {h : Highlight} {edges : List Edge} {i : ℕ}

theorem eq_neutral_iff : h = .neutral ↔ ∀ id, h ≠ .focused id := by
  cases h with
  | neutral => simp
  | focused id => simp

theorem mem_promoted_iff :
    i ∈ h.promoted edges ↔ ∃ edge id, edges[i]? = some edge ∧
      h = .focused id ∧ (edge.source = id ∨ edge.target = id) := by
  cases h with
  | neutral => simp [promoted, focus?]
  | focused focus =>
      simp [promoted, focus?, List.mem_zipIdx_iff_getElem?, Edge.touches_iff]

theorem pairwise_lt_promoted (h : Highlight) (edges : List Edge) :
    (h.promoted edges).Pairwise (· < ·) := by
  cases h with
  | neutral => exact List.Pairwise.nil
  | focused focus =>
      have hsub : (promoted (.focused focus) edges).Sublist (edges.zipIdx.map (·.2)) :=
        List.filter_sublist.map _
      refine List.Pairwise.sublist hsub ?_
      rw [List.zipIdx_map_snd]
      exact List.pairwise_lt_range'

theorem eq_or_eq_of_mem_styles {style : EdgeStyle} (hstyle : style ∈ h.styles edges) :
    style = .highlighted ∨ style = .neutral := by
  obtain ⟨edge, -, rfl⟩ := List.mem_map.mp hstyle
  split
  · split
    · exact Or.inl rfl
    · exact Or.inr rfl
  · exact Or.inr rfl

/-- The looks and the list of positions agree on which edges are bright. -/
theorem mem_promoted_iff_look :
    i ∈ h.promoted edges ↔ (h.styles edges)[i]? = some .highlighted := by
  rw [mem_promoted_iff, styles, List.getElem?_map]
  cases edges[i]? with
  | none => simp
  | some edge =>
      cases h with
      | neutral => simp [focus?, EdgeStyle.neutral_ne_highlighted]
      | focused focus =>
          cases htouches : edge.touches focus with
          | false => simp [focus?, htouches, EdgeStyle.neutral_ne_highlighted, ← Edge.touches_iff]
          | true => simp [focus?, htouches, ← Edge.touches_iff]

theorem filterMap_promoted (node : NodeId) (edges : List Edge) :
    (promoted (.focused node) edges).filterMap (edges[·]?) = edges.filter (·.touches node) := by
  have hedge : ∀ indexed ∈ edges.zipIdx.filter (·.1.touches node),
      edges[indexed.2]? = some indexed.1 := by
    intro indexed hindexed
    exact List.mem_zipIdx_iff_getElem?.mp (List.mem_filter.mp hindexed).1
  have hfirst : edges.zipIdx.map (·.1) = edges := List.zipIdx_map_fst 0 edges
  calc (promoted (.focused node) edges).filterMap (edges[·]?)
      = (edges.zipIdx.filter (·.1.touches node)).filterMap (fun indexed => edges[indexed.2]?) :=
        List.filterMap_map
    _ = (edges.zipIdx.filter (·.1.touches node)).map (·.1) := by
        rw [List.filterMap_congr hedge, List.filterMap_eq_map']
    _ = edges.filter (·.touches node) := by
        conv_rhs => rw [← hfirst, List.filter_map]
        rfl

end Highlight

namespace Overlay

/-- The overlay after some movements of the pointer. -/
def after (o : Overlay) (movements : List Hover) : Overlay :=
  movements.foldl hover o

@[simp] theorem after_concat (o : Overlay) (movements : List Hover) (h : Hover) :
    o.after (movements ++ [h]) = (o.after movements).hover h := by
  simp [after]

/-- The looks are those of the given edges for the node that is in focus. -/
structure InStep (edges : List Edge) (o : Overlay) : Prop where
  edges_eq : o.edges = edges
  styles_eq : o.styles = o.highlight.styles edges

section InStep

variable {edges : List Edge} {o : Overlay}

theorem inStep_ofEdges (edges : List Edge) : InStep edges (ofEdges edges) :=
  ⟨rfl, rfl⟩

theorem InStep.hover (hstep : InStep edges o) (h : Hover) : InStep edges (o.hover h) := by
  refine ⟨hstep.edges_eq, ?_⟩
  show (o.highlight.next h).styles o.edges = (o.highlight.next h).styles edges
  rw [hstep.edges_eq]

theorem InStep.after (hstep : InStep edges o) (movements : List Hover) :
    InStep edges (o.after movements) := by
  induction movements using List.reverseRecOn with
  | nil => exact hstep
  | append_singleton movements h ih =>
      rw [after_concat]
      exact ih.hover h

/-- A position past the end has no look, and no position past the end is listed. -/
theorem InStep.isPromoted_iff (hstep : InStep edges o) {i : ℕ} :
    o.isPromoted i = true ↔ i ∈ o.highlight.promoted edges := by
  rw [isPromoted, hstep.styles_eq, Highlight.mem_promoted_iff_look]
  cases hlook : (o.highlight.styles edges)[i]? with
  | none => simp
  | some style =>
      rcases Highlight.eq_or_eq_of_mem_styles (List.mem_of_getElem? hlook) with rfl | rfl
      · simp
      · simp [EdgeStyle.neutral_ne_highlighted]

end InStep

theorem focused_after_iff (edges : List Edge) (movements : List Hover) (id : NodeId) :
    ((ofEdges edges).after movements).highlight = .focused id ↔
      movements.getLast? = some (.enter id) := by
  induction movements using List.reverseRecOn with
  | nil => simp [after, ofEdges]
  | append_singleton movements h _ =>
      rw [after_concat, List.getLast?_concat]
      cases h with
      | enter id' => simp [hover, Highlight.next]
      | leave => simp [hover, Highlight.next]

/--
After any movements over any edges, the node that was entered last is in focus, and nothing is
if the last movement left a node. The edges are those at the start, and their looks are those
for this focus. A position is bright exactly if it is listed, and exactly if an edge stands
there and has the node in focus as one of its ends. The positions are listed in increasing
order, each of them once.
-/
theorem promoted_iff_touches_entered (edges : List Edge) (movements : List Hover) :
    let o := (ofEdges edges).after movements
    (∀ id, o.highlight = .focused id ↔ movements.getLast? = some (.enter id)) ∧
    (o.highlight = .neutral ↔ ∀ id, movements.getLast? ≠ some (.enter id)) ∧
    o.edges = edges ∧
    o.styles = o.highlight.styles edges ∧
    (∀ i, (o.isPromoted i = true ↔ i ∈ o.highlight.promoted edges) ∧
      (i ∈ o.highlight.promoted edges ↔ ∃ edge id, edges[i]? = some edge ∧
        o.highlight = .focused id ∧ (edge.source = id ∨ edge.target = id)) ∧
      (o.highlight.promoted edges).count i = if o.isPromoted i then 1 else 0) ∧
    (o.highlight.promoted edges).Pairwise (· < ·) := by
  intro o
  have hstep : InStep edges o := (inStep_ofEdges edges).after movements
  have hfocus := focused_after_iff edges movements
  have hincreasing := Highlight.pairwise_lt_promoted o.highlight edges
  have hnodup : (o.highlight.promoted edges).Nodup := hincreasing.imp Nat.ne_of_lt
  refine ⟨hfocus, ?_, hstep.edges_eq, hstep.styles_eq, ?_, hincreasing⟩
  · rw [Highlight.eq_neutral_iff]
    exact forall_congr' fun id => not_congr (hfocus id)
  · intro i
    refine ⟨hstep.isPromoted_iff, Highlight.mem_promoted_iff, ?_⟩
    simp only [hnodup.count, hstep.isPromoted_iff]

end Overlay

/-- The command prints a line for every edge that touches the node. -/
theorem CommandLine.highlightText_eq (node : String) (s : Snapshot) :
    highlightText node s =
      lines ((s.edges.filter (·.touches node)).map (edgeText · .highlighted)) := by
  rw [← Highlight.filterMap_promoted, List.map_filterMap, highlightText]
  congr 1
  apply List.filterMap_congr
  intro i hi
  rw [Highlight.mem_promoted_iff_look.mp hi]
  cases s.edges[i]? <;> rfl

end CodeAtlas
