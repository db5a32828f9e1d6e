import CodeAtlas.Proofs.Layout.HitTest
import CodeAtlas.Proofs.Layout.Lifting
import CodeAtlas.Proofs.Layout.LongestPaths
import CodeAtlas.Proofs.Layout.Separation

/-! # Callers come before callees

An edge between two files is an arc between their boxes. The arc keeps its direction if the
files form no cycle, and in any case the boxes get different ranks. So the file of the caller
ends before the file of the callee starts, with the space between ranks; in a cycle it may be
the other way round.
-/

namespace CodeAtlas

/-! ## Ranks of joined boxes -/

namespace Layout

namespace FileGraph

variable {α : Type} {g : FileGraph α} {v w : ℕ}

theorem rank_lt_of_mem_acyclicArcs (h : (v, w) ∈ g.acyclicArcs) :
    g.ranks.getD v 0 < g.ranks.getD w 0 :=
  (isRanking_ranks g.inRange_acyclicArcs g.acyclic_acyclicArcs).lt v w h

theorem rank_lt_of_acyclic (hacyclic : Acyclic g.arcs) (h : (v, w) ∈ g.properArcs) :
    g.ranks.getD v 0 < g.ranks.getD w 0 := by
  apply rank_lt_of_mem_acyclicArcs
  rwa [acyclicArcs_of_acyclic hacyclic]

/-- Turned or not, an arc joins boxes of different ranks. -/
theorem rank_lt_or_gt (h : (v, w) ∈ g.properArcs) :
    g.ranks.getD v 0 < g.ranks.getD w 0 ∨ g.ranks.getD w 0 < g.ranks.getD v 0 := by
  have hturned : forward (greedyOrder g.count g.properArcs) (v, w) ∈ g.acyclicArcs :=
    List.mem_map_of_mem h
  cases forward_eq_or_eq_swap (greedyOrder g.count g.properArcs) (v, w) with
  | inl hkept =>
      rw [hkept] at hturned
      exact Or.inl (rank_lt_of_mem_acyclicArcs hturned)
  | inr hswap =>
      rw [hswap] at hturned
      exact Or.inr (rank_lt_of_mem_acyclicArcs hturned)

end FileGraph

end Layout

/-! ## Files of a drawing -/

namespace Diagram

variable {metrics : Metrics ℚ} {m : Model} {place : Layout.FileGraph ℚ → List (Point ℚ)}
  {file : PlacedNode ℚ} {id : NodeId} {k l : ℕ}

/-- The node with the identifier is drawn in the file, or is the file. -/
def DrawnIn (d : Diagram ℚ) (file : PlacedNode ℚ) (id : NodeId) : Prop :=
  file ∈ d.nodes ∧ file.node.kind = .file ∧
    ∃ p ∈ d.nodes, p.node.id = id ∧ (p = file ∨ p.space = .inside file.node.id)

/-- The file number `k` is drawn as `file`. -/
def DrawnAs (metrics : Metrics ℚ) (place : Layout.FileGraph ℚ → List (Point ℚ)) (m : Model)
    (k : ℕ) (file : PlacedNode ℚ) : Prop :=
  ∃ f node, m.files[k]? = some f ∧ m.nodes[f]? = some node ∧
    placedAt metrics place m f node = file

theorem DrawnAs.eq {file' : PlacedNode ℚ} (h : DrawnAs metrics place m k file)
    (h' : DrawnAs metrics place m k file') : file = file' := by
  obtain ⟨f, node, hk, hf, rfl⟩ := h
  obtain ⟨f', node', hk', hf', rfl⟩ := h'
  rw [hk] at hk'
  cases hk'
  rw [hf] at hf'
  cases hf'
  rfl

/-- What is drawn inside a file is a member that names it. -/
theorem parent_of_inside (hids : m.DistinctIds) {i : ℕ} {node owner : Node}
    (hi : m.nodes[i]? = some node)
    (hspace : (placedAt metrics place m i node).space = .inside owner.id) :
    node.kind ≠ .file ∧ node.parent = some owner.id := by
  have hplace : InPlace metrics m.nodes i (placedAt metrics place m i node) :=
    placedAt_inPlace hids hi
  have hkind : node.kind ≠ .file := by
    intro hfile
    rw [hplace.file (by rwa [placedAt_node])] at hspace
    cases hspace
  refine ⟨hkind, ?_⟩
  by_contra hparent
  -- With another parent the node is drawn in another file, or in none.
  by_cases hheld : ∃ other ∈ m.nodes, other.kind = .file ∧ node.parent = some other.id
  · obtain ⟨other, hother, hfile, hnamed⟩ := hheld
    have hinside := (hplace.member other hother hfile (by rwa [placedAt_node])
      (by rwa [placedAt_node])).1
    rw [hinside, Space.inside.injEq] at hspace
    exact hparent (hspace ▸ hnamed)
  · have hglobal := (hplace.orphan (by rwa [placedAt_node]) (by
      intro other hother hfile hnamed
      rw [placedAt_node] at hnamed
      exact hheld ⟨other, hother, hfile, hnamed⟩)).1
    rw [hglobal] at hspace
    cases hspace

theorem DrawnIn.exists_drawnAs (hids : m.DistinctIds)
    (h : (ofModel metrics place m).DrawnIn file id) :
    ∃ k, DrawnAs metrics place m k file ∧ m.HoldsAt k id := by
  obtain ⟨hfile, hkind, p, hp, hid, hheld⟩ := h
  obtain ⟨f, owner, hf, rfl⟩ := mem_nodes_iff.mp hfile
  obtain ⟨i, node, hi, rfl⟩ := mem_nodes_iff.mp hp
  rw [placedAt_node] at hkind hid hheld
  obtain ⟨k, hk⟩ := List.mem_iff_getElem?.mp
    (Model.mem_files.mpr (Model.isFile_iff.mpr ⟨owner, hf, hkind⟩))
  have hholds : node = owner ∨ node.kind ≠ .file ∧ node.parent = some owner.id := by
    cases hheld with
    | inl hsame =>
        have hnode := congrArg PlacedNode.node hsame
        rw [placedAt_node, placedAt_node] at hnode
        exact Or.inl hnode
    | inr hinside => exact Or.inr (parent_of_inside hids hi hinside)
  exact ⟨k, ⟨f, owner, hk, hf, rfl⟩, owner, Model.getElem?_fileNodes.mpr ⟨f, hk, hf⟩,
    List.mem_of_getElem? hf, hkind, node, List.mem_of_getElem? hi, hid, hholds⟩

theorem DrawnAs.rect {s : Layout.Spacing ℚ} (h : DrawnAs metrics s.place m k file) :
    file.space = .global ∧ ∃ c, (s.place (fileGraph metrics m))[k]? = some c ∧
      file.localRect = Rect.around c ((fileGraph metrics m).sizeOf k) := by
  obtain ⟨f, node, hk, -, rfl⟩ := h
  obtain ⟨hspace, hposition, hsize⟩ := placedAt_file metrics s.place node hk
  obtain ⟨c, hc, hsizeOf⟩ := exists_center s metrics hk
  refine ⟨hspace, c, hc, ?_⟩
  rw [PlacedNode.localRect, hposition, hsize, ofSize_sub, fileRectAt, hsizeOf,
    List.getD_eq_getElem?_getD, hc, Option.getD_some]

theorem mem_properArcs_fileGraph (hids : m.DistinctIds) {edge : Edge} (hedge : edge ∈ m.edges)
    (hkl : k ≠ l) (hk : m.HoldsAt k edge.source) (hl : m.HoldsAt l edge.target) :
    (k, l) ∈ (fileGraph metrics m).properArcs := by
  have hsizes : (fileSizes metrics m).length = m.files.length := List.length_map _
  rw [fileGraph, Layout.FileGraph.properArcs_ofModel hids hsizes, Layout.FileGraph.arcs_ofModel,
    List.mem_filterMap]
  exact ⟨edge, hedge, (Model.arcOf?_eq_some_iff hids).mpr ⟨hkl, hk, hl⟩⟩

/-- Of two files that are drawn, the one with the lower rank comes first. -/
theorem DrawnAs.before_of_rank_lt (hm : metrics.NonNegative) {file' : PlacedNode ℚ}
    (h : DrawnAs metrics (Layout.Spacing.ofMetrics metrics).place m k file)
    (h' : DrawnAs metrics (Layout.Spacing.ofMetrics metrics).place m l file')
    (hrank : (fileGraph metrics m).ranks.getD k 0 < (fileGraph metrics m).ranks.getD l 0) :
    metrics.direction.along file.localRect.high + metrics.rankSeparation ≤
      metrics.direction.along file'.localRect.low := by
  have hspacing : (Layout.Spacing.ofMetrics metrics).NonNegative :=
    ⟨hm.nodeSeparation, hm.rankSeparation⟩
  have hkl : k ≠ l := by
    rintro rfl
    exact Nat.lt_irrefl _ hrank
  obtain ⟨-, c, hc, hrect⟩ := h.rect
  obtain ⟨-, d, hd, hrect'⟩ := h'.rect
  have hapart := Layout.Spacing.place_keptApart hspacing (fileGraph_sizes_nonneg hm) hkl hc hd
  rw [hrect, hrect']
  exact (hapart.before hrank).rects

/-- Where an edge leads from one file to another, the callee starts after the caller ends, with
the space between ranks, if the edges between files form no cycle. If they do, then one of the two
files starts after the other. -/
theorem callers_before_callees (metrics : Metrics ℚ) (nodes : List Node) (edges : List Edge)
    (edge : Edge) (caller callee : PlacedNode ℚ) (hm : metrics.NonNegative) (hedge : edge ∈ edges)
    (hcaller : (draw metrics nodes edges).DrawnIn caller edge.source)
    (hcallee : (draw metrics nodes edges).DrawnIn callee edge.target) (hne : caller ≠ callee) :
    (caller.space = .global ∧ callee.space = .global) ∧
      (Layout.Acyclic (Model.ofNodes nodes edges).fileEdges →
        metrics.direction.along caller.localRect.high + metrics.rankSeparation ≤
          metrics.direction.along callee.localRect.low) ∧
      (metrics.direction.along caller.localRect.high + metrics.rankSeparation ≤
          metrics.direction.along callee.localRect.low ∨
        metrics.direction.along callee.localRect.high + metrics.rankSeparation ≤
          metrics.direction.along caller.localRect.low) := by
  have hids := Model.distinctIds_ofNodes nodes edges
  obtain ⟨k, hk, hsource⟩ := DrawnIn.exists_drawnAs hids hcaller
  obtain ⟨l, hl, htarget⟩ := DrawnIn.exists_drawnAs hids hcallee
  have hkl : k ≠ l := by
    rintro rfl
    exact hne (hk.eq hl)
  have harc : (k, l) ∈ (fileGraph metrics (Model.ofNodes nodes edges)).properArcs :=
    mem_properArcs_fileGraph hids hedge hkl hsource htarget
  refine ⟨⟨hk.rect.1, hl.rect.1⟩, ?_, ?_⟩
  · intro hacyclic
    have hgraph := acyclic_fileGraph metrics hacyclic
    exact hk.before_of_rank_lt hm hl (Layout.FileGraph.rank_lt_of_acyclic hgraph harc)
  · cases Layout.FileGraph.rank_lt_or_gt harc with
    | inl hlt => exact Or.inl (hk.before_of_rank_lt hm hl hlt)
    | inr hgt => exact Or.inr (hl.before_of_rank_lt hm hk hgt)

/-- Two files, each with a member. The file of the callee is listed first. -/
def chainNodes : List Node :=
  classify [RawNode.file "b.py", RawNode.member "b.py" "g", RawNode.member "a.py" "f",
    RawNode.file "a.py"]

def chainEdges : List Edge :=
  [{ source := "a.py::f", target := "b.py::g" }, { source := "b.py", target := "b.py::g" }]

def chainDiagram : Diagram ℚ :=
  draw Metrics.standard chainNodes chainEdges

theorem chainNodes_in_order :
    (Metrics.standard : Metrics ℚ).NonNegative ∧
      Layout.Acyclic (Model.ofNodes chainNodes chainEdges).fileEdges ∧
      ∃ caller callee : PlacedNode ℚ,
        chainDiagram.DrawnIn caller "a.py::f" ∧ chainDiagram.DrawnIn callee "b.py::g" ∧
          caller ≠ callee ∧
          caller.localRect.high.x + (Metrics.standard : Metrics ℚ).rankSeparation ≤
            callee.localRect.low.x := by
  have hacyclic : Layout.Acyclic (Model.ofNodes chainNodes chainEdges).fileEdges :=
    Layout.acyclic_of_height (fun v => if v = 3 then 0 else 1) (by decide)
  have hdrawn : chainDiagram.nodes.map (fun p => (p.node.id, p.node.kind, p.space)) =
      [("b.py", .file, .global), ("b.py::g", .function, .inside "b.py"),
        ("a.py::f", .function, .inside "a.py"), ("a.py", .file, .global)] := by
    decide +kernel
  have hnode : ∀ entry ∈ chainDiagram.nodes.map fun p => (p.node.id, p.node.kind, p.space),
      ∃ p ∈ chainDiagram.nodes, (p.node.id, p.node.kind, p.space) = entry :=
    fun _ hentry => List.mem_map.mp hentry
  rw [hdrawn] at hnode
  obtain ⟨callee, hcallee, hcalleeEq⟩ := hnode ("b.py", .file, .global) (by simp)
  obtain ⟨g, hg, hgEq⟩ := hnode ("b.py::g", .function, .inside "b.py") (by simp)
  obtain ⟨f, hf, hfEq⟩ := hnode ("a.py::f", .function, .inside "a.py") (by simp)
  obtain ⟨caller, hcaller, hcallerEq⟩ := hnode ("a.py", .file, .global) (by simp)
  simp only [Prod.mk.injEq] at hcalleeEq hgEq hfEq hcallerEq
  have hcallerIn : chainDiagram.DrawnIn caller "a.py::f" :=
    ⟨hcaller, hcallerEq.2.1, f, hf, hfEq.1, Or.inr (by rw [hfEq.2.2, hcallerEq.1])⟩
  have hcalleeIn : chainDiagram.DrawnIn callee "b.py::g" :=
    ⟨hcallee, hcalleeEq.2.1, g, hg, hgEq.1, Or.inr (by rw [hgEq.2.2, hcalleeEq.1])⟩
  have hne : caller ≠ callee := by
    intro heq
    have hid := hcallerEq.1
    rw [heq, hcalleeEq.1] at hid
    exact absurd hid (by decide)
  have horder := callers_before_callees Metrics.standard chainNodes chainEdges
    { source := "a.py::f", target := "b.py::g" } caller callee Metrics.standard_nonNegative
    List.mem_cons_self hcallerIn hcalleeIn hne
  exact ⟨Metrics.standard_nonNegative, hacyclic, caller, callee, hcallerIn, hcalleeIn, hne,
    horder.2.1 hacyclic⟩

end Diagram

end CodeAtlas
