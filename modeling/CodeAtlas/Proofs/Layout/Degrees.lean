import CodeAtlas.Proofs.Layout.Moves

/-! # The counters of a peeled graph

Whichever nodes have been taken away, and in whatever order, the counters say how many nodes are
still there and how many arcs join each of them to the others. An arc between two such nodes is
counted once where it begins and once where it ends.
-/

namespace CodeAtlas.Layout

/-- The degrees of several nodes added up. -/
def totalDegree (degree : ℕ → Int) (nodes : List ℕ) : Int :=
  nodes.foldr (fun v total => degree v + total) 0

/-- A degree that is a count of arcs adds up to the count for all nodes. -/
theorem totalDegree_eq_count (count : List ℕ → ℕ) {degree : ℕ → Int} {nodes : List ℕ}
    (hnil : count [] = 0)
    (hcons : ∀ v rest, v ∉ rest → count (v :: rest) = count [v] + count rest)
    (hnodup : nodes.Nodup) (hdegree : ∀ v ∈ nodes, degree v = count [v]) :
    totalDegree degree nodes = count nodes := by
  induction nodes with
  | nil =>
      rw [hnil]
      rfl
  | cons v rest ih =>
      rw [List.nodup_cons] at hnodup
      have hrest := ih hnodup.2 fun u hu => hdegree u (List.mem_cons_of_mem v hu)
      rw [hcons v rest hnodup.1, Int.natCast_add, ← hdegree v List.mem_cons_self, ← hrest]
      rfl

namespace Peeling

variable {n : ℕ} {arcs : List Arc} {p : Peeling} {v : ℕ}

/-! ## What the counters of one state say -/

theorem links_activeNodes_left (p : Peeling) (arcs : List Arc) (v : ℕ) :
    links arcs p.activeNodes [v] = arcs.countP fun arc => arc.2 == v && p.isActive arc.1 := by
  apply List.countP_congr
  intro arc _
  simp [mem_activeNodes, and_comm]

theorem links_activeNodes_right (p : Peeling) (arcs : List Arc) (v : ℕ) :
    links arcs [v] p.activeNodes = arcs.countP fun arc => arc.1 == v && p.isActive arc.2 := by
  apply List.countP_congr
  intro arc _
  simp [mem_activeNodes]

theorem getElem?_eq_some_getD {degrees : List Int} (hv : v < degrees.length) :
    degrees[v]? = some (degrees.getD v 0) := by
  simp [List.getD_eq_getElem?_getD, hv]

theorem Counts.getElem?_inDegree (h : Counts n arcs p) (hv : p.isActive v = true) :
    p.inDegree[v]? = some ((arcs.countP fun arc => arc.2 == v && p.isActive arc.1 : ℕ) : Int) := by
  have hlt := lt_of_isActive hv
  rw [h.length_active, ← h.length_inDegree] at hlt
  rw [getElem?_eq_some_getD hlt, ← links_activeNodes_left, ← h.inDegreeOf_eq_links hv]
  rfl

theorem Counts.getElem?_outDegree (h : Counts n arcs p) (hv : p.isActive v = true) :
    p.outDegree[v]? = some ((arcs.countP fun arc => arc.1 == v && p.isActive arc.2 : ℕ) : Int) := by
  have hlt := lt_of_isActive hv
  rw [h.length_active, ← h.length_outDegree] at hlt
  rw [getElem?_eq_some_getD hlt, ← links_activeNodes_right, ← h.outDegreeOf_eq_links hv]
  rfl

theorem Counts.remaining_eq_countP (h : Counts n arcs p) :
    p.remaining = (List.range n).countP p.isActive := by
  rw [h.remaining_eq, activeNodes, h.length_active, List.countP_eq_length_filter]

/-- Both totals count the arcs between nodes that are still there. -/
theorem Counts.totalDegree_eq (h : Counts n arcs p) :
    totalDegree p.inDegreeOf p.activeNodes = totalDegree p.outDegreeOf p.activeNodes := by
  have hin : totalDegree p.inDegreeOf p.activeNodes = links arcs p.activeNodes p.activeNodes :=
    totalDegree_eq_count (links arcs p.activeNodes) (by simp [links]) (fun _ _ => links_cons_right)
      p.nodup_activeNodes fun v hv => h.inDegreeOf_eq_links (mem_activeNodes.mp hv)
  have hout : totalDegree p.outDegreeOf p.activeNodes = links arcs p.activeNodes p.activeNodes :=
    totalDegree_eq_count (fun sources => links arcs sources p.activeNodes) (by simp [links])
      (fun _ _ => links_cons_left) p.nodup_activeNodes
      fun v hv => h.outDegreeOf_eq_links (mem_activeNodes.mp hv)
  rw [hin, hout]

/-! ## Every state that is reached -/

theorem isActive_detachAll_start {nodes : List ℕ} :
    ((start n arcs).detachAll nodes).isActive v = true ↔ v < n ∧ v ∉ nodes := by
  rw [isActive_detachAll, isActive_start]

theorem Counts.detachAll_start (hrange : InRange n arcs) {nodes : List ℕ} (hnodup : nodes.Nodup)
    (hnodes : ∀ v ∈ nodes, v < n) : Counts n arcs ((Peeling.start n arcs).detachAll nodes) :=
  (Counts.start hrange).detachAll hnodup fun v hv => isActive_start.mpr (hnodes v hv)

/--
After nodes have been taken away one by one, each of them once, exactly the other nodes are still
there, and the counter of nodes is their number. The degrees of a node that is still there are the
numbers of arcs into it and out of it whose other end is still there, so they are not negative, and
over all these nodes they have equal totals. Arcs may repeat, and an arc from a node to itself does
no harm.
-/
theorem detachAll_counters_exact (n : ℕ) (arcs : List Arc) (nodes : List ℕ)
    (hrange : InRange n arcs) (hnodup : nodes.Nodup) (hnodes : ∀ v ∈ nodes, v < n) :
    let p := (start n arcs).detachAll nodes
    (p.remaining = (List.range n).countP p.isActive ∧ p.remaining + nodes.length = n) ∧
      (∀ v, p.isActive v = true ↔ v < n ∧ v ∉ nodes) ∧
      (∀ v, p.isActive v = true →
        p.inDegree[v]? = some ((arcs.countP fun arc => arc.2 == v && p.isActive arc.1 : ℕ) : Int) ∧
        p.outDegree[v]? = some ((arcs.countP fun arc => arc.1 == v && p.isActive arc.2 : ℕ) : Int) ∧
        0 ≤ p.inDegreeOf v ∧ 0 ≤ p.outDegreeOf v) ∧
      totalDegree p.inDegreeOf p.activeNodes = totalDegree p.outDegreeOf p.activeNodes := by
  intro p
  have hcounts : Counts n arcs p := Counts.detachAll_start hrange hnodup hnodes
  -- The counter is a natural number: that it never stops at zero early has to be known.
  have hfew : nodes.length ≤ n := by
    have hsub : nodes ⊆ List.range n := fun v hv => List.mem_range.mpr (hnodes v hv)
    simpa using (hnodup.subperm hsub).length_le
  refine ⟨⟨hcounts.remaining_eq_countP, ?_⟩, fun v => isActive_detachAll_start, ?_,
    hcounts.totalDegree_eq⟩
  · have hremaining : p.remaining = n - nodes.length := remaining_detachAll _ nodes
    omega
  · intro v hv
    refine ⟨hcounts.getElem?_inDegree hv, hcounts.getElem?_outDegree hv, ?_, ?_⟩
    · rw [hcounts.inDegree_eq v hv]
      exact Int.natCast_nonneg _
    · rw [hcounts.outDegree_eq v hv]
      exact Int.natCast_nonneg _

/-- A doubled arc, a cycle through all nodes and an arc that leads back along it. -/
def knot : List Arc :=
  [(0, 1), (1, 2), (0, 1), (2, 3), (3, 0), (2, 1)]

theorem knot_counters :
    let p := (start 4 knot).detachAll [3, 0]
    (p.isActive 1 = true ∧ p.isActive 2 = true ∧ p.remaining = 2) ∧
      p.inDegree[1]? = some 1 ∧ p.outDegree[2]? = some 1 ∧
      totalDegree p.inDegreeOf p.activeNodes = totalDegree p.outDegreeOf p.activeNodes := by
  intro p
  obtain ⟨⟨-, hremaining⟩, hactive, hdegrees, htotal⟩ :=
    detachAll_counters_exact 4 knot [3, 0] (by unfold InRange; decide) (by decide) (by decide)
  have hone : p.isActive 1 = true := (hactive 1).mpr (by decide)
  have htwo : p.isActive 2 = true := (hactive 2).mpr (by decide)
  exact ⟨⟨hone, htwo, Nat.add_right_cancel hremaining⟩, (hdegrees 1 hone).1, (hdegrees 2 htwo).2.1,
    htotal⟩

end Peeling

end CodeAtlas.Layout
