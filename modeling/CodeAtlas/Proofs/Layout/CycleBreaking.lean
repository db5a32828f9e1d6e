import CodeAtlas.Proofs.Layout.Moves

/-! # What cycle breaking achieves

The greedy order lists every node once, so arcs that point forward in it form no cycle.
A node that is moved to the front turns at most as many arcs around as it keeps, and a node
that is moved to the back turns none, so over the whole run at most half of the arcs are
turned. A graph without cycles is left as it is.
-/

namespace CodeAtlas.Layout

variable {n : ℕ} {arcs : List Arc} {order : List ℕ} {v : ℕ} {arc : Arc}

/-! ## Arcs that point backward -/

/-- How many arcs point backward in the order. Arcs from other nodes do not count. -/
def backward (arcs : List Arc) (order : List ℕ) : ℕ :=
  arcs.countP fun arc => arc.1 ∈ order ∧ order.idxOf arc.2 < order.idxOf arc.1

theorem backward_cons (hv : v ∉ order) :
    backward arcs (v :: order) = links arcs order [v] + backward arcs order := by
  have hlast := List.idxOf_eq_length hv
  -- Later nodes keep their relative positions, and an arc to `v` points backward.
  apply countP_eq_add
  · intro arc
    have hle := List.idxOf_le_length (a := arc.1) (l := order)
    simp only [decide_eq_true_eq, List.mem_cons, List.not_mem_nil, or_false, List.idxOf_cons]
    grind
  · intro arc hlink hback
    have hle := List.idxOf_le_length (a := arc.1) (l := order)
    simp only [decide_eq_true_eq, List.mem_singleton] at hlink hback
    rw [hlink.2] at hback
    omega

theorem backward_concat (hv : v ∉ order) :
    backward arcs (order ++ [v]) = links arcs [v] order + backward arcs order := by
  -- Earlier nodes keep their positions, and an arc from `v` points backward.
  apply countP_eq_add
  · intro arc
    have hsource := List.idxOf_lt_length_iff (a := arc.1) (l := order)
    have htarget := List.idxOf_lt_length_iff (a := arc.2) (l := order)
    simp only [decide_eq_true_eq, List.mem_append, List.mem_singleton, List.idxOf_append]
    grind
  · intro arc hlink hback
    simp only [decide_eq_true_eq, List.mem_singleton] at hlink hback
    rw [hlink.1] at hback
    exact hv hback.1

/-- A node put first turns the arcs into it around, and keeps those out of it. -/
theorem two_mul_backward_cons_le (hv : v ∉ order)
    (hlinks : links arcs (v :: order) [v] ≤ links arcs [v] (v :: order))
    (hhalf : 2 * backward arcs order ≤ links arcs order order) :
    2 * backward arcs (v :: order) ≤ links arcs (v :: order) (v :: order) := by
  rw [links_cons_left hv, links_cons_right hv] at hlinks
  rw [backward_cons hv, links_cons_left hv, links_cons_right hv, links_cons_right hv]
  omega

/-- A node from which no arc leads may be put last. -/
theorem two_mul_backward_concat_le (hv : v ∉ order) (hlinks : links arcs [v] (v :: order) = 0)
    (hhalf : 2 * backward arcs order ≤ links arcs order order) :
    2 * backward arcs (order ++ [v]) ≤ links arcs (order ++ [v]) (order ++ [v]) := by
  have hmore := links_mono arcs (List.subset_append_left order [v])
    (List.subset_append_left order [v])
  rw [links_cons_right hv] at hlinks
  rw [backward_concat hv]
  omega

/-! ## The order that a run leaves behind -/

theorem Peeling.cons_perm_activeNodes {p : Peeling} {nodes : List ℕ}
    (hv : p.isActive v = true) (hperm : nodes.Perm (p.detach v).activeNodes) :
    v ∉ nodes ∧ (v :: nodes).Perm p.activeNodes := by
  rw [activeNodes_detach] at hperm
  have hwhole : (v :: nodes).Perm p.activeNodes :=
    (hperm.cons v).trans (List.perm_cons_erase (mem_activeNodes.mpr hv)).symm
  have hnodup := hwhole.nodup_iff.mpr (nodup_activeNodes p)
  exact ⟨(List.nodup_cons.mp hnodup).1, hwhole⟩

namespace PartialOrdering

variable {o o' : PartialOrdering}

/--
A run that takes all nodes puts those that were there between the front and the back. At
least as many of the arcs among them point forward as backward.
-/
theorem Run.exists_middle (hrun : Run arcs o o') (hdone : o'.peeling.activeNodes = []) :
    ∃ middle, o'.front ++ o'.back = o.front ++ middle ++ o.back ∧
      middle.Perm o.peeling.activeNodes ∧
      2 * backward arcs middle ≤ links arcs middle middle := by
  -- What is left after the first move forms the middle of a shorter run.
  induction hrun using Relation.ReflTransGen.head_induction_on with
  | refl => exact ⟨[], by simp, by rw [hdone], by simp [backward]⟩
  | head hmove _ ih =>
      obtain ⟨middle, horder, hperm, hhalf⟩ := ih
      cases hmove with
      | @toFront v hactive hlinks =>
          obtain ⟨hnew, hwhole⟩ := Peeling.cons_perm_activeNodes hactive hperm
          rw [← links_perm hwhole (List.Perm.refl [v]),
            ← links_perm (List.Perm.refl [v]) hwhole] at hlinks
          refine ⟨v :: middle, ?_, hwhole, two_mul_backward_cons_le hnew hlinks hhalf⟩
          rw [horder]
          simp [toFront]
      | @toBack v hactive hlinks =>
          obtain ⟨hnew, hwhole⟩ := Peeling.cons_perm_activeNodes hactive hperm
          rw [← links_perm (List.Perm.refl [v]) hwhole] at hlinks
          refine ⟨middle ++ [v], ?_, ?_, two_mul_backward_concat_le hnew hlinks hhalf⟩
          · rw [horder]
            simp [toBack]
          · exact (List.perm_append_singleton v middle).trans hwhole

end PartialOrdering

/-- The greedy order lists every node once, and at most half of the arcs point backward in it. -/
theorem greedyOrder_spec (hrange : InRange n arcs) :
    (greedyOrder n arcs).Perm (List.range n) ∧
      2 * backward arcs (greedyOrder n arcs) ≤ arcs.length := by
  have hcounts := Peeling.Counts.start hrange
  obtain ⟨hrun, hzero⟩ :=
    PartialOrdering.run_rounds (o := PartialOrdering.start n arcs) hcounts (Nat.le_refl n)
  have hdone := (hrun.counts hcounts).remaining_eq
  rw [hzero, eq_comm, List.length_eq_zero_iff] at hdone
  obtain ⟨middle, horder, hperm, hhalf⟩ := hrun.exists_middle hdone
  have hmiddle : greedyOrder n arcs = middle := by
    simpa [greedyOrder, PartialOrdering.start] using horder
  rw [hmiddle]
  refine ⟨?_, Nat.le_trans hhalf List.countP_le_length⟩
  rw [← Peeling.activeNodes_start n arcs]
  exact hperm

/-! ## Arcs in the greedy order -/

theorem forward_ne_iff : forward order arc ≠ arc ↔ order.idxOf arc.2 < order.idxOf arc.1 := by
  unfold forward
  by_cases hback : order.idxOf arc.2 < order.idxOf arc.1
  · rw [if_pos hback]
    refine iff_of_true ?_ hback
    intro hsame
    have hends : arc.2 = arc.1 := congrArg Prod.fst hsame
    rw [hends] at hback
    exact Nat.lt_irrefl _ hback
  · rw [if_neg hback]
    exact iff_of_false (fun hne => hne rfl) hback

theorem idxOf_forward_lt (hsource : arc.1 ∈ order) (hne : arc.1 ≠ arc.2) :
    order.idxOf (forward order arc).1 < order.idxOf (forward order arc).2 := by
  unfold forward
  by_cases hback : order.idxOf arc.2 < order.idxOf arc.1
  · rw [if_pos hback]
    exact hback
  · have hdiffer : order.idxOf arc.1 ≠ order.idxOf arc.2 := by
      rw [ne_eq, List.idxOf_inj hsource]
      exact hne
    rw [if_neg hback]
    omega

theorem forward_eq_or_eq_swap (order : List ℕ) (arc : Arc) :
    forward order arc = arc ∨ forward order arc = arc.swap := by
  unfold forward
  split
  · exact Or.inr rfl
  · exact Or.inl rfl

theorem acyclic_breakCycles (hrange : InRange n arcs) (hloops : ∀ arc ∈ arcs, arc.1 ≠ arc.2) :
    Acyclic (breakCycles n arcs) := by
  obtain ⟨hperm, -⟩ := greedyOrder_spec hrange
  apply acyclic_of_height fun v => (greedyOrder n arcs).idxOf v
  intro turned hturned
  obtain ⟨arc, harc, rfl⟩ := List.mem_map.mp hturned
  have hsource := hperm.mem_iff.mpr (List.mem_range.mpr (hrange arc harc).1)
  exact idxOf_forward_lt hsource (hloops arc harc)

/-! ## Turned arcs -/

/--
Every arc keeps its place in the list, as it was or turned around, and no cycle is left
unless there is a loop, which no turning breaks.
-/
theorem breakCycles_acyclic_iff_no_loops (n : ℕ) (arcs : List Arc) (hrange : InRange n arcs) :
    (breakCycles n arcs).length = arcs.length ∧
    (∀ (i : ℕ) (arc : Arc), arcs[i]? = some arc →
      (breakCycles n arcs)[i]? = some arc ∨ (breakCycles n arcs)[i]? = some arc.swap) ∧
    (Acyclic (breakCycles n arcs) ↔ ∀ arc ∈ arcs, arc.1 ≠ arc.2) := by
  refine ⟨List.length_map _, ?_, ?_, acyclic_breakCycles hrange⟩
  · intro i arc harc
    rw [breakCycles, List.getElem?_map, harc, Option.map_some]
    cases forward_eq_or_eq_swap (greedyOrder n arcs) arc with
    | inl hkept => exact Or.inl (congrArg some hkept)
    | inr hturned => exact Or.inr (congrArg some hturned)
  · intro hacyclic arc harc hloop
    have hkept : forward (greedyOrder n arcs) arc = arc := by
      by_contra hturned
      rw [← ne_eq, forward_ne_iff, hloop] at hturned
      exact Nat.lt_irrefl _ hturned
    exact hacyclic.ne_of_mem (List.mem_map.mpr ⟨arc, harc, hkept⟩) hloop

/-- Two cycles through the arc from 0 to 1, one arc listed twice, and a source. -/
def knottedArcs : List Arc :=
  [(0, 1), (1, 2), (2, 0), (2, 0), (1, 0), (3, 1)]

/-- One turned arc breaks both cycles. -/
theorem knottedArcs_broken :
    InRange 4 knottedArcs ∧ (∀ arc ∈ knottedArcs, arc.1 ≠ arc.2) ∧
    breakCycles 4 knottedArcs = [(1, 0), (1, 2), (2, 0), (2, 0), (1, 0), (3, 1)] ∧
    Acyclic (breakCycles 4 knottedArcs) := by
  have hrange : InRange 4 knottedArcs := by simp [InRange, knottedArcs]
  have hloops : ∀ arc ∈ knottedArcs, arc.1 ≠ arc.2 := by decide
  have hbroken := breakCycles_acyclic_iff_no_loops 4 knottedArcs hrange
  exact ⟨hrange, hloops, by decide, hbroken.2.2.mpr hloops⟩

theorem countP_range_map_ne {α : Type} [DecidableEq α] (f : α → α) (xs : List α) :
    (List.range xs.length).countP (fun i => (xs.map f)[i]? ≠ xs[i]?) =
      xs.countP fun x => f x ≠ x := by
  induction xs with
  | nil => rfl
  | cons x xs ih =>
      rw [List.length_cons, List.range_succ_eq_map, List.countP_cons, List.countP_map,
        List.countP_cons, ← ih]
      simp [Function.comp_def]

/-- All cycles are broken by turning around at most half of the arcs. -/
theorem breakCycles_turns_at_most_half (n : ℕ) (arcs : List Arc) (hrange : InRange n arcs)
    (hloops : ∀ arc ∈ arcs, arc.1 ≠ arc.2) :
    Acyclic (breakCycles n arcs) ∧
    (List.range arcs.length).countP (fun i => (breakCycles n arcs)[i]? ≠ arcs[i]?) ≤
      arcs.length / 2 := by
  refine ⟨acyclic_breakCycles hrange hloops, ?_⟩
  obtain ⟨hperm, hhalf⟩ := greedyOrder_spec hrange
  have hcount : arcs.countP (fun arc => forward (greedyOrder n arcs) arc ≠ arc) =
      backward arcs (greedyOrder n arcs) := by
    apply List.countP_congr
    intro arc harc
    have hsource := hperm.mem_iff.mpr (List.mem_range.mpr (hrange arc harc).1)
    simp only [decide_eq_true_eq, forward_ne_iff, hsource, true_and]
  rw [breakCycles, countP_range_map_ne, hcount]
  omega

/-- Two nodes that call each other, and two more. -/
def mutualArcs : List Arc :=
  [(0, 1), (1, 0), (2, 3), (3, 2)]

/-- Each pair needs one turned arc, so no fewer than half would do. -/
theorem mutualArcs_half_turned :
    InRange 4 mutualArcs ∧ (∀ arc ∈ mutualArcs, arc.1 ≠ arc.2) ∧
    Acyclic (breakCycles 4 mutualArcs) ∧
    (List.range 4).countP (fun i => (breakCycles 4 mutualArcs)[i]? ≠ mutualArcs[i]?) = 2 := by
  have hrange : InRange 4 mutualArcs := by simp [InRange, mutualArcs]
  have hloops : ∀ arc ∈ mutualArcs, arc.1 ≠ arc.2 := by decide
  have hbroken := breakCycles_turns_at_most_half 4 mutualArcs hrange hloops
  refine ⟨hrange, hloops, hbroken.1, Nat.le_antisymm hbroken.2 ?_⟩
  decide

/-- Exactly the graphs without cycles have no loop and are left as they are. -/
theorem acyclic_iff_breakCycles_eq_self (n : ℕ) (arcs : List Arc) (hrange : InRange n arcs) :
    Acyclic arcs ↔ breakCycles n arcs = arcs ∧ ∀ arc ∈ arcs, arc.1 ≠ arc.2 := by
  constructor
  · intro hacyclic
    exact ⟨breakCycles_of_acyclic hrange hacyclic, fun arc => hacyclic.ne_of_mem⟩
  · intro h
    have hbroken := acyclic_breakCycles hrange h.2
    rw [h.1] at hbroken
    exact hbroken

/-- Arcs that lead downward, one of them twice. -/
def descendingArcs : List Arc :=
  [(3, 1), (1, 0), (3, 1), (2, 0)]

theorem descendingArcs_kept :
    InRange 4 descendingArcs ∧ Acyclic descendingArcs ∧
    breakCycles 4 descendingArcs = descendingArcs := by
  have hrange : InRange 4 descendingArcs := by simp [InRange, descendingArcs]
  have hacyclic : Acyclic descendingArcs := acyclic_of_height (fun v => 3 - v) (by decide)
  have hkept := (acyclic_iff_breakCycles_eq_self 4 descendingArcs hrange).mp hacyclic
  exact ⟨hrange, hacyclic, hkept.1⟩

end CodeAtlas.Layout
