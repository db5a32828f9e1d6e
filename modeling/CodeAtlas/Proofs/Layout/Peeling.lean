import CodeAtlas.Proofs.Layout.Acyclic
import Mathlib.Data.List.Nodup

/-! # Peeling a graph

While nodes are taken away, the degrees of the nodes that are still there count the arcs
from and to such nodes. So a sink is a node all of whose successors have been taken away.
In an acyclic graph the first round takes all nodes as sinks, and in the order that it
leaves behind every arc points forward.
-/

namespace CodeAtlas.Layout

/-- Of the elements that pass a test, those that are not `v` and those that are. -/
theorem countP_eq_countP_ne_add_count {test : ℕ → Bool} {v : ℕ} (hv : test v = true)
    (xs : List ℕ) : xs.countP test = xs.countP (fun u => test u && u != v) + xs.count v := by
  induction xs with
  | nil => rfl
  | cons x xs ih =>
      by_cases hx : x = v
      · subst hx
        simp [hv, ih]
        omega
      · cases htest : test x
        · simp [htest, hx, ih]
        · simp [htest, hx, ih]
          omega

namespace Peeling

variable {n : ℕ} {arcs : List Arc} {p : Peeling} {v : ℕ}

/-! ## Taking one node away -/

theorem length_discount (active : List Bool) (degrees : List Int) (nodes : List ℕ) :
    (discount active degrees nodes).length = degrees.length := by
  unfold discount
  induction nodes generalizing degrees with
  | nil => rfl
  | cons u nodes ih =>
      rw [List.foldl_cons, ih]
      split <;> simp

/-- Each occurrence of a node that is still there counts one arc less. -/
theorem getD_discount {active : List Bool} {degrees : List Int}
    (hlength : active.length = degrees.length) (nodes : List ℕ) (hv : active.getD v false = true) :
    (discount active degrees nodes).getD v 0 = degrees.getD v 0 - nodes.count v := by
  unfold discount
  induction nodes generalizing degrees with
  | nil => simp
  | cons u nodes ih =>
      rw [List.foldl_cons]
      by_cases hu : u = v
      · subst hu
        have hlt : u < degrees.length := by
          by_contra hge
          simp [List.getD_eq_getElem?_getD, hlength, hge] at hv
        rw [if_pos hv, ih (by simpa using hlength)]
        simp [List.getD_eq_getElem?_getD, hlt]
        omega
      · split
        · rw [ih (by simpa using hlength)]
          simp [List.getD_eq_getElem?_getD, hu]
        · rw [ih hlength]
          simp [hu]

theorem isActive_detach (p : Peeling) (v u : ℕ) :
    (p.detach v).isActive u = (p.isActive u && u != v) := by
  unfold isActive detach
  by_cases huv : u = v
  · subst huv
    by_cases hlt : u < p.active.length <;> simp [List.getD_eq_getElem?_getD, hlt]
  · simp [List.getD_eq_getElem?_getD, huv, Ne.symm huv]

theorem lt_of_isActive (h : p.isActive v = true) : v < p.active.length := by
  by_contra hge
  simp [isActive, List.getD_eq_getElem?_getD, hge] at h

/--
The counters of a graph on `n` nodes agree with the nodes that are still there: how many
there are, and how many arcs lead from and to them.
-/
structure Counts (n : ℕ) (arcs : List Arc) (p : Peeling) : Prop where
  arcs_eq : p.arcs = arcs
  length_active : p.active.length = n
  length_inDegree : p.inDegree.length = n
  length_outDegree : p.outDegree.length = n
  remaining_eq : p.remaining = p.activeNodes.length
  inDegree_eq : ∀ v, p.isActive v = true → p.inDegreeOf v = (predecessors arcs v).countP p.isActive
  outDegree_eq : ∀ v, p.isActive v = true → p.outDegreeOf v = (successors arcs v).countP p.isActive

theorem isActive_start : (start n arcs).isActive v = true ↔ v < n := by
  by_cases hlt : v < n <;> simp [isActive, start, List.getD_eq_getElem?_getD, hlt]

theorem mem_activeNodes : v ∈ p.activeNodes ↔ p.isActive v = true := by
  simp only [activeNodes, List.mem_filter, List.mem_range, and_iff_right_iff_imp]
  exact lt_of_isActive

theorem nodup_activeNodes (p : Peeling) : p.activeNodes.Nodup :=
  List.nodup_range.filter _

theorem activeNodes_start (n : ℕ) (arcs : List Arc) :
    (start n arcs).activeNodes = List.range n := by
  have hlength : (start n arcs).active.length = n := by simp [start]
  rw [activeNodes, hlength, List.filter_eq_self]
  intro v hv
  exact isActive_start.mpr (List.mem_range.mp hv)

theorem countP_isActive_start {around : List ℕ} (h : ∀ u ∈ around, u < n) :
    around.countP (start n arcs).isActive = around.length := by
  rw [List.countP_eq_length]
  intro u hu
  exact isActive_start.mpr (h u hu)

theorem Counts.start (hrange : InRange n arcs) : Counts n arcs (start n arcs) where
  arcs_eq := rfl
  length_active := by simp [Peeling.start]
  length_inDegree := by simp [Peeling.start]
  length_outDegree := by simp [Peeling.start]
  remaining_eq := by
    rw [activeNodes_start, List.length_range]
    rfl
  inDegree_eq v hv := by
    have hlt := isActive_start.mp hv
    rw [countP_isActive_start fun u hu => (hrange (u, v) (mem_predecessors.mp hu)).1]
    simp [Peeling.start, inDegreeOf, List.getD_eq_getElem?_getD, hlt]
  outDegree_eq v hv := by
    have hlt := isActive_start.mp hv
    rw [countP_isActive_start fun u hu => (hrange (v, u) (mem_successors.mp hu)).2]
    simp [Peeling.start, outDegreeOf, List.getD_eq_getElem?_getD, hlt]

theorem activeNodes_detach (p : Peeling) (v : ℕ) :
    (p.detach v).activeNodes = p.activeNodes.erase v := by
  have hlength : (p.detach v).active.length = p.active.length := by simp [detach]
  rw [(nodup_activeNodes p).erase_eq_filter, activeNodes, activeNodes, List.filter_filter, hlength]
  apply List.filter_congr
  intro u _
  rw [isActive_detach, Bool.and_comm]

/-- A degree that counts neighbours still there counts them also when `v` has gone. -/
theorem getD_discount_detach {degrees : List Int} (hlength : p.active.length = degrees.length)
    (hv : p.isActive v = true) {u : ℕ} (hu : (p.detach v).isActive u = true)
    {around nodes : List ℕ} (hcount : nodes.count u = around.count v)
    (hdegree : p.isActive u = true → degrees.getD u 0 = around.countP p.isActive) :
    (discount (p.active.set v false) degrees nodes).getD u 0 =
      around.countP (p.detach v).isActive := by
  have hafter : (p.detach v).isActive = fun w => p.isActive w && w != v :=
    funext (isActive_detach p v)
  have hbefore : p.isActive u = true := by
    rw [isActive_detach, Bool.and_eq_true] at hu
    exact hu.1
  have hsplit := countP_eq_countP_ne_add_count hv around
  have hold := hdegree hbefore
  have hlength' : (p.active.set v false).length = degrees.length := by simpa using hlength
  have hnew := getD_discount hlength' nodes hu
  rw [hafter, hnew, hcount]
  omega

theorem Counts.detach (h : Counts n arcs p) (hv : p.isActive v = true) :
    Counts n arcs (p.detach v) where
  arcs_eq := h.arcs_eq
  length_active := by simp [Peeling.detach, h.length_active]
  length_inDegree := by simp [Peeling.detach, length_discount, h.length_inDegree]
  length_outDegree := by simp [Peeling.detach, length_discount, h.length_outDegree]
  remaining_eq := by
    rw [activeNodes_detach, List.length_erase_of_mem (mem_activeNodes.mpr hv), ← h.remaining_eq]
    rfl
  inDegree_eq u hu := by
    have hcount : (successors p.arcs v).count u = (predecessors arcs u).count v := by
      rw [h.arcs_eq, count_successors, count_predecessors]
    have hlength : p.active.length = p.inDegree.length := by
      rw [h.length_active, h.length_inDegree]
    exact getD_discount_detach hlength hv hu hcount (h.inDegree_eq u)
  outDegree_eq u hu := by
    have hcount : (predecessors p.arcs v).count u = (successors arcs u).count v := by
      rw [h.arcs_eq, count_predecessors, count_successors]
    have hlength : p.active.length = p.outDegree.length := by
      rw [h.length_active, h.length_outDegree]
    exact getD_discount_detach hlength hv hu hcount (h.outDegree_eq u)

/-! ## Taking several nodes away -/

theorem isActive_detachAll (p : Peeling) (nodes : List ℕ) (v : ℕ) :
    (p.detachAll nodes).isActive v = true ↔ p.isActive v = true ∧ v ∉ nodes := by
  unfold detachAll
  induction nodes generalizing p with
  | nil => simp
  | cons u nodes ih =>
      rw [List.foldl_cons, ih, isActive_detach]
      simp [and_assoc]

theorem Counts.detachAll (h : Counts n arcs p) {nodes : List ℕ} (hnodup : nodes.Nodup)
    (hactive : ∀ v ∈ nodes, p.isActive v = true) : Counts n arcs (p.detachAll nodes) := by
  unfold Peeling.detachAll
  induction nodes generalizing p with
  | nil => exact h
  | cons u nodes ih =>
      rw [List.nodup_cons] at hnodup
      refine ih (h.detach (hactive u (by simp))) hnodup.2 ?_
      intro v hv
      have hne : v ≠ u := by
        rintro rfl
        exact hnodup.1 hv
      rw [isActive_detach, hactive v (by simp [hv])]
      simp [hne]

theorem remaining_detachAll (p : Peeling) (nodes : List ℕ) :
    (p.detachAll nodes).remaining = p.remaining - nodes.length := by
  unfold detachAll
  induction nodes generalizing p with
  | nil => rfl
  | cons u nodes ih =>
      rw [List.foldl_cons, ih, List.length_cons]
      simp only [detach]
      omega

theorem nodup_sinks (p : Peeling) : p.sinks.Nodup :=
  (nodup_activeNodes p).filter _

theorem isActive_of_mem_sinks (hv : v ∈ p.sinks) : p.isActive v = true :=
  mem_activeNodes.mp (List.mem_filter.mp hv).1

/-- A sink is a node that is still there and has no arc to a node that is. -/
theorem Counts.mem_sinks (h : Counts n arcs p) :
    v ∈ p.sinks ↔ p.isActive v = true ∧ ∀ t, (v, t) ∈ arcs → p.isActive t = false := by
  unfold sinks
  rw [List.mem_filter, mem_activeNodes, beq_iff_eq]
  refine and_congr_right fun hv => ?_
  rw [h.outDegree_eq v hv, Int.natCast_eq_zero, List.countP_eq_zero]
  simp

end Peeling

/-! ## Sinks first -/

namespace PartialOrdering

variable {n : ℕ} {arcs : List Arc} {o : PartialOrdering}

/--
Only sinks have been taken away. No arc leads from the back to a node that is still
there, and none leads from a later node of the back to an earlier one.
-/
structure SinksLast (n : ℕ) (arcs : List Arc) (o : PartialOrdering) : Prop where
  counts : o.peeling.Counts n arcs
  front_eq : o.front = []
  taken : ∀ v < n, o.peeling.isActive v = true ∨ v ∈ o.back
  closed : ∀ s ∈ o.back, ∀ t, (s, t) ∈ arcs → o.peeling.isActive t = false
  forward : o.back.Pairwise fun a b => (b, a) ∉ arcs

theorem SinksLast.start (hrange : InRange n arcs) : SinksLast n arcs (start n arcs) where
  counts := Peeling.Counts.start hrange
  front_eq := rfl
  taken v hv := Or.inl (Peeling.isActive_start.mpr hv)
  closed s hs := by cases hs
  forward := List.Pairwise.nil

/-- The order after the present sinks have been moved to the back. -/
def withSinks (o : PartialOrdering) : PartialOrdering :=
  ⟨o.peeling.detachAll o.peeling.sinks, o.front, o.peeling.sinks.reverse ++ o.back⟩

theorem SinksLast.withSinks (h : SinksLast n arcs o) : SinksLast n arcs o.withSinks where
  counts := h.counts.detachAll o.peeling.nodup_sinks fun _ => Peeling.isActive_of_mem_sinks
  front_eq := h.front_eq
  taken v hv := by
    show (o.peeling.detachAll o.peeling.sinks).isActive v = true ∨
      v ∈ o.peeling.sinks.reverse ++ o.back
    by_cases hsink : v ∈ o.peeling.sinks
    · exact Or.inr (by simp [hsink])
    · rcases h.taken v hv with hactive | hback
      · exact Or.inl ((Peeling.isActive_detachAll _ _ v).mpr ⟨hactive, hsink⟩)
      · exact Or.inr (by simp [hback])
  closed s hs t harc := by
    have hinactive : o.peeling.isActive t = false := by
      rcases List.mem_append.mp hs with hsink | hback
      · exact (h.counts.mem_sinks.mp (List.mem_reverse.mp hsink)).2 t harc
      · exact h.closed s hback t harc
    rw [Bool.eq_false_iff]
    intro hactive
    have hstill := ((Peeling.isActive_detachAll _ _ t).mp hactive).1
    rw [hinactive] at hstill
    cases hstill
  forward := by
    -- An arc to a present sink would leave a node that is no sink, or one of the back.
    have hsink : ∀ a ∈ o.peeling.sinks.reverse, ∀ b,
        (∀ t, (b, t) ∈ arcs → o.peeling.isActive t = false) → (b, a) ∉ arcs := by
      intro a ha b hb harc
      have hactive := Peeling.isActive_of_mem_sinks (List.mem_reverse.mp ha)
      rw [hb a harc] at hactive
      cases hactive
    refine List.pairwise_append.mpr ⟨?_, h.forward, ?_⟩
    · refine List.Pairwise.imp_of_mem ?_ (List.pairwise_of_forall (R := fun _ _ => True) (by simp))
      intro a b ha hb _
      exact hsink a ha b (h.counts.mem_sinks.mp (List.mem_reverse.mp hb)).2
    · intro a ha b hb
      exact hsink a ha b (h.closed b hb)

theorem takeSinks_succ (turns : ℕ) (o : PartialOrdering) (h : o.peeling.sinks ≠ []) :
    takeSinks (turns + 1) o = takeSinks turns o.withSinks := by
  rw [takeSinks]
  split
  · contradiction
  · rfl

theorem SinksLast.takeSinks (h : SinksLast n arcs o) (turns : ℕ) :
    SinksLast n arcs (takeSinks turns o) := by
  induction turns generalizing o with
  | zero => exact h
  | succ turns ih =>
      by_cases hsinks : o.peeling.sinks = []
      · simpa [PartialOrdering.takeSinks, hsinks] using h
      · rw [takeSinks_succ turns o hsinks]
        exact ih h.withSinks

/-- An acyclic graph always has a sink, so taking sinks goes on until no node is left. -/
theorem SinksLast.remaining_takeSinks (h : SinksLast n arcs o) (hacyclic : Acyclic arcs)
    {turns : ℕ} (hturns : o.peeling.remaining ≤ turns) :
    (PartialOrdering.takeSinks turns o).peeling.remaining = 0 := by
  induction turns generalizing o with
  | zero => exact Nat.le_zero.mp hturns
  | succ turns ih =>
      by_cases hsinks : o.peeling.sinks = []
      · have hnone : o.peeling.activeNodes = [] := by
          by_contra hne
          obtain ⟨v, hv, hout⟩ := hacyclic.exists_sink hne
          have hsink : v ∈ o.peeling.sinks := by
            refine h.counts.mem_sinks.mpr ⟨Peeling.mem_activeNodes.mp hv, ?_⟩
            intro t harc
            rw [Bool.eq_false_iff]
            intro hactive
            exact hout t (Peeling.mem_activeNodes.mpr hactive) harc
          rw [hsinks] at hsink
          cases hsink
        have hzero := h.counts.remaining_eq
        rw [hnone, List.length_nil] at hzero
        simpa [PartialOrdering.takeSinks, hsinks] using hzero
      · rw [takeSinks_succ turns o hsinks]
        apply ih h.withSinks
        have hless := o.peeling.remaining_detachAll o.peeling.sinks
        have hpos := List.length_pos_iff.mpr hsinks
        show (o.peeling.detachAll o.peeling.sinks).remaining ≤ turns
        omega

theorem rounds_of_remaining_eq_zero (turns : ℕ) (h : o.peeling.remaining = 0) :
    rounds turns o = o := by
  cases turns <;> simp [rounds, h]

theorem round_of_remaining_eq_zero
    (h : (PartialOrdering.takeSinks o.peeling.remaining o).peeling.remaining = 0) :
    o.round = PartialOrdering.takeSinks o.peeling.remaining o := by
  simp [round, h, takeSources]

/-- On an acyclic graph one round of sinks is all there is. -/
theorem sinksLast_rounds (hrange : InRange n arcs) (hacyclic : Acyclic arcs) :
    SinksLast n arcs (rounds n (PartialOrdering.start n arcs)) ∧
      (rounds n (PartialOrdering.start n arcs)).peeling.remaining = 0 := by
  have hstart := SinksLast.start hrange
  cases n with
  | zero => exact ⟨hstart, rfl⟩
  | succ n =>
      have hall := hstart.remaining_takeSinks hacyclic (Nat.le_refl _)
      have hround := round_of_remaining_eq_zero hall
      have hne : (PartialOrdering.start (n + 1) arcs).peeling.remaining ≠ 0 := Nat.succ_ne_zero n
      rw [rounds, if_neg hne, hround, rounds_of_remaining_eq_zero n hall]
      exact ⟨hstart.takeSinks _, hall⟩

theorem SinksLast.mem_back (h : SinksLast n arcs o) (hzero : o.peeling.remaining = 0) {v : ℕ}
    (hv : v < n) : v ∈ o.back := by
  rcases h.taken v hv with hactive | hback
  · have hlength := h.counts.remaining_eq
    rw [hzero, eq_comm, List.length_eq_zero_iff] at hlength
    have hmem := Peeling.mem_activeNodes.mpr hactive
    rw [hlength] at hmem
    cases hmem
  · exact hback

end PartialOrdering

/-- All arcs of an acyclic graph point forward in the greedy order. -/
theorem forward_greedyOrder {n : ℕ} {arcs : List Arc} (hrange : InRange n arcs)
    (hacyclic : Acyclic arcs) {arc : Arc} (harc : arc ∈ arcs) :
    forward (greedyOrder n arcs) arc = arc := by
  obtain ⟨hlast, hzero⟩ := PartialOrdering.sinksLast_rounds hrange hacyclic
  have horder : greedyOrder n arcs =
      (PartialOrdering.rounds n (PartialOrdering.start n arcs)).back := by
    simp [greedyOrder, hlast.front_eq]
  have hsource := hlast.mem_back hzero (hrange arc harc).1
  have htarget := hlast.mem_back hzero (hrange arc harc).2
  have hforward := List.pairwise_iff_getElem.mp hlast.forward
  rw [← horder] at hsource htarget hforward
  unfold forward
  rw [if_neg]
  intro hback
  apply hforward _ _ (List.idxOf_lt_length_iff.mpr htarget) (List.idxOf_lt_length_iff.mpr hsource)
    hback
  simpa using harc

theorem breakCycles_of_acyclic {n : ℕ} {arcs : List Arc} (hrange : InRange n arcs)
    (hacyclic : Acyclic arcs) : breakCycles n arcs = arcs := by
  refine (List.map_congr_left ?_).trans (List.map_id arcs)
  exact fun arc harc => forward_greedyOrder hrange hacyclic harc

end CodeAtlas.Layout
