import CodeAtlas.Proofs.Layout.Peeling
import Mathlib.Data.List.MinMax

/-! # The greedy order, one move at a time

Sinks and sources are taken away in batches and busy nodes one by one, but every step is a
move of one node: to the back when no arc leads from it to a node that is still there, to
the front when at least as many arcs lead out of it as into it. Whatever is shown of one
move holds of the whole run, and the run ends only when no node is left.
-/

namespace CodeAtlas.Layout

/-! ## Arcs between two lists of nodes -/

/-- How many arcs lead from a node of the first list to a node of the second. -/
def links (arcs : List Arc) (xs ys : List ℕ) : ℕ :=
  arcs.countP fun arc => arc.1 ∈ xs ∧ arc.2 ∈ ys

/-- Arcs that pass one of two tests, and none passes both. -/
theorem countP_eq_add {arcs : List Arc} {test left right : Arc → Bool}
    (heither : ∀ arc, test arc = true ↔ left arc = true ∨ right arc = true)
    (hboth : ∀ arc, left arc = true → ¬ right arc = true) :
    arcs.countP test = arcs.countP left + arcs.countP right := by
  rw [List.countP_eq_countP_filter_add arcs test left, List.countP_filter, List.countP_filter]
  congr 1
  · apply List.countP_congr
    intro arc _
    rw [Bool.and_eq_true, heither arc]
    exact ⟨And.right, fun hleft => ⟨Or.inl hleft, hleft⟩⟩
  · apply List.countP_congr
    intro arc _
    have hexclusive := hboth arc
    rw [Bool.and_eq_true, heither arc, Bool.not_eq_true']
    grind

section Links

variable {arcs : List Arc} {xs xs' ys ys' zs : List ℕ} {v : ℕ}

theorem links_mono (arcs : List Arc) (hx : xs ⊆ xs') (hy : ys ⊆ ys') :
    links arcs xs ys ≤ links arcs xs' ys' := by
  apply List.countP_mono_left
  intro arc _ harc
  rw [decide_eq_true_eq] at harc ⊢
  exact ⟨hx harc.1, hy harc.2⟩

theorem links_perm (hx : xs.Perm xs') (hy : ys.Perm ys') :
    links arcs xs ys = links arcs xs' ys' :=
  Nat.le_antisymm (links_mono arcs hx.subset hy.subset)
    (links_mono arcs hx.symm.subset hy.symm.subset)

theorem links_cons_left (hv : v ∉ xs) :
    links arcs (v :: xs) ys = links arcs [v] ys + links arcs xs ys := by
  apply countP_eq_add
  · intro arc
    simp only [decide_eq_true_eq, List.mem_cons, List.not_mem_nil, or_false]
    exact or_and_right
  · intro arc hsingle hrest
    simp only [decide_eq_true_eq, List.mem_singleton] at hsingle hrest
    rw [hsingle.1] at hrest
    exact hv hrest.1

theorem links_cons_right (hv : v ∉ ys) :
    links arcs xs (v :: ys) = links arcs xs [v] + links arcs xs ys := by
  have hswap : ∀ as bs, links arcs as bs = links (arcs.map Prod.swap) bs as := by
    intro as bs
    simp only [links, List.countP_map, Function.comp_def, Prod.fst_swap, Prod.snd_swap]
    simp only [and_comm]
  rw [hswap, links_cons_left hv, ← hswap, ← hswap]

/-- If more arcs lead to each node than from it, more lead to all of them than from them. -/
theorem links_add_length_le (hnodup : xs.Nodup)
    (h : ∀ v ∈ xs, links arcs [v] zs < links arcs zs [v]) :
    links arcs xs zs + xs.length ≤ links arcs zs xs := by
  induction xs with
  | nil => simp [links]
  | cons v xs ih =>
      rw [List.nodup_cons] at hnodup
      have hv := h v List.mem_cons_self
      have hrest := ih hnodup.2 fun u hu => h u (List.mem_cons_of_mem v hu)
      rw [links_cons_left hnodup.1, links_cons_right hnodup.1, List.length_cons]
      omega

/-- Among themselves as many arcs lead from the nodes as to them, so one node is not in deficit. -/
theorem exists_links_le (arcs : List Arc) (hnodup : xs.Nodup) (hne : xs ≠ []) :
    ∃ v ∈ xs, links arcs xs [v] ≤ links arcs [v] xs := by
  by_contra hnone
  have hdeficit : ∀ v ∈ xs, links arcs [v] xs < links arcs xs [v] := by
    intro v hv
    by_contra hle
    exact hnone ⟨v, hv, Nat.le_of_not_lt hle⟩
  have htotal := links_add_length_le hnodup hdeficit
  have hpos := List.length_pos_iff.mpr hne
  omega

theorem countP_successors {test : ℕ → Bool} (h : ∀ u, test u = true ↔ u ∈ ys) :
    (successors arcs v).countP test = links arcs [v] ys := by
  unfold successors links
  rw [List.countP_filterMap]
  apply List.countP_congr
  intro arc _
  by_cases hsource : arc.1 = v <;> simp [hsource, h]

theorem countP_predecessors {test : ℕ → Bool} (h : ∀ u, test u = true ↔ u ∈ xs) :
    (predecessors arcs v).countP test = links arcs xs [v] := by
  unfold predecessors links
  rw [List.countP_filterMap]
  apply List.countP_congr
  intro arc _
  by_cases htarget : arc.2 = v <;> simp [htarget, h]

end Links

/-! ## Sinks, sources and the busiest node -/

namespace Peeling

variable {n : ℕ} {arcs : List Arc} {p : Peeling} {v : ℕ}

theorem Counts.outDegreeOf_eq_links (h : Counts n arcs p) (hv : p.isActive v = true) :
    p.outDegreeOf v = links arcs [v] p.activeNodes := by
  rw [h.outDegree_eq v hv, countP_successors fun _ => mem_activeNodes.symm]

theorem Counts.inDegreeOf_eq_links (h : Counts n arcs p) (hv : p.isActive v = true) :
    p.inDegreeOf v = links arcs p.activeNodes [v] := by
  rw [h.inDegree_eq v hv, countP_predecessors fun _ => mem_activeNodes.symm]

theorem exists_busiest (hne : p.activeNodes ≠ []) :
    ∃ v, p.busiest? = some v ∧ p.isActive v = true ∧
      ∀ u ∈ p.activeNodes, p.surplus u ≤ p.surplus v := by
  have hargmax : p.busiest? = p.activeNodes.argmax p.surplus := by
    unfold busiest? List.argmax
    congr 1
    funext best v
    cases best <;> rfl
  rw [hargmax]
  cases hbest : p.activeNodes.argmax p.surplus with
  | none => exact absurd (List.argmax_eq_none.mp hbest) hne
  | some v =>
      refine ⟨v, rfl, mem_activeNodes.mp (List.argmax_mem hbest), ?_⟩
      exact fun u hu => List.le_of_mem_argmax hu hbest

/-- Some node has a surplus that is not negative, so the busiest one has. -/
theorem Counts.exists_links_busiest (h : Counts n arcs p) (hleft : 0 < p.remaining) :
    ∃ v, p.busiest? = some v ∧ p.isActive v = true ∧
      links arcs p.activeNodes [v] ≤ links arcs [v] p.activeNodes := by
  rw [h.remaining_eq, List.length_pos_iff] at hleft
  obtain ⟨v, hv, hactive, hgreatest⟩ := exists_busiest hleft
  obtain ⟨u, hu, hbalance⟩ := exists_links_le arcs (nodup_activeNodes p) hleft
  have huactive := mem_activeNodes.mp hu
  have hsurplus := hgreatest u hu
  unfold surplus at hsurplus
  rw [h.outDegreeOf_eq_links hactive, h.inDegreeOf_eq_links hactive,
    h.outDegreeOf_eq_links huactive, h.inDegreeOf_eq_links huactive] at hsurplus
  exact ⟨v, hv, hactive, by omega⟩

theorem Counts.links_sink (h : Counts n arcs p) (hv : v ∈ p.sinks) :
    p.isActive v = true ∧ links arcs [v] p.activeNodes = 0 := by
  have hactive := isActive_of_mem_sinks hv
  have hzero := (List.mem_filter.mp hv).2
  rw [beq_iff_eq, h.outDegreeOf_eq_links hactive] at hzero
  exact ⟨hactive, by omega⟩

theorem Counts.links_source (h : Counts n arcs p) (hv : v ∈ p.sources) :
    p.isActive v = true ∧ links arcs p.activeNodes [v] = 0 := by
  have hactive := mem_activeNodes.mp (List.mem_filter.mp hv).1
  have hzero := (List.mem_filter.mp hv).2
  rw [beq_iff_eq, h.inDegreeOf_eq_links hactive] at hzero
  exact ⟨hactive, by omega⟩

theorem nodup_sources (p : Peeling) : p.sources.Nodup :=
  (nodup_activeNodes p).filter _

end Peeling

/-! ## Moves -/

namespace PartialOrdering

variable {n : ℕ} {arcs : List Arc} {o o' : PartialOrdering} {v : ℕ}

/-- The order after a node has been moved to the front. -/
def toFront (o : PartialOrdering) (v : ℕ) : PartialOrdering :=
  ⟨o.peeling.detach v, o.front ++ [v], o.back⟩

/-- The order after a node has been moved to the back. -/
def toBack (o : PartialOrdering) (v : ℕ) : PartialOrdering :=
  ⟨o.peeling.detach v, o.front, v :: o.back⟩

/--
One node that is still there is moved. It goes to the front if at least as many arcs lead
from it to such nodes as lead to it, and to the back if no arc leads from it.
-/
inductive Move (arcs : List Arc) : PartialOrdering → PartialOrdering → Prop
  | toFront {o : PartialOrdering} {v : ℕ} (hactive : o.peeling.isActive v = true)
      (hlinks : links arcs o.peeling.activeNodes [v] ≤ links arcs [v] o.peeling.activeNodes) :
      Move arcs o (o.toFront v)
  | toBack {o : PartialOrdering} {v : ℕ} (hactive : o.peeling.isActive v = true)
      (hlinks : links arcs [v] o.peeling.activeNodes = 0) :
      Move arcs o (o.toBack v)

/-- Any number of moves. -/
def Run (arcs : List Arc) : PartialOrdering → PartialOrdering → Prop :=
  Relation.ReflTransGen (Move arcs)

theorem Move.exists_detach (h : Move arcs o o') :
    ∃ v, o.peeling.isActive v = true ∧ o'.peeling = o.peeling.detach v := by
  cases h with
  | toFront hactive _ => exact ⟨_, hactive, rfl⟩
  | toBack hactive _ => exact ⟨_, hactive, rfl⟩

theorem Move.counts (h : Move arcs o o') (hcounts : o.peeling.Counts n arcs) :
    o'.peeling.Counts n arcs := by
  obtain ⟨v, hactive, heq⟩ := h.exists_detach
  rw [heq]
  exact hcounts.detach hactive

theorem Move.remaining_le (h : Move arcs o o') : o'.peeling.remaining ≤ o.peeling.remaining := by
  obtain ⟨v, -, heq⟩ := h.exists_detach
  rw [heq]
  exact Nat.sub_le _ _

theorem Run.counts (h : Run arcs o o') (hcounts : o.peeling.Counts n arcs) :
    o'.peeling.Counts n arcs := by
  induction h with
  | refl => exact hcounts
  | tail _ hmove ih => exact hmove.counts ih

theorem Run.remaining_le (h : Run arcs o o') : o'.peeling.remaining ≤ o.peeling.remaining := by
  induction h with
  | refl => exact Nat.le_refl _
  | tail _ hmove ih => exact Nat.le_trans hmove.remaining_le ih

/-! ## Batches of sinks and sources -/

/--
Nodes that may be moved together may be moved one after the other: what allows the move of
a node still allows it when other nodes have gone.
-/
theorem run_foldl {place : PartialOrdering → ℕ → PartialOrdering} (idle : List ℕ → ℕ → Prop)
    (hplace : ∀ o v, (place o v).peeling = o.peeling.detach v)
    (hmove : ∀ o v, o.peeling.isActive v = true → idle o.peeling.activeNodes v →
      Move arcs o (place o v))
    (hmono : ∀ xs ys v, ys ⊆ xs → idle xs v → idle ys v)
    {nodes : List ℕ} (hnodup : nodes.Nodup)
    (hnodes : ∀ v ∈ nodes, o.peeling.isActive v = true ∧ idle o.peeling.activeNodes v) :
    Run arcs o (nodes.foldl place o) := by
  induction nodes generalizing o with
  | nil => exact Relation.ReflTransGen.refl
  | cons u nodes ih =>
      rw [List.nodup_cons] at hnodup
      obtain ⟨hactive, hidle⟩ := hnodes u List.mem_cons_self
      refine Relation.ReflTransGen.head (hmove o u hactive hidle) (ih hnodup.2 ?_)
      intro v hv
      obtain ⟨hvactive, hvidle⟩ := hnodes v (List.mem_cons_of_mem u hv)
      have hne : v ≠ u := fun heq => hnodup.1 (heq ▸ hv)
      rw [hplace, Peeling.isActive_detach, Peeling.activeNodes_detach]
      exact ⟨by simp [hvactive, hne], hmono _ _ v List.erase_subset hvidle⟩

theorem foldl_toBack (o : PartialOrdering) (nodes : List ℕ) :
    nodes.foldl toBack o = ⟨o.peeling.detachAll nodes, o.front, nodes.reverse ++ o.back⟩ := by
  induction nodes generalizing o with
  | nil => rfl
  | cons u nodes ih =>
      rw [List.foldl_cons, ih]
      simp [toBack, Peeling.detachAll]

theorem foldl_toFront (o : PartialOrdering) (nodes : List ℕ) :
    nodes.foldl toFront o = ⟨o.peeling.detachAll nodes, o.front ++ nodes, o.back⟩ := by
  induction nodes generalizing o with
  | nil => simp [Peeling.detachAll]
  | cons u nodes ih =>
      rw [List.foldl_cons, ih]
      simp [toFront, Peeling.detachAll]

/-- The order after the present sources have been moved to the front. -/
def withSources (o : PartialOrdering) : PartialOrdering :=
  ⟨o.peeling.detachAll o.peeling.sources, o.front ++ o.peeling.sources, o.back⟩

theorem run_withSinks (h : o.peeling.Counts n arcs) : Run arcs o o.withSinks := by
  rw [withSinks, ← foldl_toBack]
  refine run_foldl (fun xs v => links arcs [v] xs = 0) (fun _ _ => rfl)
    (fun _ _ => Move.toBack) ?_ o.peeling.nodup_sinks fun v hv => h.links_sink hv
  intro xs ys v hsub hzero
  have hle := links_mono arcs (List.Subset.refl [v]) hsub
  omega

theorem run_withSources (h : o.peeling.Counts n arcs) : Run arcs o o.withSources := by
  rw [withSources, ← foldl_toFront]
  refine run_foldl (fun xs v => links arcs xs [v] = 0) (fun _ _ => rfl) ?_ ?_
    o.peeling.nodup_sources fun v hv => h.links_source hv
  · intro o v hactive hzero
    exact Move.toFront hactive (by omega)
  · intro xs ys v hsub hzero
    have hle := links_mono arcs hsub (List.Subset.refl [v])
    omega

theorem takeSources_succ (turns : ℕ) (o : PartialOrdering) (h : o.peeling.sources ≠ []) :
    takeSources (turns + 1) o = takeSources turns o.withSources := by
  rw [takeSources]
  split
  · contradiction
  · rfl

theorem run_takeSinks (h : o.peeling.Counts n arcs) (turns : ℕ) :
    Run arcs o (takeSinks turns o) := by
  induction turns generalizing o with
  | zero => exact Relation.ReflTransGen.refl
  | succ turns ih =>
      by_cases hsinks : o.peeling.sinks = []
      · have hstop : takeSinks (turns + 1) o = o := by simp [takeSinks, hsinks]
        rw [hstop]
        exact Relation.ReflTransGen.refl
      · rw [takeSinks_succ turns o hsinks]
        have hbatch := run_withSinks h
        exact Relation.ReflTransGen.trans hbatch (ih (hbatch.counts h))

theorem run_takeSources (h : o.peeling.Counts n arcs) (turns : ℕ) :
    Run arcs o (takeSources turns o) := by
  induction turns generalizing o with
  | zero => exact Relation.ReflTransGen.refl
  | succ turns ih =>
      by_cases hsources : o.peeling.sources = []
      · have hstop : takeSources (turns + 1) o = o := by simp [takeSources, hsources]
        rw [hstop]
        exact Relation.ReflTransGen.refl
      · rw [takeSources_succ turns o hsources]
        have hbatch := run_withSources h
        exact Relation.ReflTransGen.trans hbatch (ih (hbatch.counts h))

/-! ## Rounds -/

theorem takeBusiest_eq_toFront (h : o.peeling.busiest? = some v) :
    o.takeBusiest = o.toFront v := by
  simp [takeBusiest, toFront, h]

/-- A round is a run, and it moves at least one node if any is left. -/
theorem run_round (h : o.peeling.Counts n arcs) (hleft : 0 < o.peeling.remaining) :
    Run arcs o o.round ∧ o.round.peeling.remaining < o.peeling.remaining := by
  have hsinks := run_takeSinks h o.peeling.remaining
  generalize hmid : takeSinks o.peeling.remaining o = mid at hsinks
  have hsources := run_takeSources (hsinks.counts h) mid.peeling.remaining
  generalize hlate : takeSources mid.peeling.remaining mid = late at hsources
  have hrun : Run arcs o late := Relation.ReflTransGen.trans hsinks hsources
  have hle := hrun.remaining_le
  have hround : o.round = if late.peeling.remaining = 0 then late else late.takeBusiest := by
    simp only [round, hmid, hlate]
  rw [hround]
  by_cases hzero : late.peeling.remaining = 0
  · rw [if_pos hzero]
    exact ⟨hrun, by omega⟩
  · have hcounts := hrun.counts h
    obtain ⟨v, hv, hactive, hlinks⟩ := hcounts.exists_links_busiest (by omega)
    rw [if_neg hzero, takeBusiest_eq_toFront hv]
    have hless : (late.toFront v).peeling.remaining = late.peeling.remaining - 1 := rfl
    exact ⟨Relation.ReflTransGen.tail hrun (Move.toFront hactive hlinks), by omega⟩

theorem run_rounds (h : o.peeling.Counts n arcs) {turns : ℕ}
    (hturns : o.peeling.remaining ≤ turns) :
    Run arcs o (rounds turns o) ∧ (rounds turns o).peeling.remaining = 0 := by
  induction turns generalizing o with
  | zero => exact ⟨Relation.ReflTransGen.refl, Nat.le_zero.mp hturns⟩
  | succ turns ih =>
      rw [rounds]
      by_cases hzero : o.peeling.remaining = 0
      · rw [if_pos hzero]
        exact ⟨Relation.ReflTransGen.refl, hzero⟩
      · rw [if_neg hzero]
        obtain ⟨hrun, hless⟩ := run_round h (Nat.pos_of_ne_zero hzero)
        obtain ⟨hrest, hdone⟩ := ih (hrun.counts h) (by omega)
        exact ⟨Relation.ReflTransGen.trans hrun hrest, hdone⟩

end PartialOrdering

end CodeAtlas.Layout
