import CodeAtlas.Proofs.Layout.Placement
import CodeAtlas.Proofs.Layout.Ranking
import Mathlib.Logic.Equiv.Basic

/-! # Relabelled graphs are placed alike

The boxes of a graph are numbered in the order in which they are listed. If the numbers
are exchanged and the arcs are listed in another order, then an acyclic graph keeps the
rank of every box, boxes of one rank are again put into the order of their keys, and every
sweep computes the same barycenters. So each box is placed where it was.
-/

namespace CodeAtlas

theorem Scalar.total_perm {xs ys : List ℚ} (h : xs.Perm ys) : Scalar.total xs = Scalar.total ys :=
  h.foldl_eq' (fun x _ y _ z => add_right_comm z x y) 0

namespace Layout

/-- What the first list has at a place, the second one has at the place of the new number. -/
def Relabelled {β : Type} (π : Equiv.Perm ℕ) (xs xs' : List β) : Prop :=
  ∀ v, xs'[π v]? = xs[v]?

namespace Relabelled

variable {β γ : Type} {π : Equiv.Perm ℕ} {xs xs' : List β}

theorem lt_length_iff (h : Relabelled π xs xs') (v : ℕ) : π v < xs'.length ↔ v < xs.length := by
  have hnone : xs'[π v]? = none ↔ xs[v]? = none := by rw [h v]
  rw [List.getElem?_eq_none_iff, List.getElem?_eq_none_iff] at hnone
  omega

theorem length_eq (h : Relabelled π xs xs') : xs'.length = xs.length := by
  have hperm : ((List.range xs.length).map π).Perm (List.range xs'.length) := by
    rw [List.perm_ext_iff_of_nodup (List.nodup_range.map π.injective) List.nodup_range]
    intro w
    obtain ⟨v, rfl⟩ := π.surjective w
    rw [List.mem_map_of_injective π.injective, List.mem_range, List.mem_range, h.lt_length_iff]
  simpa using hperm.length_eq.symm

theorem getD (h : Relabelled π xs xs') (v : ℕ) (d : β) : xs'.getD (π v) d = xs.getD v d := by
  rw [List.getD_eq_getElem?_getD, List.getD_eq_getElem?_getD, h v]

theorem mem_iff (h : Relabelled π xs xs') (a : β) : a ∈ xs' ↔ a ∈ xs := by
  rw [List.mem_iff_getElem?, List.mem_iff_getElem?, ← π.exists_congr_right]
  simp only [h _]

theorem map (h : Relabelled π xs xs') (f : β → γ) : Relabelled π (xs.map f) (xs'.map f) := by
  intro v
  rw [List.getElem?_map, List.getElem?_map, h v]

theorem zip {ys ys' : List γ} (hx : Relabelled π xs xs') (hy : Relabelled π ys ys') :
    Relabelled π (xs.zip ys) (xs'.zip ys') := by
  intro v
  rw [List.zip_eq_zipWith, List.zip_eq_zipWith, List.getElem?_zipWith, List.getElem?_zipWith,
    hx v, hy v]

theorem set (h : Relabelled π xs xs') (v : ℕ) (a : β) :
    Relabelled π (xs.set v a) (xs'.set (π v) a) := by
  intro w
  simp only [List.getElem?_set', h w, π.injective.eq_iff]

end Relabelled

/-- The first number stays, and the numbers behind it are exchanged. -/
def onTail (π : Equiv.Perm ℕ) : Equiv.Perm ℕ where
  toFun
    | 0 => 0
    | v + 1 => π v + 1
  invFun
    | 0 => 0
    | v + 1 => π.symm v + 1
  left_inv v := by cases v <;> simp
  right_inv v := by cases v <;> simp

/-- Two orders of the same elements differ by an exchange of numbers. -/
theorem exists_relabelled {β : Type} {xs xs' : List β} (h : xs'.Perm xs) :
    ∃ π : Equiv.Perm ℕ, Relabelled π xs xs' := by
  induction h with
  | nil => exact ⟨Equiv.refl ℕ, fun _ => rfl⟩
  | cons a _ ih =>
      obtain ⟨π, hπ⟩ := ih
      refine ⟨onTail π, ?_⟩
      intro v
      cases v with
      | zero => rfl
      | succ v => exact hπ v
  | swap a b rest =>
      refine ⟨Equiv.swap 0 1, ?_⟩
      intro v
      match v with
      | 0 => rfl
      | 1 => rfl
      | v + 2 =>
          rw [Equiv.swap_apply_of_ne_of_ne (by omega) (by omega)]
          rfl
  | trans _ _ ih₁ ih₂ =>
      obtain ⟨π₁, hπ₁⟩ := ih₁
      obtain ⟨π₂, hπ₂⟩ := ih₂
      exact ⟨π₂.trans π₁, fun v => (hπ₁ (π₂ v)).trans (hπ₂ v)⟩

/-! ## Arcs and ranks -/

section Arcs

variable {π : Equiv.Perm ℕ} {arcs arcs' : List Arc} {n s t v : ℕ}

theorem mem_relabelled (h : arcs'.Perm (arcs.map (Prod.map π π))) :
    (π s, π t) ∈ arcs' ↔ (s, t) ∈ arcs := by
  rw [h.mem_iff]
  exact List.mem_map_of_injective (π.injective.prodMap π.injective) (a := (s, t))

theorem successors_relabelled (h : arcs'.Perm (arcs.map (Prod.map π π))) (v : ℕ) :
    (successors arcs' (π v)).Perm ((successors arcs v).map π) := by
  refine (h.filterMap _).trans (List.Perm.of_eq ?_)
  rw [List.filterMap_map, successors, List.map_filterMap]
  apply List.filterMap_congr
  rintro ⟨s, t⟩ -
  by_cases hs : s = v <;> simp [hs]

theorem predecessors_relabelled (h : arcs'.Perm (arcs.map (Prod.map π π))) (v : ℕ) :
    (predecessors arcs' (π v)).Perm ((predecessors arcs v).map π) := by
  refine (h.filterMap _).trans (List.Perm.of_eq ?_)
  rw [List.filterMap_map, predecessors, List.map_filterMap]
  apply List.filterMap_congr
  rintro ⟨s, t⟩ -
  by_cases ht : t = v <;> simp [ht]

theorem Acyclic.relabelled (hacyclic : Acyclic arcs) (h : arcs'.Perm (arcs.map (Prod.map π π))) :
    Acyclic arcs' := by
  apply hacyclic.of_map π.symm
  intro s t harc
  rwa [← mem_relabelled h, π.apply_symm_apply, π.apply_symm_apply]

theorem IsRanking.comp (h : arcs'.Perm (arcs.map (Prod.map π π))) {rank : ℕ → ℕ}
    (hrank : IsRanking arcs' rank) : IsRanking arcs (rank ∘ π) where
  lt s t harc := hrank.lt (π s) (π t) ((mem_relabelled h).mpr harc)
  tight t ht := by
    obtain ⟨s, harc, heq⟩ := hrank.tight (π t) ht
    refine ⟨π.symm s, ?_, by simpa using heq⟩
    rwa [← mem_relabelled h, π.apply_symm_apply]

theorem ranks_relabelled (h : arcs'.Perm (arcs.map (Prod.map π π))) (hrange : InRange n arcs)
    (hrange' : InRange n arcs') (hacyclic : Acyclic arcs) (hn : ∀ v, π v < n ↔ v < n) :
    Relabelled π (ranks n arcs) (ranks n arcs') := by
  intro v
  have hrank := isRanking_ranks hrange' (hacyclic.relabelled h)
  have heq := (hrank.comp h).unique (isRanking_ranks hrange hacyclic) v
  by_cases hv : v < n
  · have hv' : v < (ranks n arcs).length := by rwa [length_ranks]
    have hπv : π v < (ranks n arcs').length := by rwa [length_ranks, hn]
    simpa [List.getD_eq_getElem?_getD, hv', hπv] using heq
  · have hv' : (ranks n arcs).length ≤ v := by
      rw [length_ranks]
      omega
    have hπv : (ranks n arcs').length ≤ π v := by
      rw [length_ranks, ← Nat.not_lt, hn]
      exact hv
    rw [List.getElem?_eq_none hv', List.getElem?_eq_none hπv]

end Arcs

/-! ## Layers -/

section Layers

variable {π : Equiv.Perm ℕ} {n : ℕ}

theorem layerCount_congr {ranks ranks' : List ℕ} (h : ∀ rank, rank ∈ ranks ↔ rank ∈ ranks') :
    layerCount ranks = layerCount ranks' := by
  apply eq_of_forall_ge_iff
  intro count
  rw [layerCount_le_iff, layerCount_le_iff]
  exact forall_congr' fun rank => by rw [h rank]

/-- Numbers with different keys are sorted by key into one order, however they were listed. -/
theorem mergeSort_keys_congr {keys : List String} {xs ys : List ℕ} (hperm : xs.Perm ys)
    (hkeys : ∀ a ∈ xs, ∀ b ∈ xs, keys.getD a "" = keys.getD b "" → a = b) :
    xs.mergeSort (fun a b => decide (keys.getD a "" ≤ keys.getD b "")) =
      ys.mergeSort (fun a b => decide (keys.getD a "" ≤ keys.getD b "")) := by
  have hsorted : ∀ zs : List ℕ,
      (zs.mergeSort fun a b => decide (keys.getD a "" ≤ keys.getD b "")).Pairwise
        fun a b => keys.getD a "" ≤ keys.getD b "" := by
    intro zs
    have hpairs : (zs.mergeSort fun a b => decide (keys.getD a "" ≤ keys.getD b "")).Pairwise
        fun a b => decide (keys.getD a "" ≤ keys.getD b "") = true := by
      apply List.pairwise_mergeSort
      · intro a b c hab hbc
        rw [decide_eq_true_eq] at hab hbc ⊢
        exact String.le_trans hab hbc
      · intro a b
        rw [Bool.or_eq_true, decide_eq_true_eq, decide_eq_true_eq]
        exact String.le_total _ _
    simpa only [decide_eq_true_eq] using hpairs
  refine List.Perm.eq_of_pairwise ?_ (hsorted xs) (hsorted ys)
    (((List.mergeSort_perm xs _).trans hperm).trans (List.mergeSort_perm ys _).symm)
  intro a b ha hb hab hba
  have hb' : b ∈ xs := hperm.mem_iff.mpr (List.mem_mergeSort.mp hb)
  exact hkeys a (List.mem_mergeSort.mp ha) b hb' (String.le_antisymm hab hba)

theorem layers_relabelled {keys keys' : List String} {ranks ranks' : List ℕ}
    (hkeys : Relabelled π keys keys') (hranks : Relabelled π ranks ranks')
    (hlength : keys.length = ranks.length) (hnodup : keys.Nodup) :
    layers keys' ranks' = (layers keys ranks).map (List.map π) := by
  unfold layers
  rw [List.map_map, layerCount_congr hranks.mem_iff]
  apply List.map_congr_left
  intro rank _
  rw [Function.comp_apply, List.map_mergeSort (s := fun a b =>
    decide (keys'.getD a "" ≤ keys'.getD b "")) (fun a _ b _ => by rw [hkeys.getD, hkeys.getD])]
  apply mergeSort_keys_congr
  · rw [List.perm_ext_iff_of_nodup (List.nodup_range.filter _)
      ((List.nodup_range.filter _).map π.injective)]
    intro v
    obtain ⟨u, rfl⟩ := π.surjective v
    rw [List.mem_map_of_injective π.injective]
    simp only [List.mem_filter, List.mem_range, hranks.lt_length_iff, hranks.getD]
  · intro a ha b hb hab
    obtain ⟨u, rfl⟩ := π.surjective a
    obtain ⟨v, rfl⟩ := π.surjective b
    simp only [List.mem_filter, List.mem_range, hranks.lt_length_iff, ← hlength] at ha hb
    rw [hkeys.getD, hkeys.getD, List.getD_eq_getElem?_getD, List.getD_eq_getElem?_getD,
      List.getElem?_eq_getElem ha.1, List.getElem?_eq_getElem hb.1] at hab
    rw [(hnodup.getElem_inj_iff).mp hab]

end Layers

/-! ## Sweeps -/

section Sweeps

variable {π : Equiv.Perm ℕ} {around around' : ℕ → List ℕ} {ps ps' : List ℚ}

theorem barycenter_relabelled (haround : ∀ v, (around' (π v)).Perm ((around v).map π))
    (hps : Relabelled π ps ps') (v : ℕ) :
    barycenter ps' around' (π v) = barycenter ps around v := by
  have hperm := haround v
  have htotal : Scalar.total ((around' (π v)).map fun u => ps'.getD u 0) =
      Scalar.total ((around v).map fun u => ps.getD u 0) := by
    rw [Scalar.total_perm (hperm.map _), List.map_map]
    congr 1
    exact List.map_congr_left fun u _ => hps.getD u 0
  have hlength : (around' (π v)).length = (around v).length := by
    rw [hperm.length_eq, List.length_map]
  unfold barycenter
  cases hv : around v with
  | nil =>
      rw [hv, List.map_nil, List.perm_nil] at hperm
      rw [hperm]
      exact hps.getD v 0
  | cons first rest =>
      cases hv' : around' (π v) with
      | nil => simp [hv, hv'] at hlength
      | cons first' rest' =>
          rw [hv, hv'] at htotal hlength
          simp only [htotal, hlength]

theorem sortLayer_relabelled (haround : ∀ v, (around' (π v)).Perm ((around v).map π))
    (hps : Relabelled π ps ps') (layer : List ℕ) :
    sortLayer ps' around' (layer.map π) = (sortLayer ps around layer).map π := by
  have hpairs : (layer.map π).map (fun v => (v, barycenter ps' around' v)) =
      (layer.map fun v => (v, barycenter ps around v)).map (Prod.map π id) := by
    simp [barycenter_relabelled haround hps]
  unfold sortLayer
  rw [hpairs, ← List.map_mergeSort (r := fun a b => !decide (b.2 < a.2)) (fun _ _ _ _ => rfl),
    List.map_map, List.map_map]
  rfl

theorem reposition_relabelled (hps : Relabelled π ps ps') (layer : List ℕ) :
    Relabelled π (reposition ps layer) (reposition ps' (layer.map π)) := by
  unfold reposition
  rw [List.zipIdx_map, List.foldl_map]
  generalize layer.zipIdx = entries
  induction entries generalizing ps ps' with
  | nil => exact hps
  | cons entry rest ih => exact ih (hps.set entry.1 _)

/-- Positions and layers with the new numbers. -/
structure SweptAlike (π : Equiv.Perm ℕ) (state state' : List ℚ × List (List ℕ)) : Prop where
  positions : Relabelled π state.1 state'.1
  layers : state'.2 = state.2.map (List.map π)

theorem sweep_relabelled (haround : ∀ v, (around' (π v)).Perm ((around v).map π))
    (hps : Relabelled π ps ps') (layers : List (List ℕ)) :
    SweptAlike π (sweep around ps layers) (sweep around' ps' (layers.map (List.map π))) := by
  induction layers generalizing ps ps' with
  | nil => exact ⟨hps, rfl⟩
  | cons layer rest ih =>
      have hlayer := sortLayer_relabelled haround hps layer
      have hrest := ih (reposition_relabelled hps (sortLayer ps around layer))
      rw [← hlayer] at hrest
      exact ⟨hrest.positions, congrArg₂ List.cons hlayer hrest.layers⟩

theorem sweepAfterFirst_relabelled (haround : ∀ v, (around' (π v)).Perm ((around v).map π))
    (hps : Relabelled π ps ps') (layers : List (List ℕ)) :
    SweptAlike π (sweepAfterFirst around ps layers)
      (sweepAfterFirst around' ps' (layers.map (List.map π))) := by
  cases layers with
  | nil => exact ⟨hps, rfl⟩
  | cons first rest =>
      have hrest := sweep_relabelled haround hps rest
      exact ⟨hrest.positions, congrArg (List.cons (first.map π)) hrest.layers⟩

variable {arcs arcs' : List Arc}

theorem SweptAlike.sweepBothWays (harcs : arcs'.Perm (arcs.map (Prod.map π π)))
    {state state' : List ℚ × List (List ℕ)} (h : SweptAlike π state state') :
    SweptAlike π (sweepBothWays arcs state) (sweepBothWays arcs' state') := by
  obtain ⟨positions', layers'⟩ := state'
  obtain ⟨hpositions, rfl⟩ := h
  have hdown := sweepAfterFirst_relabelled (predecessors_relabelled harcs) hpositions state.2
  have hup := sweepAfterFirst_relabelled (successors_relabelled harcs) hdown.positions
    (sweepAfterFirst (predecessors arcs) state.1 state.2).2.reverse
  rw [List.map_reverse, ← hdown.layers] at hup
  refine ⟨hup.positions, ?_⟩
  rw [Layout.sweepBothWays, Layout.sweepBothWays, List.map_reverse]
  exact congrArg List.reverse hup.layers

theorem SweptAlike.repeat (harcs : arcs'.Perm (arcs.map (Prod.map π π)))
    {state state' : List ℚ × List (List ℕ)} (h : SweptAlike π state state') (times : ℕ) :
    SweptAlike π (Nat.repeat (Layout.sweepBothWays arcs) times state)
      (Nat.repeat (Layout.sweepBothWays arcs') times state') := by
  induction times with
  | zero => exact h
  | succ times ih => exact ih.sweepBothWays harcs

theorem untangle_relabelled (harcs : arcs'.Perm (arcs.map (Prod.map π π))) {n : ℕ}
    (hn : ∀ v, π v < n ↔ v < n) (layers : List (List ℕ)) :
    untangle ℚ n arcs' (layers.map (List.map π)) =
      (untangle ℚ n arcs layers).map (List.map π) := by
  have hzero : Relabelled π (List.replicate n (0 : ℚ)) (List.replicate n 0) := by
    intro v
    simp only [List.getElem?_replicate, hn]
  have hstart : ∀ {ps ps' : List ℚ}, Relabelled π ps ps' → ∀ layers : List (List ℕ),
      Relabelled π (layers.foldl reposition ps) ((layers.map (List.map π)).foldl reposition ps') := by
    intro ps ps' hps layers
    induction layers generalizing ps ps' with
    | nil => exact hps
    | cons layer rest ih => exact ih (reposition_relabelled hps layer)
  exact (SweptAlike.repeat harcs ⟨hstart hzero layers, rfl⟩ sweepCount).layers

end Sweeps

/-! ## Placement -/

theorem lookup_relabelled {β : Type} (π : Equiv.Perm ℕ) (entries : List (ℕ × β)) (v : ℕ) :
    (entries.map (Prod.map π id)).lookup (π v) = entries.lookup v := by
  induction entries with
  | nil => rfl
  | cons entry rest ih =>
      obtain ⟨key, value⟩ := entry
      have hkey : (π v == π key) = (v == key) := π.injective.beq_eq
      rw [List.map_cons, Prod.map_apply, List.lookup_cons, List.lookup_cons, hkey, ih]
      rfl

namespace Spacing

variable {π : Equiv.Perm ℕ} {size size' : ℕ → Point ℚ} (s : Spacing ℚ)

theorem placeLayer_relabelled (hsize : ∀ v, size' (π v) = size v) (middle start : ℚ)
    (layer : List ℕ) :
    s.placeLayer size' middle start (layer.map π) =
      (s.placeLayer size middle start layer).map (Prod.map π id) := by
  induction layer generalizing start with
  | nil => rfl
  | cons v rest ih => simp [placeLayer, hsize, ih]

theorem placeLayers_relabelled (hsize : ∀ v, size' (π v) = size v) (offset : ℚ)
    (layers : List (List ℕ)) :
    s.placeLayers size' offset (layers.map (List.map π)) =
      (s.placeLayers size offset layers).map (Prod.map π id) := by
  induction layers generalizing offset with
  | nil => rfl
  | cons layer rest ih =>
      have hsizes : (layer.map π).map size' = layer.map size := by simp [hsize]
      simp only [List.map_cons, placeLayers, List.map_append, hsizes,
        s.placeLayer_relabelled hsize, ih]

theorem moveToOrigin_relabelled {sizes sizes' centers centers' : List (Point ℚ)}
    (hsizes : Relabelled π sizes sizes') (hcenters : Relabelled π centers centers') :
    Relabelled π (moveToOrigin sizes centers) (moveToOrigin sizes' centers') := by
  have hcorners := (hsizes.zip hcenters).map fun (size, center) => center - size.half
  have hx := Scalar.least_congr (hcorners.map (·.x)).mem_iff
  have hy := Scalar.least_congr (hcorners.map (·.y)).mem_iff
  simp only [moveToOrigin, hx, hy]
  exact hcenters.map _

end Spacing

namespace FileGraph

theorem inRange_properArcs {α : Type} (g : FileGraph α) : InRange g.count g.properArcs := by
  intro arc harc
  have hproper := (List.mem_filter.mp harc).2
  simp only [Bool.and_eq_true, decide_eq_true_eq] at hproper
  exact ⟨hproper.1.2, hproper.2⟩

theorem acyclic_properArcs {α : Type} {g : FileGraph α} (h : Acyclic g.arcs) :
    Acyclic g.properArcs :=
  h.of_subset fun _ harc => (List.mem_filter.mp harc).1

theorem acyclicArcs_of_acyclic {α : Type} {g : FileGraph α} (h : Acyclic g.arcs) :
    g.acyclicArcs = g.properArcs :=
  breakCycles_of_acyclic g.inRange_properArcs (acyclic_properArcs h)

/-- The boxes have got new numbers, and the arcs join the same boxes as before. -/
structure Relabels (π : Equiv.Perm ℕ) (g g' : FileGraph ℚ) : Prop where
  boxes : Relabelled π g.boxes g'.boxes
  arcs : g'.arcs.Perm (g.arcs.map (Prod.map π π))

namespace Relabels

variable {π : Equiv.Perm ℕ} {g g' : FileGraph ℚ}

theorem count_eq (h : Relabels π g g') : g'.count = g.count :=
  h.boxes.length_eq

theorem lt_count_iff (h : Relabels π g g') (v : ℕ) : π v < g.count ↔ v < g.count := by
  have hlt := h.boxes.lt_length_iff v
  rw [h.boxes.length_eq] at hlt
  exact hlt

theorem sizeOf (h : Relabels π g g') (v : ℕ) : g'.sizeOf (π v) = g.sizeOf v := by
  unfold FileGraph.sizeOf
  rw [h.boxes v]

theorem properArcs (h : Relabels π g g') :
    g'.properArcs.Perm (g.properArcs.map (Prod.map π π)) := by
  refine (h.arcs.filter _).trans (List.Perm.of_eq ?_)
  rw [List.filter_map]
  congr 1
  apply List.filter_congr
  rintro ⟨s, t⟩ -
  simp only [Function.comp_apply, Prod.map, h.count_eq, h.lt_count_iff, bne, π.injective.beq_eq]

theorem ranks (h : Relabels π g g') (hacyclic : Acyclic g.arcs) :
    Relabelled π g.ranks g'.ranks := by
  have hrange := g'.inRange_properArcs
  rw [h.count_eq] at hrange
  rw [FileGraph.ranks, FileGraph.ranks, acyclicArcs_of_acyclic hacyclic,
    acyclicArcs_of_acyclic (hacyclic.relabelled h.arcs), h.count_eq]
  exact ranks_relabelled h.properArcs g.inRange_properArcs hrange (acyclic_properArcs hacyclic)
    h.lt_count_iff

theorem layers (h : Relabels π g g') (hacyclic : Acyclic g.arcs)
    (hkeys : (g.boxes.map (·.key)).Nodup) : g'.layers = g.layers.map (List.map π) := by
  have hlength : (g.boxes.map (·.key)).length = g.ranks.length := by
    rw [FileGraph.ranks, length_ranks, List.length_map]
    rfl
  rw [FileGraph.layers, FileGraph.layers, acyclicArcs_of_acyclic hacyclic,
    acyclicArcs_of_acyclic (hacyclic.relabelled h.arcs), h.count_eq,
    layers_relabelled (h.boxes.map (·.key)) (h.ranks hacyclic) hlength hkeys]
  exact untangle_relabelled h.properArcs h.lt_count_iff _

/-- If no two boxes share a key, each box of an acyclic graph is placed where it was. -/
theorem place (h : Relabels π g g') (hacyclic : Acyclic g.arcs)
    (hkeys : (g.boxes.map (·.key)).Nodup) (s : Spacing ℚ) :
    Relabelled π (s.place g) (s.place g') := by
  refine Spacing.moveToOrigin_relabelled (h.boxes.map (·.size)) ?_
  intro v
  rw [h.count_eq, h.layers hacyclic hkeys, s.placeLayers_relabelled h.sizeOf]
  by_cases hv : v < g.count
  · have hπv := (h.lt_count_iff v).mpr hv
    simp [hv, hπv, lookup_relabelled]
  · have hπv : ¬ π v < g.count := by rwa [h.lt_count_iff]
    simp [hv, hπv]

end Relabels

end FileGraph

end Layout

end CodeAtlas
