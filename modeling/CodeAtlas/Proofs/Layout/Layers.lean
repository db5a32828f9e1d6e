import CodeAtlas.Layout.Placement
import Mathlib.Data.List.Forall2
import Mathlib.Data.List.Nodup
import Mathlib.Data.List.Perm.Basic

/-! # Every box stands in one layer

Ranking leaves the number of boxes alone, the layers of a ranking hold each box once,
namely in the layer of its rank, and sweeping only reorders the boxes inside a layer.
-/

namespace CodeAtlas.Layout

/-! ## Ranks -/

namespace Ranking

theorem length_ranks_foldl_follow (rank : ℕ) (targets : List ℕ) (r : Ranking) :
    (targets.foldl (follow rank) r).ranks.length = r.ranks.length := by
  induction targets generalizing r with
  | nil => rfl
  | cons t rest ih =>
      rw [List.foldl_cons, ih]
      simp [follow]

theorem length_ranks_visit (arcs : List Arc) (visits : ℕ) (r : Ranking) :
    (visit arcs visits r).ranks.length = r.ranks.length := by
  induction visits generalizing r with
  | zero => rfl
  | succ visits ih =>
      unfold visit
      cases r.queue with
      | nil => rfl
      | cons v queue =>
          rw [ih, length_ranks_foldl_follow]

end Ranking

theorem length_ranks (n : ℕ) (arcs : List Arc) : (ranks n arcs).length = n := by
  unfold ranks visitAll
  rw [Ranking.length_ranks_visit]
  simp [Ranking.start]

/-! ## Layers of a ranking -/

theorem layerCount_le_iff (ranks : List ℕ) (count : ℕ) :
    layerCount ranks ≤ count ↔ ∀ rank ∈ ranks, rank < count := by
  cases ranks with
  | nil => simp [layerCount]
  | cons first rest =>
      rw [layerCount, Nat.succ_le_iff]
      induction rest generalizing first with
      | nil => simp
      | cons second rest ih =>
          rw [List.foldl_cons, ih]
          simp only [List.forall_mem_cons, Nat.max_lt, and_assoc]

theorem lt_layerCount {ranks : List ℕ} {rank : ℕ} (h : rank ∈ ranks) :
    rank < layerCount ranks :=
  (layerCount_le_iff ranks _).mp (Nat.le_refl _) rank h

/-- The boxes of one rank, in no particular order. -/
theorem layer_perm (keys : List String) (ranks : List ℕ) (rank : ℕ) :
    List.Perm
      (((List.range ranks.length).filter fun v => ranks.getD v 0 == rank).mergeSort
        fun a b => decide (keys.getD a "" ≤ keys.getD b ""))
      ((List.range ranks.length).filter fun v => ranks.getD v 0 == rank) :=
  List.mergeSort_perm _ _

theorem mem_layers_flatten {keys : List String} {ranks : List ℕ} {v : ℕ} :
    v ∈ (layers keys ranks).flatten ↔ v < ranks.length := by
  constructor
  · intro hv
    obtain ⟨layer, hlayer, hv⟩ := List.mem_flatten.mp hv
    obtain ⟨rank, -, rfl⟩ := List.mem_map.mp hlayer
    rw [(layer_perm keys ranks rank).mem_iff, List.mem_filter] at hv
    exact List.mem_range.mp hv.1
  · intro hv
    have hrank : ranks.getD v 0 < layerCount ranks := by
      apply lt_layerCount
      rw [List.getD_eq_getElem?_getD, List.getElem?_eq_getElem hv]
      exact List.getElem_mem hv
    refine List.mem_flatten.mpr ⟨_, List.mem_map.mpr ⟨_, List.mem_range.mpr hrank, rfl⟩, ?_⟩
    rw [(layer_perm keys ranks _).mem_iff, List.mem_filter]
    exact ⟨List.mem_range.mpr hv, beq_self_eq_true _⟩

theorem nodup_layers_flatten (keys : List String) (ranks : List ℕ) :
    (layers keys ranks).flatten.Nodup := by
  rw [List.nodup_flatten]
  constructor
  · intro layer hlayer
    obtain ⟨rank, -, rfl⟩ := List.mem_map.mp hlayer
    rw [(layer_perm keys ranks rank).nodup_iff]
    exact List.nodup_range.filter _
  · unfold layers
    rw [List.pairwise_map]
    refine List.nodup_range.imp ?_
    intro rank rank' hne v hv hv'
    rw [(layer_perm keys ranks _).mem_iff, List.mem_filter] at hv hv'
    exact hne ((beq_iff_eq.mp hv.2).symm.trans (beq_iff_eq.mp hv'.2))

theorem layers_flatten_perm (keys : List String) (ranks : List ℕ) :
    List.Perm (layers keys ranks).flatten (List.range ranks.length) := by
  rw [List.perm_ext_iff_of_nodup (nodup_layers_flatten keys ranks) List.nodup_range]
  intro v
  rw [mem_layers_flatten, List.mem_range]

/-! ## The layer of a rank -/

/-- Every box stands once in the layer of its rank, and in no other layer. -/
def LayeredBy (ranks : List ℕ) (layers : List (List ℕ)) : Prop :=
  ∀ rank v, (layers.getD rank []).count v = if ranks[v]? = some rank then 1 else 0

theorem layeredBy_layers (keys : List String) (ranks : List ℕ) :
    LayeredBy ranks (layers keys ranks) := by
  intro rank v
  by_cases hrank : rank < layerCount ranks
  · have hlayer := layer_perm keys ranks rank
    have hcount := (List.nodup_range.filter fun v => ranks.getD v 0 == rank).count (a := v)
      (l := (List.range ranks.length).filter fun v => ranks.getD v 0 == rank)
    rw [← hlayer.count_eq] at hcount
    simp only [layers, List.getD_eq_getElem?_getD, List.getElem?_map, List.getElem?_range hrank,
      Option.map_some, Option.getD_some] at hcount ⊢
    rw [hcount]
    by_cases hv : v < ranks.length
    · simp [hv]
    · simp [hv]
  · have hnone : ranks[v]? ≠ some rank := by
      intro hv
      exact hrank (lt_layerCount (List.mem_of_getElem? hv))
    rw [if_neg hnone]
    simp [layers, List.getD_eq_getElem?_getD, hrank]

theorem LayeredBy.of_perm {ranks : List ℕ} {layers layers' : List (List ℕ)}
    (h : LayeredBy ranks layers) (hperm : List.Forall₂ List.Perm layers' layers) :
    LayeredBy ranks layers' := by
  intro rank v
  rw [← h rank v]
  clear h
  induction hperm generalizing rank with
  | nil => rfl
  | cons hfirst _ ih =>
      cases rank with
      | zero => exact hfirst.count_eq v
      | succ rank => exact ih rank

theorem LayeredBy.mem_iff {ranks : List ℕ} {layers : List (List ℕ)} (h : LayeredBy ranks layers)
    {rank : ℕ} {layer : List ℕ} (hlayer : layers[rank]? = some layer) {v : ℕ} :
    v ∈ layer ↔ ranks[v]? = some rank := by
  have hcount := h rank v
  rw [List.getD_eq_getElem?_getD, hlayer, Option.getD_some] at hcount
  rw [← List.one_le_count_iff, hcount]
  split <;> simp_all

/-! ## Sweeping -/

section Sweeping

variable {α : Type} [Scalar α]

theorem sortLayer_perm (positions : List α) (around : ℕ → List ℕ) (layer : List ℕ) :
    List.Perm (sortLayer positions around layer) layer := by
  unfold sortLayer
  have hsort := (List.mergeSort_perm (layer.map fun v => (v, barycenter positions around v))
    (fun a b => !decide (b.2 < a.2))).map Prod.fst
  simpa [Function.comp_def] using hsort

theorem sweep_perm (around : ℕ → List ℕ) (positions : List α) (layers : List (List ℕ)) :
    List.Forall₂ List.Perm (sweep around positions layers).2 layers := by
  induction layers generalizing positions with
  | nil => exact List.Forall₂.nil
  | cons layer rest ih =>
      exact List.Forall₂.cons (sortLayer_perm positions around layer) (ih _)

theorem length_reposition (positions : List α) (layer : List ℕ) :
    (reposition positions layer).length = positions.length := by
  unfold reposition
  generalize layer.zipIdx = entries
  induction entries generalizing positions with
  | nil => rfl
  | cons entry rest ih => exact (ih _).trans List.length_set

theorem length_foldl_reposition (positions : List α) (layers : List (List ℕ)) :
    (layers.foldl reposition positions).length = positions.length := by
  induction layers generalizing positions with
  | nil => rfl
  | cons layer rest ih => exact (ih _).trans (length_reposition positions layer)

theorem length_sweep (around : ℕ → List ℕ) (positions : List α) (layers : List (List ℕ)) :
    (sweep around positions layers).1.length = positions.length := by
  induction layers generalizing positions with
  | nil => rfl
  | cons layer rest ih => exact (ih _).trans (length_reposition positions _)

theorem length_sweepAfterFirst (around : ℕ → List ℕ) (positions : List α)
    (layers : List (List ℕ)) :
    (sweepAfterFirst around positions layers).1.length = positions.length := by
  cases layers with
  | nil => rfl
  | cons first rest => exact length_sweep around positions rest

theorem sweepAfterFirst_perm (around : ℕ → List ℕ) (positions : List α)
    (layers : List (List ℕ)) :
    List.Forall₂ List.Perm (sweepAfterFirst around positions layers).2 layers := by
  cases layers with
  | nil => exact List.Forall₂.nil
  | cons first rest =>
      exact List.Forall₂.cons (List.Perm.refl first) (sweep_perm around positions rest)

theorem forall₂_perm_trans {as bs cs : List (List ℕ)} (hab : List.Forall₂ List.Perm as bs)
    (hbc : List.Forall₂ List.Perm bs cs) : List.Forall₂ List.Perm as cs := by
  induction hab generalizing cs with
  | nil => exact hbc
  | cons hperm _ ih =>
      cases hbc with
      | cons hperm' hrest => exact List.Forall₂.cons (hperm.trans hperm') (ih hrest)

theorem sweepBothWays_perm (arcs : List Arc) (state : List α × List (List ℕ)) :
    List.Forall₂ List.Perm (sweepBothWays arcs state).2 state.2 := by
  have hdown := sweepAfterFirst_perm (predecessors arcs) state.1 state.2
  have hup := sweepAfterFirst_perm (successors arcs)
    (sweepAfterFirst (predecessors arcs) state.1 state.2).1
    (sweepAfterFirst (predecessors arcs) state.1 state.2).2.reverse
  have hback := List.rel_reverse hup
  rw [List.reverse_reverse] at hback
  exact forall₂_perm_trans hback hdown

theorem repeat_sweepBothWays_perm (arcs : List Arc) (times : ℕ)
    (state : List α × List (List ℕ)) :
    List.Forall₂ List.Perm (Nat.repeat (sweepBothWays arcs) times state).2 state.2 := by
  induction times with
  | zero => exact List.forall₂_same.mpr fun layer _ => List.Perm.refl layer
  | succ times ih => exact forall₂_perm_trans (sweepBothWays_perm arcs _) ih

/-- Untangling keeps the boxes of each layer. -/
theorem untangle_perm (n : ℕ) (arcs : List Arc) (layers : List (List ℕ)) :
    List.Forall₂ List.Perm (untangle α n arcs layers) layers :=
  repeat_sweepBothWays_perm arcs sweepCount _

end Sweeping

namespace FileGraph

variable {α : Type} [Scalar α]

/-- The layers hold every box of the graph once. -/
theorem layers_perm (g : FileGraph α) :
    List.Perm g.layers.flatten (List.range g.count) := by
  have hkept := List.Perm.flatten_congr
    (untangle_perm (α := α) g.count g.acyclicArcs (Layout.layers (g.boxes.map (·.key)) g.ranks))
  have hall := layers_flatten_perm (g.boxes.map (·.key)) g.ranks
  rw [FileGraph.ranks, length_ranks] at hall
  exact hkept.trans hall

theorem layeredBy_ranks (g : FileGraph α) : LayeredBy g.ranks g.layers := by
  have hbuilt := layeredBy_layers (g.boxes.map (·.key)) g.ranks
  exact hbuilt.of_perm (untangle_perm (α := α) g.count g.acyclicArcs _)

end FileGraph

end CodeAtlas.Layout
