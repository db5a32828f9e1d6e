import CodeAtlas.Proofs.Layout.CycleBreaking
import CodeAtlas.Proofs.Layout.Relabelling

/-! # Ranks are longest paths

A ranking bounds the number of arcs on every path, and its tightness traces a path that
meets the bound. The visit of an acyclic graph leaves no node behind, so what it computes
is the length of a longest path to every node, and no rank below the highest is skipped.
Breaking cycles makes this hold of every graph of files.
-/

namespace CodeAtlas.Layout

variable {n length v s t : ℕ} {arcs : List Arc} {rank : ℕ → ℕ}

/-- A path of the given number of arcs ends in the node. -/
inductive PathTo (arcs : List Arc) : ℕ → ℕ → Prop
  | nil (v : ℕ) : PathTo arcs 0 v
  | concat {length s t : ℕ} (hpath : PathTo arcs length s) (harc : (s, t) ∈ arcs) :
      PathTo arcs (length + 1) t

/-! ## Paths and rankings -/

theorem IsRanking.length_le (h : IsRanking arcs rank) (hpath : PathTo arcs length v) :
    length ≤ rank v := by
  induction hpath with
  | nil v => exact Nat.zero_le _
  | concat _ harc ih =>
      have hup := h.lt _ _ harc
      omega

theorem IsRanking.pathTo (h : IsRanking arcs rank) (v : ℕ) : PathTo arcs (rank v) v := by
  induction hrank : rank v generalizing v with
  | zero => exact PathTo.nil v
  | succ length ih =>
      obtain ⟨s, harc, hup⟩ := h.tight v (by omega)
      exact PathTo.concat (ih s (by omega)) harc

/-- Below a rank no rank is skipped: going back along arcs lowers it by one at a time. -/
theorem IsRanking.exists_rank_eq (h : IsRanking arcs rank) {lower : ℕ} (hle : lower ≤ rank v) :
    ∃ u, rank u = lower ∧ (u = v ∨ ∃ t, (u, t) ∈ arcs) := by
  induction hgap : rank v - lower generalizing v with
  | zero => exact ⟨v, by omega, Or.inl rfl⟩
  | succ gap ih =>
      obtain ⟨s, harc, hup⟩ := h.tight v (by omega)
      obtain ⟨u, hu, hsource⟩ := ih (v := s) (by omega) (by omega)
      refine ⟨u, hu, Or.inr ?_⟩
      cases hsource with
      | inl hus => exact ⟨v, hus ▸ harc⟩
      | inr hsource => exact hsource

/-! ## The visit of an acyclic graph -/

theorem visitAll_complete (hrange : InRange n arcs) (hacyclic : Acyclic arcs) :
    (visitAll n arcs).visited = n ∧ (visitAll n arcs).queue = [] := by
  obtain ⟨all, htracks, hall⟩ :=
    (Ranking.Tracks.start n arcs).visit hrange hacyclic n (by simp)
  have hperm : all.Perm (List.range n) := by
    rw [List.perm_ext_iff_of_nodup htracks.nodup_done List.nodup_range]
    intro v
    rw [List.mem_range]
    exact ⟨htracks.done_lt v, hall v⟩
  constructor
  · show (Ranking.visit arcs n (Ranking.start n arcs)).visited = n
    rw [htracks.visited_eq, hperm.length_eq, List.length_range]
  · apply List.eq_nil_iff_forall_not_mem.mpr
    intro v hv
    have hready := (htracks.mem_queue v).mp hv
    exact hready.2.1 (hall v hready.1)

theorem getElem?_ranks (hv : v < n) :
    (ranks n arcs)[v]? = some ((ranks n arcs).getD v 0) := by
  have hlt : v < (ranks n arcs).length := by rwa [length_ranks]
  rw [List.getD_eq_getElem?_getD, List.getElem?_eq_getElem hlt, Option.getD_some]

theorem lt_of_getElem?_ranks {r : ℕ} (h : (ranks n arcs)[v]? = some r) :
    v < n ∧ (ranks n arcs).getD v 0 = r := by
  have hlt := (List.getElem?_eq_some_iff.mp h).1
  rw [length_ranks] at hlt
  rw [List.getD_eq_getElem?_getD, h]
  exact ⟨hlt, rfl⟩

theorem mem_ranks_of_le (hrange : InRange n arcs) (hacyclic : Acyclic arcs) {r lower : ℕ}
    (hr : r ∈ ranks n arcs) (hle : lower ≤ r) : lower ∈ ranks n arcs := by
  obtain ⟨v, hv⟩ := List.mem_iff_getElem?.mp hr
  obtain ⟨hlt, rfl⟩ := lt_of_getElem?_ranks hv
  obtain ⟨u, hu, hsource⟩ := (isRanking_ranks hrange hacyclic).exists_rank_eq hle
  have hult : u < n := by
    cases hsource with
    | inl huv => rwa [huv]
    | inr hsource =>
        obtain ⟨t, harc⟩ := hsource
        exact (hrange (u, t) harc).1
  apply List.mem_of_getElem? (i := u)
  rw [getElem?_ranks hult, hu]

/-! ## No layer is empty -/

theorem exists_mem_ranks_of_lt_layerCount {ranks : List ℕ} {r : ℕ} (h : r < layerCount ranks) :
    ∃ high ∈ ranks, r ≤ high := by
  by_contra hnone
  have hbelow : ∀ high ∈ ranks, high < r := by
    intro high hhigh
    by_contra hle
    exact hnone ⟨high, hhigh, Nat.le_of_not_lt hle⟩
  have hcount := (layerCount_le_iff ranks r).mpr hbelow
  omega

theorem layers_ne_nil {ranks : List ℕ} (h : ∀ r ∈ ranks, ∀ lower ≤ r, lower ∈ ranks)
    (keys : List String) {layer : List ℕ} (hlayer : layer ∈ layers keys ranks) : layer ≠ [] := by
  obtain ⟨r, hr⟩ := List.mem_iff_getElem?.mp hlayer
  have hlt : r < layerCount ranks := by
    simpa [layers] using (List.getElem?_eq_some_iff.mp hr).1
  obtain ⟨high, hhigh, hle⟩ := exists_mem_ranks_of_lt_layerCount hlt
  obtain ⟨v, hv⟩ := List.mem_iff_getElem?.mp (h high hhigh r hle)
  exact List.ne_nil_of_mem (((layeredBy_layers keys ranks).mem_iff hr).mpr hv)

/-! ## Graphs of files -/

namespace FileGraph

variable {α : Type} {arc : Arc}

theorem properArcs_ne (g : FileGraph α) (harc : arc ∈ g.properArcs) : arc.1 ≠ arc.2 := by
  have hproper := (List.mem_filter.mp harc).2
  simp only [Bool.and_eq_true, bne_iff_ne] at hproper
  exact hproper.1.1

theorem inRange_acyclicArcs (g : FileGraph α) : InRange g.count g.acyclicArcs := by
  intro arc harc
  obtain ⟨before, hbefore, rfl⟩ := List.mem_map.mp harc
  have hrange := g.inRange_properArcs before hbefore
  cases forward_eq_or_eq_swap (greedyOrder g.count g.properArcs) before with
  | inl hkept =>
      rw [hkept]
      exact hrange
  | inr hturned =>
      rw [hturned]
      exact hrange.symm

theorem acyclic_acyclicArcs (g : FileGraph α) : Acyclic g.acyclicArcs :=
  acyclic_breakCycles g.inRange_properArcs fun _ => g.properArcs_ne

/-- The visit of a graph of files reaches all of them, whatever its arcs. -/
theorem visited_eq_count (g : FileGraph α) : (visitAll g.count g.acyclicArcs).visited = g.count :=
  (visitAll_complete g.inRange_acyclicArcs g.acyclic_acyclicArcs).1

end FileGraph

/--
In an acyclic graph the rank of a node is the number of arcs on a longest path to it. The
queue runs empty when every node has been visited, ranks grow along every arc, and all
ranks up to the highest are used, so no layer is empty. A graph of files is ranked by its
arcs after their cycles have been broken, so its visit always reaches every file.
-/
theorem ranks_eq_longest_paths (n : ℕ) (arcs : List Arc) (hrange : InRange n arcs)
    (hacyclic : Acyclic arcs) :
    (ranks n arcs).length = n ∧
    (∀ v rank, (ranks n arcs)[v]? = some rank →
      PathTo arcs rank v ∧ ∀ length, PathTo arcs length v → length ≤ rank) ∧
    ((visitAll n arcs).visited = n ∧ (visitAll n arcs).queue = []) ∧
    (∀ s t, (s, t) ∈ arcs → ∃ low high,
      (ranks n arcs)[s]? = some low ∧ (ranks n arcs)[t]? = some high ∧ low < high) ∧
    (∀ rank ∈ ranks n arcs, ∀ lower ≤ rank, lower ∈ ranks n arcs) ∧
    (∀ keys, ∀ layer ∈ layers keys (ranks n arcs), layer ≠ []) ∧
    (∀ (α : Type) (g : FileGraph α), (visitAll g.count g.acyclicArcs).visited = g.count) := by
  have hranking := isRanking_ranks hrange hacyclic
  have hused : ∀ rank ∈ ranks n arcs, ∀ lower ≤ rank, lower ∈ ranks n arcs :=
    fun rank hrank lower hle => mem_ranks_of_le hrange hacyclic hrank hle
  refine ⟨length_ranks n arcs, ?_, visitAll_complete hrange hacyclic, ?_, hused, ?_, ?_⟩
  · intro v rank hv
    obtain ⟨-, rfl⟩ := lt_of_getElem?_ranks hv
    exact ⟨hranking.pathTo v, fun length hpath => hranking.length_le hpath⟩
  · intro s t harc
    obtain ⟨hs, ht⟩ := hrange (s, t) harc
    exact ⟨_, _, getElem?_ranks hs, getElem?_ranks ht, hranking.lt s t harc⟩
  · exact fun keys layer hlayer => layers_ne_nil hused keys hlayer
  · exact fun α g => g.visited_eq_count

/-- A detour from 0 to 2, a shortcut listed twice, and a node that no arc touches. -/
def shortcutArcs : List Arc :=
  [(0, 2), (0, 1), (1, 2), (0, 2), (3, 1), (2, 4)]

/-- The path through the detour decides, in whichever order the arcs are followed. -/
theorem shortcutArcs_ranks :
    InRange 6 shortcutArcs ∧ Acyclic shortcutArcs ∧
    ranks 6 shortcutArcs = [0, 1, 2, 0, 3, 0] ∧
    (PathTo shortcutArcs 3 4 ∧ ∀ length, PathTo shortcutArcs length 4 → length ≤ 3) ∧
    (visitAll 6 shortcutArcs).visited = 6 := by
  have hrange : InRange 6 shortcutArcs := by simp [InRange, shortcutArcs]
  have hacyclic : Acyclic shortcutArcs :=
    acyclic_of_height (fun v => if v = 3 then 0 else v) (by decide)
  have hranks := ranks_eq_longest_paths 6 shortcutArcs hrange hacyclic
  exact ⟨hrange, hacyclic, by decide, hranks.2.1 4 3 (by decide), hranks.2.2.1.1⟩

end CodeAtlas.Layout
