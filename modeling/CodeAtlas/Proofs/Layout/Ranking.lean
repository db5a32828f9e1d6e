import CodeAtlas.Proofs.Layout.Layers
import CodeAtlas.Proofs.Layout.Peeling
import Mathlib.Data.List.Perm.Subperm

/-! # Ranks of an acyclic graph

The visit of a graph keeps a queue of the nodes all of whose predecessors have been
visited. In an acyclic graph it visits every node, and then the ranks lead upward along
every arc and leave no gap below a node. There is only one such ranking, so the order of
the nodes and of the arcs has no say in it.
-/

namespace CodeAtlas.Layout

/-- Every arc leads to a higher rank, and a rank above zero is one more than that of a predecessor. -/
structure IsRanking (arcs : List Arc) (rank : ℕ → ℕ) : Prop where
  lt : ∀ s t, (s, t) ∈ arcs → rank s < rank t
  tight : ∀ t, rank t ≠ 0 → ∃ s, (s, t) ∈ arcs ∧ rank t = rank s + 1

theorem IsRanking.le {arcs : List Arc} {rank rank' : ℕ → ℕ} (h : IsRanking arcs rank)
    (h' : IsRanking arcs rank') (v : ℕ) : rank v ≤ rank' v := by
  induction hk : rank v using Nat.strong_induction_on generalizing v with
  | _ k ih =>
      by_cases hzero : rank v = 0
      · omega
      · obtain ⟨u, harc, hrank⟩ := h.tight v hzero
        have hu := ih (rank u) (by omega) u rfl
        have hv := h'.lt u v harc
        omega

theorem IsRanking.unique {arcs : List Arc} {rank rank' : ℕ → ℕ} (h : IsRanking arcs rank)
    (h' : IsRanking arcs rank') (v : ℕ) : rank v = rank' v :=
  Nat.le_antisymm (h.le h' v) (h'.le h v)

namespace Ranking

/-- The longest path found so far to a node. -/
def rankOf (r : Ranking) (v : ℕ) : ℕ :=
  r.ranks.getD v 0

/-- How many arcs into a node come from nodes not visited yet. -/
def waitingOf (r : Ranking) (v : ℕ) : ℕ :=
  r.waiting.getD v 0

variable {n rank : ℕ} {arcs : List Arc} {r : Ranking} {targets : List ℕ} {v t : ℕ}

/-! ## Following the arcs out of a node -/

theorem rankOf_follow (ht : t < r.ranks.length) (v : ℕ) :
    (follow rank r t).rankOf v = if v = t then max (r.rankOf v) (rank + 1) else r.rankOf v := by
  unfold rankOf follow
  by_cases hv : v = t
  · subst hv
    simp [List.getD_eq_getElem?_getD, ht]
  · simp [List.getD_eq_getElem?_getD, hv, Ne.symm hv]

theorem waitingOf_follow (rank : ℕ) (r : Ranking) (t v : ℕ) :
    (follow rank r t).waitingOf v = r.waitingOf v - if v = t then 1 else 0 := by
  unfold waitingOf follow
  by_cases hv : v = t
  · subst hv
    by_cases hlt : v < r.waiting.length <;> simp [List.getD_eq_getElem?_getD, hlt]
  · simp [List.getD_eq_getElem?_getD, hv, Ne.symm hv]

theorem queue_follow (rank : ℕ) (ht : t < r.waiting.length) :
    (follow rank r t).queue = if r.waitingOf t ≤ 1 then r.queue ++ [t] else r.queue := by
  have hwaiting : (r.waiting.modify t (· - 1)).getD t 1 = r.waitingOf t - 1 := by
    simp [waitingOf, List.getD_eq_getElem?_getD, ht]
  unfold follow
  simp only [hwaiting, Nat.sub_eq_zero_iff_le]

theorem length_ranks_follow (rank : ℕ) (r : Ranking) (t : ℕ) :
    (follow rank r t).ranks.length = r.ranks.length := by
  simp [follow]

theorem length_waiting_follow (rank : ℕ) (r : Ranking) (t : ℕ) :
    (follow rank r t).waiting.length = r.waiting.length := by
  simp [follow]

theorem rankOf_foldl_follow (rank : ℕ) (hrange : ∀ t ∈ targets, t < r.ranks.length) (v : ℕ) :
    (targets.foldl (follow rank) r).rankOf v =
      if v ∈ targets then max (r.rankOf v) (rank + 1) else r.rankOf v := by
  induction targets generalizing r with
  | nil => simp
  | cons t rest ih =>
      have hrest : ∀ u ∈ rest, u < (follow rank r t).ranks.length := by
        intro u hu
        rw [length_ranks_follow]
        exact hrange u (by simp [hu])
      rw [List.foldl_cons, ih hrest, rankOf_follow (hrange t (by simp))]
      by_cases hv : v = t
      · by_cases hmem : v ∈ rest <;> simp [hv]
      · simp [hv]

theorem waitingOf_foldl_follow (rank : ℕ) (targets : List ℕ) (r : Ranking) (v : ℕ) :
    (targets.foldl (follow rank) r).waitingOf v = r.waitingOf v - targets.count v := by
  induction targets generalizing r with
  | nil => simp
  | cons t rest ih =>
      rw [List.foldl_cons, ih, waitingOf_follow, List.count_cons]
      by_cases hv : v = t
      · simp [hv]
        omega
      · simp [hv, Ne.symm hv]

theorem frame_foldl_follow (rank : ℕ) (targets : List ℕ) (r : Ranking) :
    (targets.foldl (follow rank) r).waiting.length = r.waiting.length ∧
      (targets.foldl (follow rank) r).visited = r.visited := by
  induction targets generalizing r with
  | nil => simp
  | cons t rest ih =>
      obtain ⟨hwaiting, hvisited⟩ := ih (follow rank r t)
      rw [length_waiting_follow] at hwaiting
      exact ⟨hwaiting, hvisited⟩

theorem count_le_waitingOf_follow (rank : ℕ) {rest : List ℕ}
    (hcount : ∀ u ∈ t :: rest, (t :: rest).count u ≤ r.waitingOf u) :
    ∀ u ∈ rest, rest.count u ≤ (follow rank r t).waitingOf u := by
  intro u hu
  have hle := hcount u (by simp [hu])
  rw [List.count_cons] at hle
  rw [waitingOf_follow]
  by_cases hut : u = t
  · subst hut
    simp at hle ⊢
    omega
  · simp [hut, Ne.symm hut] at hle ⊢
    omega

/-- A node enters the queue when the last arc into it is followed, and only then. -/
theorem queue_foldl_follow (rank : ℕ) (hrange : ∀ t ∈ targets, t < r.waiting.length)
    (hcount : ∀ t ∈ targets, targets.count t ≤ r.waitingOf t) (hnodup : r.queue.Nodup)
    (hfresh : ∀ t ∈ targets, t ∉ r.queue) :
    (targets.foldl (follow rank) r).queue.Nodup ∧
      ∀ v, v ∈ (targets.foldl (follow rank) r).queue ↔
        v ∈ r.queue ∨ v ∈ targets ∧ r.waitingOf v = targets.count v := by
  induction targets generalizing r with
  | nil => simpa using hnodup
  | cons t rest ih =>
      have hqueue := queue_follow rank (hrange t (by simp))
      have hwaiting := waitingOf_follow rank r t
      have hcounts := count_le_waitingOf_follow rank hcount
      have hcount_t := hcount t (by simp)
      rw [List.count_cons_self] at hcount_t
      have hranges : ∀ u ∈ rest, u < (follow rank r t).waiting.length := by
        intro u hu
        rw [length_waiting_follow]
        exact hrange u (by simp [hu])
      by_cases hlast : r.waitingOf t ≤ 1
      · -- `t` enters the queue now, and does not occur again.
        have hnot : t ∉ rest := by
          rw [← List.count_eq_zero]
          omega
        rw [if_pos hlast] at hqueue
        have hnodup_t : (follow rank r t).queue.Nodup := by
          rw [hqueue, List.nodup_append]
          refine ⟨hnodup, by simp, ?_⟩
          rintro a ha b hb rfl
          rw [List.mem_singleton] at hb
          exact hfresh t (by simp) (hb ▸ ha)
        have hfresh_t : ∀ u ∈ rest, u ∉ (follow rank r t).queue := by
          intro u hu
          have hne : u ≠ t := fun h => hnot (h ▸ hu)
          rw [hqueue]
          simpa [hne] using hfresh u (by simp [hu])
        obtain ⟨hnodup', hmem⟩ := ih hranges hcounts hnodup_t hfresh_t
        refine ⟨hnodup', ?_⟩
        intro v
        rw [List.foldl_cons, hmem, hqueue, hwaiting, List.count_cons]
        by_cases hv : v = t
        · subst hv
          simp [List.count_eq_zero.mpr hnot]
          omega
        · simp [hv, Ne.symm hv]
      · rw [if_neg hlast] at hqueue
        obtain ⟨hnodup', hmem⟩ := ih hranges hcounts (by rwa [hqueue])
          (by
            intro u hu
            rw [hqueue]
            exact hfresh u (by simp [hu]))
        refine ⟨hnodup', ?_⟩
        intro v
        rw [List.foldl_cons, hmem, hqueue, hwaiting, List.count_cons]
        refine or_congr_right ?_
        by_cases hv : v = t
        · subst hv
          by_cases hrest : v ∈ rest
          · simp [hrest]
            omega
          · simp [hrest, List.count_eq_zero.mpr hrest]
            omega
        · simp [hv, Ne.symm hv]

/-! ## Visiting -/

/--
The nodes `done` have been visited, and their ranks are final. The queue holds the nodes
whose turn may come: those all of whose predecessors have been visited.
-/
structure Tracks (n : ℕ) (arcs : List Arc) (done : List ℕ) (r : Ranking) : Prop where
  length_ranks : r.ranks.length = n
  length_waiting : r.waiting.length = n
  visited_eq : r.visited = done.length
  nodup_done : done.Nodup
  done_lt : ∀ v ∈ done, v < n
  closed : ∀ v ∈ done, ∀ u, (u, v) ∈ arcs → u ∈ done
  waiting_eq : ∀ v < n, r.waitingOf v = (predecessors arcs v).countP fun u => u ∉ done
  nodup_queue : r.queue.Nodup
  mem_queue : ∀ v, v ∈ r.queue ↔ v < n ∧ v ∉ done ∧ ∀ u, (u, v) ∈ arcs → u ∈ done
  lt : ∀ s ∈ done, ∀ t, (s, t) ∈ arcs → r.rankOf s < r.rankOf t
  tight : ∀ t, r.rankOf t ≠ 0 → ∃ s ∈ done, (s, t) ∈ arcs ∧ r.rankOf t = r.rankOf s + 1

theorem Tracks.start (n : ℕ) (arcs : List Arc) : Tracks n arcs [] (start n arcs) where
  length_ranks := by simp [Ranking.start]
  length_waiting := by simp [Ranking.start]
  visited_eq := rfl
  nodup_done := List.nodup_nil
  done_lt v hv := by cases hv
  closed v hv := by cases hv
  waiting_eq v hv := by
    simp [Ranking.start, waitingOf, List.getD_eq_getElem?_getD, hv]
  nodup_queue := List.nodup_range.filter _
  mem_queue v := by
    simp [Ranking.start, List.eq_nil_iff_forall_not_mem]
  lt s hs := by cases hs
  tight t ht := by
    by_cases hlt : t < n <;> simp [Ranking.start, rankOf, List.getD_eq_getElem?_getD, hlt] at ht

/-- The first node has left the queue, and `queue` is the rest of it. -/
def dequeued (r : Ranking) (queue : List ℕ) : Ranking :=
  { r with queue := queue, visited := r.visited + 1 }

/-- The visit of the node `v`, which has left the queue. -/
def visitNode (arcs : List Arc) (r : Ranking) (v : ℕ) (queue : List ℕ) : Ranking :=
  (successors arcs v).foldl (follow (r.rankOf v)) (r.dequeued queue)

section VisitNode

variable {done queue : List ℕ}

/-- An arc out of a node that is not visited yet leads to another such node. -/
theorem Tracks.not_mem_done_of_arc (h : Tracks n arcs done r) (hv : v ∉ done)
    (harc : (v, t) ∈ arcs) : t ∉ done :=
  fun ht => hv (h.closed t ht v harc)

theorem Tracks.waitingOf_eq_add_count (h : Tracks n arcs done r) (hv : v ∉ done) (ht : t < n) :
    r.waitingOf t = (predecessors arcs t).countP (fun u => u ∉ v :: done) +
      (successors arcs v).count t := by
  have hsplit : (predecessors arcs t).countP (fun u => u ∉ done) =
      (predecessors arcs t).countP (fun u => decide (u ∉ done) && u != v) +
        (predecessors arcs t).count v :=
    countP_eq_countP_ne_add_count (decide_eq_true hv) _
  have hsame : (fun u => decide (u ∉ done) && u != v) = fun u => decide (u ∉ v :: done) := by
    funext u
    by_cases huv : u = v <;> simp [huv]
  rw [h.waiting_eq t ht, hsplit, hsame, count_predecessors, count_successors]

theorem Tracks.rankOf_visitNode (h : Tracks n arcs done r) (hrange : InRange n arcs) (v : ℕ)
    (queue : List ℕ) (t : ℕ) :
    (visitNode arcs r v queue).rankOf t =
      if (v, t) ∈ arcs then max (r.rankOf t) (r.rankOf v + 1) else r.rankOf t := by
  have hlt : ∀ u ∈ successors arcs v, u < r.ranks.length := by
    intro u hu
    rw [h.length_ranks]
    exact (hrange (v, u) (mem_successors.mp hu)).2
  have hrank := rankOf_foldl_follow (r := r.dequeued queue) (r.rankOf v) hlt t
  simp only [mem_successors] at hrank
  exact hrank

/-- The nodes whose turn may come after `v` has been visited. -/
theorem Tracks.queue_visitNode (h : Tracks n arcs done r) (hrange : InRange n arcs)
    (hqueue : r.queue = v :: queue) :
    (visitNode arcs r v queue).queue.Nodup ∧
      ∀ t, t ∈ (visitNode arcs r v queue).queue ↔
        t < n ∧ t ∉ v :: done ∧ ∀ u, (u, t) ∈ arcs → u ∈ v :: done := by
  have hmem : ∀ t, t = v ∨ t ∈ queue ↔ t < n ∧ t ∉ done ∧ ∀ u, (u, t) ∈ arcs → u ∈ done := by
    simpa [hqueue] using h.mem_queue
  obtain ⟨-, hv, hbefore⟩ := (hmem v).mp (Or.inl rfl)
  have hnodup := h.nodup_queue
  rw [hqueue, List.nodup_cons] at hnodup
  have hlt : ∀ t ∈ successors arcs v, t < n := fun t ht => (hrange (v, t) (mem_successors.mp ht)).2
  have hcount : ∀ t ∈ successors arcs v, (successors arcs v).count t ≤ r.waitingOf t := by
    intro t ht
    rw [h.waitingOf_eq_add_count hv (hlt t ht)]
    omega
  have hfresh : ∀ t ∈ successors arcs v, t ∉ queue := by
    intro t ht hin
    exact hv (((hmem t).mp (Or.inr hin)).2.2 v (mem_successors.mp ht))
  have hlength : ∀ t ∈ successors arcs v, t < r.waiting.length := by
    rw [h.length_waiting]
    exact hlt
  obtain ⟨hnodup', hpushed⟩ := queue_foldl_follow (r := r.dequeued queue) (r.rankOf v) hlength
    hcount hnodup.2 hfresh
  refine ⟨hnodup', ?_⟩
  intro t
  simp only [mem_successors] at hpushed
  refine (hpushed t).trans ?_
  show t ∈ queue ∨ (v, t) ∈ arcs ∧ r.waitingOf t = (successors arcs v).count t ↔ _
  constructor
  · rintro (hin | ⟨harc, hwaiting⟩)
    · obtain ⟨ht, hnot, hpred⟩ := (hmem t).mp (Or.inr hin)
      have hne : t ≠ v := by
        rintro rfl
        exact hnodup.1 hin
      exact ⟨ht, by simp [hne, hnot], fun u hu => by simp [hpred u hu]⟩
    · have ht := hlt t (mem_successors.mpr harc)
      have hne : t ≠ v := by
        rintro rfl
        exact hv (hbefore t harc)
      rw [h.waitingOf_eq_add_count hv ht, Nat.add_eq_right, List.countP_eq_zero] at hwaiting
      refine ⟨ht, by simp [hne, h.not_mem_done_of_arc hv harc], fun u hu => ?_⟩
      simpa only [decide_eq_true_eq, not_not] using hwaiting u (mem_predecessors.mpr hu)
  · rintro ⟨ht, hnot, hpred⟩
    by_cases harc : (v, t) ∈ arcs
    · refine Or.inr ⟨harc, ?_⟩
      rw [h.waitingOf_eq_add_count hv ht, Nat.add_eq_right, List.countP_eq_zero]
      intro u hu
      simpa only [decide_eq_true_eq, not_not] using hpred u (mem_predecessors.mp hu)
    · have hready : ∀ u, (u, t) ∈ arcs → u ∈ done := by
        intro u hu
        rcases List.mem_cons.mp (hpred u hu) with rfl | hdone
        · exact absurd hu harc
        · exact hdone
      rw [List.mem_cons, not_or] at hnot
      exact Or.inl (((hmem t).mpr ⟨ht, hnot.2, hready⟩).resolve_left hnot.1)

theorem Tracks.mem_done_of_arc (h : Tracks n arcs done r) (hv : v ∈ r.queue) (ht : t ∈ v :: done)
    {u : ℕ} (harc : (u, t) ∈ arcs) : u ∈ done := by
  rcases List.mem_cons.mp ht with rfl | ht
  · exact ((h.mem_queue t).mp hv).2.2 u harc
  · exact h.closed t ht u harc

/-- The rank of a visited node is final, since no arc out of `v` leads to it. -/
theorem Tracks.rankOf_visitNode_of_mem (h : Tracks n arcs done r) (hrange : InRange n arcs)
    (hv : v ∈ r.queue) (queue : List ℕ) (ht : t ∈ v :: done) :
    (visitNode arcs r v queue).rankOf t = r.rankOf t := by
  rw [h.rankOf_visitNode hrange, if_neg]
  intro harc
  exact ((h.mem_queue v).mp hv).2.1 (h.mem_done_of_arc hv ht harc)

theorem Tracks.lt_visitNode (h : Tracks n arcs done r) (hrange : InRange n arcs)
    (hv : v ∈ r.queue) (queue : List ℕ) {s : ℕ} (hs : s ∈ v :: done) (harc : (s, t) ∈ arcs) :
    (visitNode arcs r v queue).rankOf s < (visitNode arcs r v queue).rankOf t := by
  rw [h.rankOf_visitNode_of_mem hrange hv queue hs, h.rankOf_visitNode hrange]
  rcases List.mem_cons.mp hs with rfl | hdone
  · rw [if_pos harc]
    omega
  · have hlt := h.lt s hdone t harc
    split <;> omega

theorem Tracks.tight_visitNode (h : Tracks n arcs done r) (hrange : InRange n arcs)
    (hv : v ∈ r.queue) (queue : List ℕ) (ht : (visitNode arcs r v queue).rankOf t ≠ 0) :
    ∃ s ∈ v :: done, (s, t) ∈ arcs ∧
      (visitNode arcs r v queue).rankOf t = (visitNode arcs r v queue).rankOf s + 1 := by
  by_cases hraised : (v, t) ∈ arcs ∧ r.rankOf t ≤ r.rankOf v + 1
  · have hself := h.rankOf_visitNode_of_mem hrange hv queue (t := v) List.mem_cons_self
    refine ⟨v, List.mem_cons_self, hraised.1, ?_⟩
    rw [hself, h.rankOf_visitNode hrange, if_pos hraised.1]
    omega
  · have hkept : (visitNode arcs r v queue).rankOf t = r.rankOf t := by
      rw [h.rankOf_visitNode hrange]
      by_cases harc : (v, t) ∈ arcs
      · have hlarge : ¬ r.rankOf t ≤ r.rankOf v + 1 := fun hle => hraised ⟨harc, hle⟩
        rw [if_pos harc]
        omega
      · rw [if_neg harc]
    rw [hkept] at ht ⊢
    obtain ⟨s, hs, harc, hrank⟩ := h.tight t ht
    have hs' : s ∈ v :: done := by simp [hs]
    exact ⟨s, hs', harc, by rw [hrank, h.rankOf_visitNode_of_mem hrange hv queue hs']⟩

theorem Tracks.visitNode (h : Tracks n arcs done r) (hrange : InRange n arcs)
    (hqueue : r.queue = v :: queue) : Tracks n arcs (v :: done) (visitNode arcs r v queue) := by
  have hv : v ∈ r.queue := by simp [hqueue]
  obtain ⟨hlt, hnew, -⟩ := (h.mem_queue v).mp hv
  obtain ⟨hnodup, hmem⟩ := h.queue_visitNode hrange hqueue
  have hranks := length_ranks_foldl_follow (r.rankOf v) (successors arcs v) (r.dequeued queue)
  obtain ⟨hwaiting, hvisited⟩ :=
    frame_foldl_follow (r.rankOf v) (successors arcs v) (r.dequeued queue)
  have hcount := waitingOf_foldl_follow (r.rankOf v) (successors arcs v) (r.dequeued queue)
  exact
    { length_ranks := hranks.trans h.length_ranks
      length_waiting := hwaiting.trans h.length_waiting
      visited_eq := hvisited.trans (congrArg (· + 1) h.visited_eq)
      nodup_done := List.nodup_cons.mpr ⟨hnew, h.nodup_done⟩
      done_lt := List.forall_mem_cons.mpr ⟨hlt, h.done_lt⟩
      closed := fun t ht u harc => List.mem_cons_of_mem v (h.mem_done_of_arc hv ht harc)
      waiting_eq := by
        intro t ht
        have hsplit := h.waitingOf_eq_add_count hnew ht
        have hless : (Ranking.visitNode arcs r v queue).waitingOf t =
            r.waitingOf t - (successors arcs v).count t := hcount t
        omega
      nodup_queue := hnodup
      mem_queue := hmem
      lt := fun s hs t harc => h.lt_visitNode hrange hv queue hs harc
      tight := fun t ht => h.tight_visitNode hrange hv queue ht }

end VisitNode

/-- If nothing waits in the queue, every node of an acyclic graph has been visited. -/
theorem Tracks.mem_done_of_queue_nil {done : List ℕ} (h : Tracks n arcs done r)
    (hrange : InRange n arcs) (hacyclic : Acyclic arcs) (hqueue : r.queue = []) (hv : v < n) :
    v ∈ done := by
  by_contra hnot
  have hne : ((List.range n).filter fun u => u ∉ done) ≠ [] := by
    apply List.ne_nil_of_mem (a := v)
    simp [hv, hnot]
  obtain ⟨u, hu, hsource⟩ := hacyclic.exists_source hne
  simp only [List.mem_filter, List.mem_range, decide_eq_true_eq] at hu hsource
  have hready : u ∈ r.queue := by
    refine (h.mem_queue u).mpr ⟨hu.1, hu.2, ?_⟩
    intro s harc
    by_contra hs
    exact hsource s ⟨(hrange (s, u) harc).1, hs⟩ harc
  rw [hqueue] at hready
  cases hready

/-- The visit of an acyclic graph on `n` nodes ends with all of them visited. -/
theorem Tracks.visit {done : List ℕ} (h : Tracks n arcs done r) (hrange : InRange n arcs)
    (hacyclic : Acyclic arcs) (visits : ℕ) (hvisits : n ≤ done.length + visits) :
    ∃ all, Tracks n arcs all (visit arcs visits r) ∧ ∀ v < n, v ∈ all := by
  induction visits generalizing done r with
  | zero =>
      have hsub : done.Subperm (List.range n) :=
        List.subperm_of_subset h.nodup_done fun v hv => List.mem_range.mpr (h.done_lt v hv)
      have hperm := hsub.perm_of_length_le (by simpa using hvisits)
      exact ⟨done, h, fun v hv => hperm.mem_iff.mpr (List.mem_range.mpr hv)⟩
  | succ visits ih =>
      unfold Ranking.visit
      cases hqueue : r.queue with
      | nil => exact ⟨done, h, fun v hv => h.mem_done_of_queue_nil hrange hacyclic hqueue hv⟩
      | cons v queue =>
          apply ih (h.visitNode hrange hqueue)
          rw [List.length_cons]
          omega

end Ranking

/-- The ranks of an acyclic graph are a ranking. -/
theorem isRanking_ranks {n : ℕ} {arcs : List Arc} (hrange : InRange n arcs)
    (hacyclic : Acyclic arcs) : IsRanking arcs fun v => (ranks n arcs).getD v 0 := by
  obtain ⟨all, htracks, hall⟩ :=
    (Ranking.Tracks.start n arcs).visit hrange hacyclic n (by simp)
  constructor
  · intro s t harc
    exact htracks.lt s (hall s (hrange (s, t) harc).1) t harc
  · intro t ht
    obtain ⟨s, -, harc, hrank⟩ := htracks.tight t ht
    exact ⟨s, harc, hrank⟩

end CodeAtlas.Layout
