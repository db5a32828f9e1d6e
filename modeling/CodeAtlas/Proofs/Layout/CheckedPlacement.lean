import CodeAtlas.Proofs.Layout.CheckedOrder
import CodeAtlas.Proofs.Layout.LongestPaths

/-! # Placement with every access checked

Ranks, layers, sweeps and coordinates, again with functions that stop at a position outside
of its table, at a counter that stands at zero and at turns that are over too soon. Together
with the checked greedy order they place every graph of boxes, however malformed its arcs,
and place it as the unchecked functions do.
-/

namespace CodeAtlas.Layout.Checked

variable {n v : ℕ} {arcs : List Arc}

/-! ## Ranks -/

/-- How many arcs lead into each of `n` nodes, counted arc by arc. -/
def arrivals (n : ℕ) (arcs : List Arc) : Option (List ℕ) :=
  collect Prod.snd (fun count _ => count + 1) (List.replicate n 0) arcs

def follow (rank : ℕ) (r : Ranking) (t : ℕ) : Option Ranking := do
  let ranks ← update r.ranks t fun known => some (max known (rank + 1))
  let waiting ← update r.waiting t oneLess
  let left ← waiting[t]?
  return { r with
    ranks := ranks
    waiting := waiting
    queue := if left = 0 then r.queue ++ [t] else r.queue }

/-- Visit the nodes of the queue. The queue has to be empty when the visits are over. -/
def visit (out : List (List ℕ)) : ℕ → Ranking → Option Ranking
  | 0, r => if r.queue.isEmpty then some r else none
  | visits + 1, r =>
    match r.queue with
    | [] => some r
    | v :: queue => do
      let targets ← out[v]?
      let rank ← r.ranks[v]?
      let r ← targets.foldlM (follow rank) (r.dequeued queue)
      visit out visits r

def ranks (n : ℕ) (arcs : List Arc) : Option (List ℕ) := do
  let out ← rows n arcs
  let waiting ← arrivals n arcs
  let queue ← (List.range n).filterM fun v => do return (← waiting[v]?) == 0
  return (← visit out n ⟨List.replicate n 0, waiting, queue, 0⟩).ranks

theorem getElem?_foldl_count (arcs : List Arc) (table : List ℕ) (v : ℕ) :
    (arcs.foldl (fun table arc => table.modify arc.2 (· + 1)) table)[v]? =
      table[v]?.map (· + (predecessors arcs v).length) := by
  induction arcs generalizing table with
  | nil => simp [predecessors]
  | cons arc rest ih =>
      rw [List.foldl_cons, ih, List.getElem?_modify]
      by_cases hv : arc.2 = v
      · cases table[v]? with
        | none => simp [hv]
        | some count =>
            simp [predecessors, hv]
            omega
      · simp [predecessors, hv]

theorem arrivals_eq_some (hrange : InRange n arcs) :
    arrivals n arcs = some ((List.range n).map fun v => (predecessors arcs v).length) := by
  unfold arrivals
  rw [collect_eq_some fun arc harc => by simpa using (hrange arc harc).2]
  congr 1
  apply List.ext_getElem?
  intro v
  rw [getElem?_foldl_count, List.getElem?_map]
  by_cases hv : v < n <;> simp [hv]

section Visit

variable {r : Ranking} {t rank visits : ℕ}

theorem follow_eq_some (ht : t < r.ranks.length) (hwaits : 0 < r.waitingOf t) :
    follow rank r t = some (Ranking.follow rank r t) := by
  have hlt : t < r.waiting.length := by
    by_contra hge
    simp [Ranking.waitingOf, List.getD_eq_getElem?_getD, hge] at hwaits
  have hpos : 0 < r.waiting[t] := by
    simpa [Ranking.waitingOf, List.getD_eq_getElem?_getD, hlt] using hwaits
  have hless : oneLess r.waiting[t] = some (r.waiting[t] - 1) := by
    cases hcount : r.waiting[t] with
    | zero => omega
    | succ count => rfl
  have hranks : update r.ranks t (fun known => some (max known (rank + 1))) =
      some (r.ranks.modify t (max · (rank + 1))) :=
    update_eq_some_modify (List.getElem?_eq_getElem ht) rfl
  have hwaiting : update r.waiting t oneLess = some (r.waiting.modify t (· - 1)) :=
    update_eq_some_modify (List.getElem?_eq_getElem hlt) hless
  simp [follow, hranks, hwaiting, Ranking.follow, List.getD_eq_getElem?_getD, hlt]

/-- No counter is at zero when one is taken from it: the arc that is followed still counts. -/
theorem foldlM_follow_eq_some {done : List ℕ} (hrange : InRange n arcs)
    (h : r.Tracks n arcs done) (hv : v ∉ done) (queue : List ℕ) :
    (successors arcs v).foldlM (follow (r.rankOf v)) (r.dequeued queue) =
      some (r.visitNode arcs v queue) := by
  have hlt : ∀ t ∈ successors arcs v, t < n := fun t ht => (hrange (v, t) (mem_successors.mp ht)).2
  refine foldlM_eq_some_foldl (fun rest (r : Ranking) => r.ranks.length = n ∧
    (∀ t ∈ rest, t < n) ∧ ∀ t ∈ rest, rest.count t ≤ r.waitingOf t) ?_ ⟨h.length_ranks, hlt, ?_⟩
  · intro t rest r hinv
    obtain ⟨hlength, hnodes, hcount⟩ := hinv
    have ht : t < r.ranks.length := by
      rw [hlength]
      exact hnodes t List.mem_cons_self
    have hwaits := hcount t List.mem_cons_self
    rw [List.count_cons_self] at hwaits
    refine ⟨follow_eq_some ht (by omega), ?_, ?_, ?_⟩
    · rw [Ranking.length_ranks_follow, hlength]
    · exact fun u hu => hnodes u (List.mem_cons_of_mem t hu)
    · exact Ranking.count_le_waitingOf_follow _ hcount
  · intro t ht
    have hsplit := h.waitingOf_eq_add_count hv (hlt t ht)
    show (successors arcs v).count t ≤ r.waitingOf t
    omega

theorem visit_eq_some {done : List ℕ} (hrange : InRange n arcs) (h : r.Tracks n arcs done)
    (hvisits : n ≤ done.length + visits) :
    visit ((List.range n).map (successors arcs)) visits r = some (Ranking.visit arcs visits r) := by
  induction visits generalizing done r with
  | zero =>
      have hsub : done.Subperm (List.range n) :=
        List.subperm_of_subset h.nodup_done fun v hv => List.mem_range.mpr (h.done_lt v hv)
      have hperm := hsub.perm_of_length_le (by simpa using hvisits)
      have hnil : r.queue = [] := by
        rw [List.eq_nil_iff_forall_not_mem]
        intro v hv
        have hready := (h.mem_queue v).mp hv
        exact hready.2.1 (hperm.mem_iff.mpr (List.mem_range.mpr hready.1))
      simp [visit, Ranking.visit, hnil]
  | succ visits ih =>
      rw [visit, Ranking.visit]
      cases hqueue : r.queue with
      | nil => rfl
      | cons v queue =>
          obtain ⟨hlt, hnew, -⟩ := (h.mem_queue v).mp (by simp [hqueue])
          have hrank : r.ranks[v]? = some (r.rankOf v) := by
            simp [Ranking.rankOf, List.getD_eq_getElem?_getD, h.length_ranks, hlt]
          have hnext := ih (h.visitNode hrange hqueue) (by rw [List.length_cons]; omega)
          simp only [List.getElem?_map, List.getElem?_range hlt, Option.map_some, hrank,
            Option.bind_eq_bind, Option.bind_some, foldlM_follow_eq_some hrange h hnew]
          exact hnext

theorem ranks_eq_some (hrange : InRange n arcs) :
    ranks n arcs = some (Layout.ranks n arcs) := by
  have hqueue : (List.range n).filterM (fun v => do
      return (← ((List.range n).map fun v => (predecessors arcs v).length)[v]?) == 0) =
      some (Ranking.start n arcs).queue := by
    apply filterM_eq_some_filter
    intro v hv
    cases hpred : predecessors arcs v <;> simp [List.mem_range.mp hv, hpred]
  have hvisit := visit_eq_some hrange (Ranking.Tracks.start n arcs) (by simp : n ≤ 0 + n)
  simp only [ranks, rows_eq_some fun arc harc => (hrange arc harc).1, arrivals_eq_some hrange,
    Option.bind_eq_bind, Option.bind_some] at hqueue ⊢
  rw [hqueue]
  simp only [Option.bind_some]
  have hstart : (⟨List.replicate n 0, (List.range n).map fun v => (predecessors arcs v).length,
      (Ranking.start n arcs).queue, 0⟩ : Ranking) = Ranking.start n arcs := rfl
  rw [hstart, hvisit]
  rfl

end Visit

/-! ## Layers -/

/-- Nodes in the order of their weights, each of which has to be known. -/
def sortBy {β : Type} (weight : ℕ → Option β) (le : β → β → Bool) (nodes : List ℕ) :
    Option (List ℕ) := do
  let weighted ← nodes.mapM fun v => do return (v, ← weight v)
  return (weighted.mergeSort fun a b => le a.2 b.2).map (·.1)

def layers (keys : List String) (ranks : List ℕ) : Option (List (List ℕ)) := do
  let table ← rows (layerCount ranks) ranks.zipIdx
  table.mapM (sortBy (fun v => keys[v]?) fun a b => decide (a ≤ b))

theorem sortBy_eq_some {β : Type} {weight : ℕ → Option β} {known : ℕ → β} (le : β → β → Bool)
    {nodes : List ℕ} (h : ∀ v ∈ nodes, weight v = some (known v)) :
    sortBy weight le nodes = some (((nodes.map fun v => (v, known v)).mergeSort
      fun a b => le a.2 b.2).map (·.1)) := by
  have hweighted : nodes.mapM (fun v => do return (v, ← weight v)) =
      some (nodes.map fun v => (v, known v)) := by
    apply mapM_eq_some_map
    intro v hv
    simp [h v hv]
  simp only [sortBy, hweighted]
  rfl

theorem sortBy_eq_some_mergeSort {β : Type} {weight : ℕ → Option β} {known : ℕ → β}
    (le : β → β → Bool) {nodes : List ℕ} (h : ∀ v ∈ nodes, weight v = some (known v)) :
    sortBy weight le nodes = some (nodes.mergeSort fun a b => le (known a) (known b)) := by
  have hsorted : (nodes.map fun v => (v, known v)).mergeSort (fun a b => le a.2 b.2) =
      (nodes.mergeSort fun a b => le (known a) (known b)).map fun v => (v, known v) := by
    rw [List.map_mergeSort]
    exact fun _ _ _ _ => rfl
  rw [sortBy_eq_some le h, hsorted, List.map_map]
  exact congrArg some (List.map_id _)

theorem successors_zipIdx (ranks : List ℕ) (rank : ℕ) :
    successors ranks.zipIdx rank =
      (List.range ranks.length).filter fun v => ranks.getD v 0 == rank := by
  have hzip : ranks.zipIdx = (List.range ranks.length).map fun v => (ranks.getD v 0, v) := by
    apply List.ext_getElem?
    intro v
    rw [List.getElem?_zipIdx, List.getElem?_map]
    by_cases hv : v < ranks.length <;> simp [List.getD_eq_getElem?_getD, hv]
  rw [hzip, successors, List.filterMap_map, ← List.filterMap_eq_filter]
  apply List.filterMap_congr
  intro v _
  by_cases hv : ranks.getD v 0 = rank <;> simp [Option.guard]

theorem layers_eq_some {keys : List String} {ranks : List ℕ}
    (hlength : keys.length = ranks.length) :
    layers keys ranks = some (Layout.layers keys ranks) := by
  have htable : rows (layerCount ranks) ranks.zipIdx =
      some ((List.range (layerCount ranks)).map (successors ranks.zipIdx)) := by
    apply rows_eq_some
    intro entry hentry
    exact lt_layerCount (List.fst_mem_of_mem_zipIdx hentry)
  have hsort : ∀ rank ∈ List.range (layerCount ranks),
      sortBy (fun v => keys[v]?) (fun a b => decide (a ≤ b)) (successors ranks.zipIdx rank) =
        some (((List.range ranks.length).filter fun v => ranks.getD v 0 == rank).mergeSort
          fun a b => decide (keys.getD a "" ≤ keys.getD b "")) := by
    intro rank _
    rw [successors_zipIdx]
    refine sortBy_eq_some_mergeSort (fun a b => decide (a ≤ b)) ?_
    intro v hv
    have hlt : v < keys.length := by
      rw [hlength]
      exact List.mem_range.mp (List.mem_filter.mp hv).1
    simp [List.getD_eq_getElem?_getD, hlt]
  simp only [layers, htable, Option.bind_eq_bind, Option.bind_some, List.mapM_map]
  exact mapM_eq_some_map hsort

/-! ## Sweeps -/

section Sweeps

variable {α : Type} [Scalar α]

def barycenter (positions : List α) (around : List (List ℕ)) (v : ℕ) : Option α := do
  let near ← around[v]?
  if near.isEmpty then positions[v]?
  else
    let places ← near.mapM fun u => positions[u]?
    return Scalar.total places / Scalar.ofNat near.length

def sweep (around : List (List ℕ)) : List α → List (List ℕ) → Option (List α × List (List ℕ))
  | positions, [] => some (positions, [])
  | positions, layer :: rest => do
    let layer ← sortBy (barycenter positions around) (fun a b => !decide (b < a)) layer
    let swept ← sweep around (← stamp Scalar.ofNat positions layer) rest
    return (swept.1, layer :: swept.2)

def sweepAfterFirst (around : List (List ℕ)) (positions : List α) :
    List (List ℕ) → Option (List α × List (List ℕ))
  | [] => some (positions, [])
  | first :: rest => do
    let swept ← sweep around positions rest
    return (swept.1, first :: swept.2)

def sweepBothWays (around : Neighbours) (state : List α × List (List ℕ)) :
    Option (List α × List (List ℕ)) := do
  let down ← sweepAfterFirst around.into state.1 state.2
  let up ← sweepAfterFirst around.out down.1 down.2.reverse
  return (up.1, up.2.reverse)

def sweeps (around : Neighbours) :
    ℕ → List α × List (List ℕ) → Option (List α × List (List ℕ))
  | 0, state => some state
  | times + 1, state => do sweepBothWays around (← sweeps around times state)

def untangle (α : Type) [Scalar α] (n : ℕ) (arcs : List Arc) (layers : List (List ℕ)) :
    Option (List (List ℕ)) := do
  let around ← neighbours n arcs
  let positions ← layers.foldlM (stamp (Scalar.ofNat : ℕ → α)) (List.replicate n 0)
  return (← sweeps around sweepCount (positions, layers)).2

/-- There is a position for each of `n` nodes, and the layers hold no others. -/
structure Fits (n : ℕ) (state : List α × List (List ℕ)) : Prop where
  length_eq : state.1.length = n
  lt : ∀ v ∈ state.2.flatten, v < n

omit [Scalar α] in
theorem Fits.of_perm {state state' : List α × List (List ℕ)} (h : Fits n state)
    (hlength : state'.1.length = state.1.length)
    (hperm : List.Forall₂ List.Perm state'.2 state.2) : Fits n state' where
  length_eq := hlength.trans h.length_eq
  lt v hv := h.lt v ((List.Perm.flatten_congr hperm).mem_iff.mp hv)

omit [Scalar α] in
theorem Fits.tail {positions positions' : List α} {layer : List ℕ} {rest : List (List ℕ)}
    (h : Fits n (positions, layer :: rest)) (hlength : positions'.length = positions.length) :
    Fits n (positions', rest) where
  length_eq := hlength.trans h.length_eq
  lt v hv := h.lt v (List.mem_append_right layer hv)

omit [Scalar α] in
theorem Fits.reverse {state : List α × List (List ℕ)} (h : Fits n state) :
    Fits n (state.1, state.2.reverse) where
  length_eq := h.length_eq
  lt v hv := h.lt v ((List.reverse_perm state.2).flatten.mem_iff.mp hv)

variable {positions : List α} {around : ℕ → List ℕ}

theorem stamp_eq_some_reposition {layer : List ℕ} (h : ∀ v ∈ layer, v < positions.length) :
    stamp Scalar.ofNat positions layer = some (reposition positions layer) :=
  stamp_eq_some h

theorem barycenter_eq_some (haround : ∀ v, ∀ u ∈ around v, u < n) (hlength : positions.length = n)
    (hv : v < n) :
    barycenter positions ((List.range n).map around) v =
      some (Layout.barycenter positions around v) := by
  have hknown : ∀ u < n, positions[u]? = some (positions.getD u 0) := by
    intro u hu
    simp [List.getD_eq_getElem?_getD, hlength, hu]
  unfold barycenter Layout.barycenter
  simp only [List.getElem?_map, List.getElem?_range hv, Option.map_some, Option.bind_eq_bind,
    Option.bind_some]
  cases hnear : around v with
  | nil => exact hknown v hv
  | cons first rest =>
      have hplaces : (first :: rest).mapM (fun u => positions[u]?) =
          some ((first :: rest).map fun u => positions.getD u 0) := by
        apply mapM_eq_some_map
        intro u hu
        exact hknown u (haround v u (by rwa [hnear]))
      simp only [List.isEmpty_cons, Bool.false_eq_true, if_false, hplaces, Option.bind_some]
      rfl

theorem sweep_eq_some (haround : ∀ v, ∀ u ∈ around v, u < n) {layers : List (List ℕ)}
    (h : Fits n (positions, layers)) :
    sweep ((List.range n).map around) positions layers =
      some (Layout.sweep around positions layers) := by
  induction layers generalizing positions with
  | nil => rfl
  | cons layer rest ih =>
      have hlayer : ∀ v ∈ layer, v < n := fun v hv => h.lt v (by simp [hv])
      have hsort : sortBy (barycenter positions ((List.range n).map around))
          (fun a b => !decide (b < a)) layer = some (sortLayer positions around layer) :=
        sortBy_eq_some _ fun v hv => barycenter_eq_some haround h.length_eq (hlayer v hv)
      have hstamp : stamp Scalar.ofNat positions (sortLayer positions around layer) =
          some (reposition positions (sortLayer positions around layer)) := by
        apply stamp_eq_some_reposition
        intro v hv
        rw [h.length_eq]
        exact hlayer v ((sortLayer_perm positions around layer).mem_iff.mp hv)
      have hrest := ih (h.tail (length_reposition positions (sortLayer positions around layer)))
      simp only [sweep, hsort, hstamp, hrest, Option.bind_eq_bind, Option.bind_some]
      rfl

theorem sweepAfterFirst_eq_some (haround : ∀ v, ∀ u ∈ around v, u < n) {layers : List (List ℕ)}
    (h : Fits n (positions, layers)) :
    sweepAfterFirst ((List.range n).map around) positions layers =
      some (Layout.sweepAfterFirst around positions layers) := by
  cases layers with
  | nil => rfl
  | cons first rest =>
      simp only [sweepAfterFirst, sweep_eq_some haround (h.tail rfl), Option.bind_eq_bind,
        Option.bind_some]
      rfl

variable {state : List α × List (List ℕ)}

theorem Fits.sweepAfterFirst (h : Fits n state) (around : ℕ → List ℕ) :
    Fits n (Layout.sweepAfterFirst around state.1 state.2) :=
  h.of_perm (length_sweepAfterFirst around state.1 state.2)
    (sweepAfterFirst_perm around state.1 state.2)

theorem sweepBothWays_eq_some (hrange : InRange n arcs) (h : Fits n state) :
    sweepBothWays (Neighbours.ofArcs n arcs) state = some (Layout.sweepBothWays arcs state) ∧
      Fits n (Layout.sweepBothWays arcs state) := by
  have hinto : ∀ v, ∀ u ∈ predecessors arcs v, u < n :=
    fun v u hu => (hrange (u, v) (mem_predecessors.mp hu)).1
  have hout : ∀ v, ∀ u ∈ successors arcs v, u < n :=
    fun v u hu => (hrange (v, u) (mem_successors.mp hu)).2
  have hdown := (h.sweepAfterFirst (predecessors arcs)).reverse
  have hup := (hdown.sweepAfterFirst (successors arcs)).reverse
  refine ⟨?_, hup⟩
  simp only [sweepBothWays, Neighbours.ofArcs, sweepAfterFirst_eq_some hinto h,
    sweepAfterFirst_eq_some hout hdown, Option.bind_eq_bind, Option.bind_some]
  rfl

theorem sweeps_eq_some (hrange : InRange n arcs) (times : ℕ) (h : Fits n state) :
    sweeps (Neighbours.ofArcs n arcs) times state =
        some (Nat.repeat (Layout.sweepBothWays arcs) times state) ∧
      Fits n (Nat.repeat (Layout.sweepBothWays arcs) times state) := by
  induction times with
  | zero => exact ⟨rfl, h⟩
  | succ times ih =>
      have hlast := sweepBothWays_eq_some hrange ih.2
      refine ⟨?_, hlast.2⟩
      rw [sweeps, ih.1]
      exact hlast.1

theorem untangle_eq_some (hrange : InRange n arcs) {layers : List (List ℕ)}
    (hlt : ∀ v ∈ layers.flatten, v < n) :
    untangle α n arcs layers = some (Layout.untangle α n arcs layers) := by
  have hpositions : layers.foldlM (stamp (Scalar.ofNat : ℕ → α)) (List.replicate n 0) =
      some (layers.foldl reposition (List.replicate n 0)) := by
    refine foldlM_eq_some_foldl (fun rest (positions : List α) => Fits n (positions, rest)) ?_
      ⟨List.length_replicate, hlt⟩
    intro layer rest positions hfits
    refine ⟨stamp_eq_some_reposition ?_, hfits.tail (length_reposition positions layer)⟩
    intro v hv
    rw [hfits.length_eq]
    exact hfits.lt v (List.mem_append_left _ hv)
  have hfits : Fits n (layers.foldl reposition (List.replicate n (0 : α)), layers) :=
    ⟨(length_foldl_reposition _ layers).trans List.length_replicate, hlt⟩
  simp only [untangle, neighbours_eq_some hrange, hpositions,
    (sweeps_eq_some hrange sweepCount hfits).1, Option.bind_eq_bind, Option.bind_some]
  rfl

end Sweeps

/-! ## Coordinates -/

section Coordinates

variable {α : Type} [Scalar α]

def placeLayer (s : Spacing α) (sizes : List (Point α)) (middle : α) :
    α → List ℕ → List (Point α) → Option (List (Point α))
  | _, [], centers => some centers
  | start, v :: rest, centers => do
    let extent := s.direction.across (← sizes[v]?)
    let center := s.direction.point middle (start + Scalar.half extent)
    let centers ← update centers v fun _ => some center
    placeLayer s sizes middle (start + (extent + s.nodeSeparation)) rest centers

def placeLayers (s : Spacing α) (sizes : List (Point α)) :
    α → List (List ℕ) → List (Point α) → Option (List (Point α))
  | _, [], centers => some centers
  | offset, layer :: rest, centers => do
    let extents ← layer.mapM fun v => sizes[v]?
    let depth := s.depth extents
    let centers ← placeLayer s sizes (offset + Scalar.half depth)
      (Scalar.half (-s.breadth extents)) layer centers
    placeLayers s sizes (offset + (depth + s.rankSeparation)) rest centers

def place (s : Spacing α) (g : FileGraph α) : Option (List (Point α)) := do
  let sizes := g.boxes.map (·.size)
  let arcs ← breakCycles g.count g.properArcs
  let ranks ← ranks g.count arcs
  let layers ← layers (g.boxes.map (·.key)) ranks
  let layers ← untangle α g.count arcs layers
  let centers ← placeLayers s sizes 0 layers (List.replicate g.count Point.origin)
  return Spacing.moveToOrigin sizes centers

/-- Write entries into a table, each at its own position. -/
def write {β : Type} (table : List β) (entries : List (ℕ × β)) : List β :=
  entries.foldl (fun table entry => table.set entry.1 entry.2) table

theorem length_write {β : Type} (table : List β) (entries : List (ℕ × β)) :
    (write table entries).length = table.length := by
  unfold write
  induction entries generalizing table with
  | nil => rfl
  | cons entry rest ih => exact (ih _).trans List.length_set

theorem getElem?_write {β : Type} {entries : List (ℕ × β)}
    (hnodup : (entries.map Prod.fst).Nodup) (table : List β) (v : ℕ) :
    (write table entries)[v]? = table[v]?.map fun old => (entries.lookup v).getD old := by
  unfold write
  induction entries generalizing table with
  | nil => simp
  | cons entry rest ih =>
      rw [List.map_cons, List.nodup_cons] at hnodup
      rw [List.foldl_cons, ih hnodup.2, List.getElem?_set', List.lookup_cons]
      by_cases hv : entry.1 = v
      · have hnone : rest.lookup v = none := by
          rw [List.lookup_eq_none_iff]
          intro other hother
          have hne : v ≠ other.1 := by
            rintro rfl
            exact hnodup.1 (hv ▸ List.mem_map_of_mem hother)
          simpa using hne
        cases table[v]? <;> simp [hv, hnone]
      · have hbeq : (v == entry.1) = false := beq_eq_false_iff_ne.mpr (Ne.symm hv)
        simp [hv, hbeq]

variable {s : Spacing α} {sizes centers : List (Point α)} {size : ℕ → Point α}

theorem placeLayer_eq_some (hsizes : ∀ v < n, sizes[v]? = some (size v))
    (hlength : centers.length = n) (middle start : α) {layer : List ℕ} (hlt : ∀ v ∈ layer, v < n) :
    placeLayer s sizes middle start layer centers =
      some (write centers (s.placeLayer size middle start layer)) := by
  induction layer generalizing start centers with
  | nil => rfl
  | cons v rest ih =>
      rw [List.forall_mem_cons] at hlt
      have hv : v < centers.length := by omega
      have hlength' : (centers.set v (s.direction.point middle
          (start + Scalar.half (s.direction.across (size v))))).length = n := by
        rwa [List.length_set]
      have hrest := ih hlength' (start + (s.direction.across (size v) + s.nodeSeparation)) hlt.2
      simp only [placeLayer, hsizes v hlt.1, update_eq_some_set hv, Option.bind_eq_bind,
        Option.bind_some, hrest]
      rfl

theorem placeLayers_eq_some (hsizes : ∀ v < n, sizes[v]? = some (size v))
    (hlength : centers.length = n) (offset : α) {layers : List (List ℕ)}
    (hlt : ∀ v ∈ layers.flatten, v < n) :
    placeLayers s sizes offset layers centers =
      some (write centers (s.placeLayers size offset layers)) := by
  induction layers generalizing offset centers with
  | nil => rfl
  | cons layer rest ih =>
      have hlayer : ∀ v ∈ layer, v < n := fun v hv => hlt v (List.mem_append_left _ hv)
      have hextents : layer.mapM (fun v => sizes[v]?) = some (layer.map size) :=
        mapM_eq_some_map fun v hv => hsizes v (hlayer v hv)
      have hrest := ih ((length_write centers (s.placeLayer size
          (offset + Scalar.half (s.depth (layer.map size)))
          (Scalar.half (-s.breadth (layer.map size))) layer)).trans hlength)
        (offset + (s.depth (layer.map size) + s.rankSeparation))
        fun v hv => hlt v (List.mem_append_right layer hv)
      simp only [placeLayers, hextents, placeLayer_eq_some hsizes hlength _ _ hlayer,
        Option.bind_eq_bind, Option.bind_some, hrest]
      rw [Spacing.placeLayers, write, write, write, List.foldl_append]

theorem getElem?_sizes {g : FileGraph α} (hv : v < g.count) :
    (g.boxes.map (·.size))[v]? = some (g.sizeOf v) := by
  have hbox : g.boxes[v]? = some (g.boxes.get ⟨v, hv⟩) := List.getElem?_eq_getElem hv
  simp [FileGraph.sizeOf, hbox]

theorem untangle_layers_eq_some (g : FileGraph α) :
    untangle α g.count g.acyclicArcs (Layout.layers (g.boxes.map (·.key)) g.ranks) =
      some g.layers := by
  refine untangle_eq_some g.inRange_acyclicArcs ?_
  intro v hv
  rw [mem_layers_flatten, FileGraph.ranks, length_ranks] at hv
  exact hv

/-- The table of centers holds for each box the center that the layers give it. -/
theorem placeLayers_graph_eq_some (s : Spacing α) (g : FileGraph α) :
    placeLayers s (g.boxes.map (·.size)) 0 g.layers (List.replicate g.count Point.origin) =
      some ((List.range g.count).map fun v =>
        ((s.placeLayers g.sizeOf 0 g.layers).lookup v).getD Point.origin) := by
  have hnodup : ((s.placeLayers g.sizeOf 0 g.layers).map Prod.fst).Nodup := by
    rw [Spacing.placeLayers_keys, g.layers_perm.nodup_iff]
    exact List.nodup_range
  have hlt : ∀ v ∈ g.layers.flatten, v < g.count := by
    intro v hv
    exact List.mem_range.mp (g.layers_perm.mem_iff.mp hv)
  have hsizes : ∀ v < g.count, (g.boxes.map (·.size))[v]? = some (g.sizeOf v) :=
    fun v hv => getElem?_sizes hv
  rw [placeLayers_eq_some hsizes List.length_replicate 0 hlt, Option.some_inj]
  apply List.ext_getElem?
  intro v
  rw [getElem?_write hnodup, List.getElem?_map]
  by_cases hv : v < g.count <;> simp [hv]

/-- The checked placement goes through, and gives the centers of the plain one. -/
theorem place_eq_some (s : Spacing α) (g : FileGraph α) : place s g = some (s.place g) := by
  have harcs : breakCycles g.count g.properArcs = some g.acyclicArcs :=
    breakCycles_eq_some g.inRange_properArcs
  have hranks : ranks g.count g.acyclicArcs = some g.ranks :=
    ranks_eq_some g.inRange_acyclicArcs
  have hlength : (g.boxes.map (·.key)).length = g.ranks.length := by
    rw [FileGraph.ranks, length_ranks, List.length_map]
    rfl
  simp only [place, harcs, hranks, layers_eq_some hlength, untangle_layers_eq_some,
    placeLayers_graph_eq_some, Option.bind_eq_bind, Option.bind_some]
  rfl

end Coordinates

end CodeAtlas.Layout.Checked

namespace CodeAtlas.Layout

/-- Every graph of boxes is placed, whatever its arcs are: no access misses its table, no counter
falls below zero and no loop is cut short. The greedy order holds each box once, and so do the
layers before and after the sweeps, each box in the layer of its rank. There is one center for
each box, in the order of the boxes: the one that its layer gives it, moved by a common corner. -/
theorem place_total {α : Type} [Scalar α] (s : Spacing α) (g : FileGraph α) :
    Checked.place s g = some (s.place g) ∧
      Checked.greedyOrder g.count g.properArcs = some (greedyOrder g.count g.properArcs) ∧
      List.Perm (greedyOrder g.count g.properArcs) (List.range g.count) ∧
      g.ranks.length = g.count ∧
      LayeredBy g.ranks (layers (g.boxes.map (·.key)) g.ranks) ∧
      LayeredBy g.ranks g.layers ∧
      (s.place g).length = g.count ∧
      ∃ corner, ∀ v < g.count, ∃ center,
        (v, center) ∈ s.placeLayers g.sizeOf 0 g.layers ∧
          (s.place g)[v]? = some (center - corner) := by
  have hplace := Checked.place_eq_some s g
  have horder := Checked.greedyOrder_eq_some g.inRange_properArcs
  have hperm := (greedyOrder_spec g.inRange_properArcs).1
  have hranks : g.ranks.length = g.count := length_ranks g.count g.acyclicArcs
  have hlength := s.length_place g
  obtain ⟨corner, hcorner⟩ := s.place_eq_sub_corner g
  refine ⟨hplace, horder, hperm, hranks, layeredBy_layers _ _, g.layeredBy_ranks, hlength,
    corner, ?_⟩
  intro v hv
  rw [← hlength] at hv
  obtain ⟨center, hmem, heq⟩ := hcorner v _ (List.getElem?_eq_getElem hv)
  exact ⟨center, hmem, by rw [List.getElem?_eq_getElem hv, heq]⟩

end CodeAtlas.Layout
