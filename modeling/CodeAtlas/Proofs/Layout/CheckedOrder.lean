import CodeAtlas.Proofs.Layout.CycleBreaking

/-! # Cycle breaking with every access checked

The layout reads and writes tables by position, takes one from counters, and repeats steps
until nothing is left to do. The functions here do the same, but they stop where a position
is not in its table, where a counter already stands at zero, and where the turns are over
before the work is. Each of them is shown to return what the unchecked function returns, so
none of this ever happens.
-/

namespace CodeAtlas.Layout.Checked

/-! ## Tables and counters -/

section Tables

variable {β γ : Type}

/-- Change the entry at a position, which has to be in the table. -/
def update (table : List β) (i : ℕ) (change : β → Option β) : Option (List β) := do
  let entry ← table[i]?
  let changed ← change entry
  return table.set i changed

/-- One less than a counter, which has to be above zero. -/
def oneLess : ℕ → Option ℕ
  | 0 => none
  | count + 1 => some count

/-- Go through a list and add each item to the entry at the position that it names. -/
def collect (key : γ → ℕ) (add : β → γ → β) (table : List β) (items : List γ) :
    Option (List β) :=
  items.foldlM (fun table item => update table (key item) fun entry => some (add entry item)) table

/-- Note for every listed position at which place of the list it stands. -/
def stamp (mark : ℕ → β) (table : List β) (positions : List ℕ) : Option (List β) :=
  collect Prod.fst (fun _ entry => mark entry.2) table positions.zipIdx

theorem update_eq_some_modify {table : List β} {i : ℕ} {change : β → Option β} {f : β → β}
    {entry : β} (hentry : table[i]? = some entry) (hchange : change entry = some (f entry)) :
    update table i change = some (table.modify i f) := by
  rw [List.modify_eq_set_getElem?]
  simp [update, hentry, hchange]

theorem update_eq_some_set {table : List β} {i : ℕ} (hi : i < table.length) (value : β) :
    update table i (fun _ => some value) = some (table.set i value) := by
  simp [update, hi]

/-- A fold of checked steps is the fold of plain ones if an invariant lets each step pass. -/
theorem foldlM_eq_some_foldl {checked : β → γ → Option β} {plain : β → γ → β}
    (inv : List γ → β → Prop)
    (hstep : ∀ x rest b, inv (x :: rest) b →
      checked b x = some (plain b x) ∧ inv rest (plain b x))
    {xs : List γ} {b : β} (h : inv xs b) : xs.foldlM checked b = some (xs.foldl plain b) := by
  induction xs generalizing b with
  | nil => rfl
  | cons x rest ih =>
      obtain ⟨hx, hrest⟩ := hstep x rest b h
      rw [List.foldlM_cons, hx, List.foldl_cons]
      exact ih hrest

theorem mapM_eq_some_map {checked : β → Option γ} {plain : β → γ} {xs : List β}
    (h : ∀ x ∈ xs, checked x = some (plain x)) : xs.mapM checked = some (xs.map plain) := by
  induction xs with
  | nil => rfl
  | cons x rest ih =>
      rw [List.mapM_cons, h x List.mem_cons_self, ih fun y hy => h y (List.mem_cons_of_mem x hy)]
      rfl

theorem filterM_eq_some_filter {checked : β → Option Bool} {plain : β → Bool} {xs : List β}
    (h : ∀ x ∈ xs, checked x = some (plain x)) : xs.filterM checked = some (xs.filter plain) := by
  have haux : ∀ kept,
      List.filterAuxM checked xs kept = some ((xs.filter plain).reverse ++ kept) := by
    induction xs with
    | nil => exact fun kept => rfl
    | cons x rest ih =>
        intro kept
        rw [List.filterAuxM, h x List.mem_cons_self]
        have hrest := ih fun y hy => h y (List.mem_cons_of_mem x hy)
        cases hx : plain x <;> simp [hx, hrest]
  simp [List.filterM, haux]

theorem collect_eq_some {key : γ → ℕ} {add : β → γ → β} {table : List β} {items : List γ}
    (h : ∀ item ∈ items, key item < table.length) :
    collect key add table items =
      some (items.foldl (fun table item => table.modify (key item) (add · item)) table) := by
  refine foldlM_eq_some_foldl
    (fun rest (table : List β) => ∀ item ∈ rest, key item < table.length) ?_ h
  intro item rest table hinv
  have hlt := hinv item List.mem_cons_self
  refine ⟨update_eq_some_modify (List.getElem?_eq_getElem hlt) rfl, ?_⟩
  intro other hother
  rw [List.length_modify]
  exact hinv other (List.mem_cons_of_mem item hother)

theorem stamp_eq_some {mark : ℕ → β} {table : List β} {positions : List ℕ}
    (h : ∀ i ∈ positions, i < table.length) :
    stamp mark table positions = some (positions.zipIdx.foldl
      (fun table entry => table.set entry.1 (mark entry.2)) table) := by
  unfold stamp
  rw [collect_eq_some fun entry hentry => h entry.1 (List.fst_mem_of_mem_zipIdx hentry)]
  simp only [← List.set_eq_modify]

end Tables

/-! ## Neighbours -/

/-- Where the arcs out of each of `n` nodes lead, filled in arc by arc. -/
def rows (n : ℕ) (arcs : List Arc) : Option (List (List ℕ)) :=
  collect Prod.fst (fun row arc => row ++ [arc.2]) (List.replicate n []) arcs

/-- The neighbours of every node, at both ends of the arcs. -/
structure Neighbours where
  out : List (List ℕ)
  into : List (List ℕ)

def neighbours (n : ℕ) (arcs : List Arc) : Option Neighbours := do
  return ⟨← rows n arcs, ← rows n (arcs.map Prod.swap)⟩

/-- The tables of neighbours that are filled in if every arc is in range. -/
def Neighbours.ofArcs (n : ℕ) (arcs : List Arc) : Neighbours where
  out := (List.range n).map (successors arcs)
  into := (List.range n).map (predecessors arcs)

variable {n v : ℕ} {arcs : List Arc}

theorem getElem?_foldl_push (arcs : List Arc) (table : List (List ℕ)) (v : ℕ) :
    (arcs.foldl (fun table arc => table.modify arc.1 (· ++ [arc.2])) table)[v]? =
      table[v]?.map (· ++ successors arcs v) := by
  induction arcs generalizing table with
  | nil => simp [successors]
  | cons arc rest ih =>
      rw [List.foldl_cons, ih, List.getElem?_modify]
      by_cases hv : arc.1 = v
      · cases table[v]? <;> simp [successors, hv]
      · simp [successors, hv]

theorem rows_eq_some (h : ∀ arc ∈ arcs, arc.1 < n) :
    rows n arcs = some ((List.range n).map (successors arcs)) := by
  unfold rows
  rw [collect_eq_some (by simpa using h)]
  congr 1
  apply List.ext_getElem?
  intro v
  rw [getElem?_foldl_push, List.getElem?_map]
  by_cases hv : v < n <;> simp [hv]

theorem successors_map_swap (arcs : List Arc) (v : ℕ) :
    successors (arcs.map Prod.swap) v = predecessors arcs v := by
  unfold successors predecessors
  rw [List.filterMap_map]
  rfl

theorem neighbours_eq_some (hrange : InRange n arcs) :
    neighbours n arcs = some (Neighbours.ofArcs n arcs) := by
  have hout := rows_eq_some fun arc harc => (hrange arc harc).1
  have hinto : rows n (arcs.map Prod.swap) = some ((List.range n).map (predecessors arcs)) := by
    rw [rows_eq_some, funext (successors_map_swap arcs)]
    intro arc harc
    obtain ⟨turned, hturned, rfl⟩ := List.mem_map.mp harc
    exact (hrange turned hturned).2
  simp [neighbours, hout, hinto, Neighbours.ofArcs]

/-! ## Taking nodes away -/

/-- Count one arc less at each of the listed nodes that is still there. -/
def discount (active : List Bool) (degrees : List Int) (nodes : List ℕ) : Option (List Int) :=
  nodes.foldlM (fun degrees v => do
    if ← active[v]? then update degrees v fun degree => some (degree - 1) else return degrees)
    degrees

def detach (around : Neighbours) (p : Peeling) (v : ℕ) : Option Peeling := do
  let active ← update p.active v fun _ => some false
  let remaining ← oneLess p.remaining
  let inDegree ← discount active p.inDegree (← around.out[v]?)
  let outDegree ← discount active p.outDegree (← around.into[v]?)
  return { p with
    active := active
    inDegree := inDegree
    outDegree := outDegree
    remaining := remaining }

/-- The nodes that are still there and whose degree is zero. -/
def activeWhere (p : Peeling) (degrees : List Int) : Option (List ℕ) :=
  (List.range p.active.length).filterM fun v => do
    if ← p.active[v]? then return (← degrees[v]?) == 0 else return false

def surplus (p : Peeling) (v : ℕ) : Option Int := do
  return (← p.outDegree[v]?) - (← p.inDegree[v]?)

def busiest (p : Peeling) : Option (Option ℕ) := do
  let nodes ← (List.range p.active.length).filterM fun v => p.active[v]?
  nodes.foldlM (fun best v => do
    let gain ← surplus p v
    match best with
    | none => return some v
    | some b => if (← surplus p b) < gain then return some v else return some b) none

section Peeling

variable {p : Peeling}

theorem discount_eq_some {active : List Bool} {degrees : List Int} {nodes : List ℕ}
    (hlength : degrees.length = active.length) (hnodes : ∀ v ∈ nodes, v < active.length) :
    discount active degrees nodes = some (Peeling.discount active degrees nodes) := by
  refine foldlM_eq_some_foldl
    (fun rest (ds : List Int) => ds.length = active.length ∧ ∀ v ∈ rest, v < active.length) ?_
    ⟨hlength, hnodes⟩
  intro v rest ds hinv
  have hv := hinv.2 v List.mem_cons_self
  have hvds : v < ds.length := by rwa [hinv.1]
  have hrest : ∀ u ∈ rest, u < active.length := fun u hu => hinv.2 u (List.mem_cons_of_mem v hu)
  rw [List.getElem?_eq_getElem hv, List.getD_eq_getElem?_getD, List.getElem?_eq_getElem hv]
  cases hactive : active[v] with
  | false => exact ⟨by simp, by simpa using hinv.1, hrest⟩
  | true =>
      have hless : update ds v (fun degree => some (degree - 1)) = some (ds.modify v (· - 1)) :=
        update_eq_some_modify (List.getElem?_eq_getElem hvds) rfl
      exact ⟨by simpa using hless, by simpa using hinv.1, hrest⟩

theorem detach_eq_some (hrange : InRange n arcs) (h : p.Counts n arcs)
    (hv : p.isActive v = true) :
    detach (Neighbours.ofArcs n arcs) p v = some (p.detach v) := by
  have hlt : v < n := by
    rw [← h.length_active]
    exact Peeling.lt_of_isActive hv
  have hleft : oneLess p.remaining = some (p.remaining - 1) := by
    have hpos : 0 < p.remaining := by
      rw [h.remaining_eq]
      exact List.length_pos_of_mem (Peeling.mem_activeNodes.mpr hv)
    obtain ⟨count, hcount⟩ := Nat.exists_eq_add_of_lt hpos
    rw [hcount]
    simp [oneLess]
  have hactive : update p.active v (fun _ => some false) = some (p.active.set v false) :=
    update_eq_some_set (by rwa [h.length_active]) false
  have hlength : (p.active.set v false).length = n := by rw [List.length_set, h.length_active]
  have hin : discount (p.active.set v false) p.inDegree (successors arcs v) =
      some (Peeling.discount (p.active.set v false) p.inDegree (successors arcs v)) := by
    apply discount_eq_some
    · rw [hlength, h.length_inDegree]
    · intro u hu
      rw [hlength]
      exact (hrange (v, u) (mem_successors.mp hu)).2
  have hout : discount (p.active.set v false) p.outDegree (predecessors arcs v) =
      some (Peeling.discount (p.active.set v false) p.outDegree (predecessors arcs v)) := by
    apply discount_eq_some
    · rw [hlength, h.length_outDegree]
    · intro u hu
      rw [hlength]
      exact (hrange (u, v) (mem_predecessors.mp hu)).1
  simp [detach, hactive, hleft, Neighbours.ofArcs, hlt, hin, hout, Peeling.detach, h.arcs_eq]

theorem detachAll_eq_some (hrange : InRange n arcs) (h : p.Counts n arcs) {nodes : List ℕ}
    (hnodup : nodes.Nodup) (hactive : ∀ v ∈ nodes, p.isActive v = true) :
    nodes.foldlM (detach (Neighbours.ofArcs n arcs)) p = some (p.detachAll nodes) := by
  refine foldlM_eq_some_foldl (fun rest (q : Peeling) =>
    q.Counts n arcs ∧ rest.Nodup ∧ ∀ v ∈ rest, q.isActive v = true) ?_ ⟨h, hnodup, hactive⟩
  intro v rest q hinv
  obtain ⟨hcounts, hdistinct, hthere⟩ := hinv
  have hv := hthere v List.mem_cons_self
  rw [List.nodup_cons] at hdistinct
  refine ⟨detach_eq_some hrange hcounts hv, hcounts.detach hv, hdistinct.2, ?_⟩
  intro u hu
  have hne : u ≠ v := fun heq => hdistinct.1 (heq ▸ hu)
  rw [Peeling.isActive_detach, hthere u (List.mem_cons_of_mem v hu)]
  simp [hne]

theorem activeWhere_eq_some {degrees : List Int} (hlength : degrees.length = p.active.length) :
    activeWhere p degrees = some (p.activeNodes.filter fun v => degrees.getD v 0 == 0) := by
  unfold activeWhere Peeling.activeNodes
  rw [List.filter_filter]
  apply filterM_eq_some_filter
  intro v hv
  have hlt := List.mem_range.mp hv
  have hlt' : v < degrees.length := by rwa [hlength]
  cases hactive : p.active[v] <;>
    simp [Peeling.isActive, List.getD_eq_getElem?_getD, hlt, hlt', hactive]

theorem surplus_eq_some (h : p.Counts n arcs) (hv : v < n) :
    surplus p v = some (p.surplus v) := by
  have hout : v < p.outDegree.length := by rwa [h.length_outDegree]
  have hin : v < p.inDegree.length := by rwa [h.length_inDegree]
  simp [surplus, Peeling.surplus, Peeling.outDegreeOf, Peeling.inDegreeOf,
    List.getD_eq_getElem?_getD, hout, hin]

theorem busiest_eq_some (h : p.Counts n arcs) : busiest p = some p.busiest? := by
  have hactive : (List.range p.active.length).filterM (fun v => p.active[v]?) =
      some p.activeNodes := by
    apply filterM_eq_some_filter
    intro v hv
    simp [Peeling.isActive, List.getD_eq_getElem?_getD, List.mem_range.mp hv]
  have hlt : ∀ v ∈ p.activeNodes, v < n := by
    intro v hv
    rw [← h.length_active]
    exact Peeling.lt_of_isActive (Peeling.mem_activeNodes.mp hv)
  unfold busiest
  rw [hactive]
  refine foldlM_eq_some_foldl (fun rest (best : Option ℕ) =>
    (∀ v ∈ rest, v < n) ∧ ∀ b, best = some b → b < n) ?_ ⟨hlt, by simp⟩
  intro v rest best hinv
  have hv := hinv.1 v List.mem_cons_self
  have hrest : ∀ u ∈ rest, u < n := fun u hu => hinv.1 u (List.mem_cons_of_mem v hu)
  rw [surplus_eq_some h hv]
  cases best with
  | none => exact ⟨rfl, hrest, by simpa using hv⟩
  | some b =>
      have hb := hinv.2 b rfl
      simp only [surplus_eq_some h hb, Option.pure_def, Option.bind_eq_bind, Option.bind_some]
      by_cases hless : p.surplus b < p.surplus v
      · rw [if_pos hless, if_pos hless]
        exact ⟨rfl, hrest, by simpa using hv⟩
      · rw [if_neg hless, if_neg hless]
        exact ⟨rfl, hrest, by simpa using hb⟩

end Peeling

/-! ## The greedy order -/

/-- Take the nodes of degree zero away, batch by batch, until there are none. -/
def drain (around : Neighbours) (degrees : Peeling → List Int)
    (place : PartialOrdering → List ℕ → Peeling → PartialOrdering) :
    ℕ → PartialOrdering → Option PartialOrdering
  | 0, o => do
    let nodes ← activeWhere o.peeling (degrees o.peeling)
    if nodes.isEmpty then return o else none
  | turns + 1, o => do
    let nodes ← activeWhere o.peeling (degrees o.peeling)
    if nodes.isEmpty then return o
    else
      let peeling ← nodes.foldlM (detach around) o.peeling
      drain around degrees place turns (place o nodes peeling)

def takeSinks (around : Neighbours) : ℕ → PartialOrdering → Option PartialOrdering :=
  drain around (·.outDegree) fun o sinks peeling => ⟨peeling, o.front, sinks.reverse ++ o.back⟩

def takeSources (around : Neighbours) : ℕ → PartialOrdering → Option PartialOrdering :=
  drain around (·.inDegree) fun o sources peeling => ⟨peeling, o.front ++ sources, o.back⟩

def takeBusiest (around : Neighbours) (o : PartialOrdering) : Option PartialOrdering := do
  match ← busiest o.peeling with
  | none => return o
  | some v => return ⟨← detach around o.peeling v, o.front ++ [v], o.back⟩

def round (around : Neighbours) (o : PartialOrdering) : Option PartialOrdering := do
  let o ← takeSinks around o.peeling.remaining o
  let o ← takeSources around o.peeling.remaining o
  if o.peeling.remaining = 0 then return o else takeBusiest around o

def rounds (around : Neighbours) : ℕ → PartialOrdering → Option PartialOrdering
  | 0, o => if o.peeling.remaining = 0 then some o else none
  | turns + 1, o => do
    if o.peeling.remaining = 0 then return o else rounds around turns (← round around o)

def greedyOrder (n : ℕ) (arcs : List Arc) : Option (List ℕ) := do
  let around ← neighbours n arcs
  let o ← rounds around n (PartialOrdering.start n arcs)
  return o.front ++ o.back

section Order

variable {o : PartialOrdering} {turns : ℕ}

/--
Batches end before the turns do, since each takes a node away. The plain loop is given by
the nodes that it takes and by what it does with and without any.
-/
theorem drain_eq_some {degrees : Peeling → List Int}
    {place : PartialOrdering → List ℕ → Peeling → PartialOrdering} (nodes : Peeling → List ℕ)
    {plain : ℕ → PartialOrdering → PartialOrdering} (hrange : InRange n arcs)
    (hnodes : ∀ p, p.Counts n arcs → activeWhere p (degrees p) = some (nodes p))
    (hnodup : ∀ p, (nodes p).Nodup) (hactive : ∀ p, ∀ v ∈ nodes p, p.isActive v = true)
    (hplace : ∀ o batch p, (place o batch p).peeling = p)
    (hstop : ∀ turns o, nodes o.peeling = [] → plain turns o = o)
    (hnext : ∀ turns o, nodes o.peeling ≠ [] → plain (turns + 1) o =
      plain turns (place o (nodes o.peeling) (o.peeling.detachAll (nodes o.peeling))))
    (h : o.peeling.Counts n arcs) (hturns : o.peeling.remaining ≤ turns) :
    drain (Neighbours.ofArcs n arcs) degrees place turns o = some (plain turns o) := by
  induction turns generalizing o with
  | zero =>
      have hnone : o.peeling.activeNodes = [] := by
        rw [← List.length_eq_zero_iff, ← h.remaining_eq]
        omega
      have hnil : nodes o.peeling = [] := by
        rw [List.eq_nil_iff_forall_not_mem]
        intro v hv
        have hmem := Peeling.mem_activeNodes.mpr (hactive _ v hv)
        rw [hnone] at hmem
        cases hmem
      simp [drain, hnodes _ h, hnil, hstop]
  | succ turns ih =>
      by_cases hnil : nodes o.peeling = []
      · simp [drain, hnodes _ h, hnil, hstop]
      · have htake := detachAll_eq_some hrange h (hnodup o.peeling) (hactive o.peeling)
        have hless := o.peeling.remaining_detachAll (nodes o.peeling)
        have hpos := List.length_pos_iff.mpr hnil
        have hcounts := h.detachAll (hnodup o.peeling) (hactive o.peeling)
        have hrest := ih (o := place o (nodes o.peeling) (o.peeling.detachAll (nodes o.peeling)))
          (by rwa [hplace]) (by rw [hplace]; omega)
        simp [drain, hnodes _ h, hnil, htake, hrest, hnext]

theorem takeSinks_eq_some (hrange : InRange n arcs) (h : o.peeling.Counts n arcs)
    (hturns : o.peeling.remaining ≤ turns) :
    takeSinks (Neighbours.ofArcs n arcs) turns o = some (o.takeSinks turns) := by
  refine drain_eq_some Peeling.sinks hrange ?_ Peeling.nodup_sinks
    (fun _ _ => Peeling.isActive_of_mem_sinks) (fun _ _ _ => rfl) ?_
    PartialOrdering.takeSinks_succ h hturns
  · intro p hp
    exact activeWhere_eq_some (by rw [hp.length_outDegree, hp.length_active])
  · intro turns o hnil
    cases turns <;> simp [PartialOrdering.takeSinks, hnil]

theorem takeSources_eq_some (hrange : InRange n arcs) (h : o.peeling.Counts n arcs)
    (hturns : o.peeling.remaining ≤ turns) :
    takeSources (Neighbours.ofArcs n arcs) turns o = some (o.takeSources turns) := by
  refine drain_eq_some Peeling.sources hrange ?_ Peeling.nodup_sources
    (fun _ _ hv => Peeling.mem_activeNodes.mp (List.mem_filter.mp hv).1) (fun _ _ _ => rfl) ?_
    PartialOrdering.takeSources_succ h hturns
  · intro p hp
    exact activeWhere_eq_some (by rw [hp.length_inDegree, hp.length_active])
  · intro turns o hnil
    cases turns <;> simp [PartialOrdering.takeSources, hnil]

theorem round_eq_some (hrange : InRange n arcs) (h : o.peeling.Counts n arcs) :
    round (Neighbours.ofArcs n arcs) o = some o.round := by
  have hsinks := PartialOrdering.run_takeSinks h o.peeling.remaining
  have hcounts := hsinks.counts h
  have hsources := PartialOrdering.run_takeSources hcounts
    (o.takeSinks o.peeling.remaining).peeling.remaining
  have hlate := hsources.counts hcounts
  rw [round, takeSinks_eq_some hrange h (Nat.le_refl _)]
  simp only [Option.bind_eq_bind, Option.bind_some]
  rw [takeSources_eq_some hrange hcounts (Nat.le_refl _), Option.bind_some, PartialOrdering.round]
  by_cases hzero : ((o.takeSinks o.peeling.remaining).takeSources
      (o.takeSinks o.peeling.remaining).peeling.remaining).peeling.remaining = 0
  · rw [if_pos hzero, if_pos hzero]
    rfl
  · rw [if_neg hzero, if_neg hzero]
    obtain ⟨v, hv, hactive, -⟩ := hlate.exists_links_busiest (Nat.pos_of_ne_zero hzero)
    simp [takeBusiest, PartialOrdering.takeBusiest, busiest_eq_some hlate, hv,
      detach_eq_some hrange hlate hactive]

theorem rounds_eq_some (hrange : InRange n arcs) (h : o.peeling.Counts n arcs)
    (hturns : o.peeling.remaining ≤ turns) :
    rounds (Neighbours.ofArcs n arcs) turns o = some (o.rounds turns) := by
  induction turns generalizing o with
  | zero => simp [rounds, PartialOrdering.rounds, Nat.le_zero.mp hturns]
  | succ turns ih =>
      rw [rounds, PartialOrdering.rounds]
      by_cases hzero : o.peeling.remaining = 0
      · rw [if_pos hzero, if_pos hzero]
        rfl
      · obtain ⟨hrun, hless⟩ := PartialOrdering.run_round h (Nat.pos_of_ne_zero hzero)
        rw [if_neg hzero, if_neg hzero, round_eq_some hrange h]
        exact ih (hrun.counts h) (by omega)

theorem greedyOrder_eq_some (hrange : InRange n arcs) :
    greedyOrder n arcs = some (Layout.greedyOrder n arcs) := by
  have hrounds : rounds (Neighbours.ofArcs n arcs) n (PartialOrdering.start n arcs) =
      some ((PartialOrdering.start n arcs).rounds n) :=
    rounds_eq_some hrange (Peeling.Counts.start hrange) (Nat.le_refl n)
  simp [greedyOrder, neighbours_eq_some hrange, hrounds, Layout.greedyOrder]

end Order

/-! ## Turning arcs around -/

def forward (places : List ℕ) (arc : Arc) : Option Arc := do
  if (← places[arc.2]?) < (← places[arc.1]?) then return arc.swap else return arc

def breakCycles (n : ℕ) (arcs : List Arc) : Option (List Arc) := do
  let order ← greedyOrder n arcs
  let places ← stamp id (List.replicate n 0) order
  arcs.mapM (forward places)

theorem getElem?_foldl_set_zipIdx {order : List ℕ} (hnodup : order.Nodup) (table : List ℕ)
    (first v : ℕ) :
    ((order.zipIdx first).foldl (fun table entry => table.set entry.1 entry.2) table)[v]? =
      table[v]?.map fun old => if v ∈ order then first + order.idxOf v else old := by
  induction order generalizing table first with
  | nil => simp
  | cons u order ih =>
      rw [List.nodup_cons] at hnodup
      rw [List.zipIdx_cons, List.foldl_cons, ih hnodup.2, List.getElem?_set']
      by_cases huv : u = v
      · subst huv
        cases table[u]? <;> simp [hnodup.1]
      · have hidx : (u :: order).idxOf v = order.idxOf v + 1 := List.idxOf_cons_ne order huv
        simp [huv, Ne.symm huv, hidx, Nat.add_comm, Nat.add_left_comm]

/-- In an order of all nodes every node has its own place. -/
theorem stamp_order {order : List ℕ} (hperm : order.Perm (List.range n)) :
    stamp id (List.replicate n 0) order = some ((List.range n).map order.idxOf) := by
  have hmem : ∀ v, v ∈ order ↔ v < n := fun v => by rw [hperm.mem_iff, List.mem_range]
  have hnodup := hperm.nodup_iff.mpr List.nodup_range
  rw [stamp_eq_some fun v hv => by simpa using (hmem v).mp hv]
  congr 1
  apply List.ext_getElem?
  intro v
  have hplace := getElem?_foldl_set_zipIdx hnodup (List.replicate n 0) 0 v
  by_cases hv : v < n <;> simpa [hmem, hv] using hplace

theorem breakCycles_eq_some (hrange : InRange n arcs) :
    breakCycles n arcs = some (Layout.breakCycles n arcs) := by
  obtain ⟨hperm, -⟩ := greedyOrder_spec hrange
  have hforward : ∀ arc ∈ arcs,
      forward ((List.range n).map (Layout.greedyOrder n arcs).idxOf) arc =
        some (Layout.forward (Layout.greedyOrder n arcs) arc) := by
    intro arc harc
    have hends := hrange arc harc
    unfold Layout.forward
    split <;> simp_all [forward]
  simp [breakCycles, greedyOrder_eq_some hrange, stamp_order hperm, mapM_eq_some_map hforward,
    Layout.breakCycles]

end CodeAtlas.Layout.Checked
