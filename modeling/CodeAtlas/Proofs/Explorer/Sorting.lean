import CodeAtlas.Proofs.Explorer.NameOrder
import Mathlib.Data.List.Forall2

/-! # Sorting a forest of entries

Sorting puts every level of a forest in order, however the entries are named and nested.
What it does is said level by level and without reference to how it is done: each level
holds the entries that it held before, with the levels below them in order. Entries that
the order does not tell apart stay in line. Only one forest fits this description.
-/

namespace CodeAtlas.Explorer.Entry

/-! ## Levels in order -/

/-- The order does not tell the two entries apart. -/
def ties (a b : Entry) : Bool :=
  a.kind == b.kind && a.name == b.name

/-- The same entries in order. Entries that tie stay in line. -/
structure StablySorted (xs ys : List Entry) : Prop where
  perm : ys.Perm xs
  sorted : ys.Pairwise fun a b => ¬ Precedes b a
  stable : ∀ a, ys.filter (ties a) = xs.filter (ties a)

/-- The second entry is the first one with every level below it in order. -/
inductive Arranged : Entry → Entry → Prop where
  | leaf (name path : String) (kind : EntryKind) :
      Arranged (.mk name path kind none) (.mk name path kind none)
  | branch (name path : String) (kind : EntryKind) {children same sorted : List Entry}
      (below : List.Forall₂ Arranged children same) (level : StablySorted same sorted) :
      Arranged (.mk name path kind (some children)) (.mk name path kind (some sorted))

/-- The second forest is the first one with every level in order. -/
def ArrangedAll (forest sorted : List Entry) : Prop :=
  ∃ same, List.Forall₂ Arranged forest same ∧ StablySorted same sorted

theorem ties_iff {a b : Entry} : ties a b = true ↔ a.kind = b.kind ∧ a.name = b.name := by
  simp [ties]

theorem ties_self (a : Entry) : ties a a = true :=
  ties_iff.mpr ⟨rfl, rfl⟩

theorem ties_iff_not_precedes {a b : Entry} :
    ties a b = true ↔ ¬ Precedes a b ∧ ¬ Precedes b a := by
  rw [ties_iff, ← le_iff_not_precedes, ← le_iff_not_precedes]
  constructor
  · rintro ⟨hkind, hname⟩
    exact ⟨le_of_key_eq hkind.symm hname.symm, le_of_key_eq hkind hname⟩
  · rintro ⟨hba, hab⟩
    exact le_antisymm hab hba

/-! ## One level -/

theorem filter_ties_mergeSort (xs : List Entry) (a : Entry) :
    (xs.mergeSort le).filter (ties a) = xs.filter (ties a) := by
  -- Entries that tie with `a` tie with each other, so they are a sorted part of the list.
  have hsorted : (xs.filter (ties a)).Pairwise fun b c => le b c = true := by
    apply List.pairwise_of_forall_mem_list
    intro b hb c hc
    obtain ⟨hkindb, hnameb⟩ := ties_iff.mp (List.mem_filter.mp hb).2
    obtain ⟨hkindc, hnamec⟩ := ties_iff.mp (List.mem_filter.mp hc).2
    exact le_of_key_eq (hkindb.symm.trans hkindc) (hnameb.symm.trans hnamec)
  have hsub : (xs.filter (ties a)).Sublist ((xs.mergeSort le).filter (ties a)) := by
    have hpart := (List.sublist_mergeSort le_trans le_total hsorted List.filter_sublist).filter
      (ties a)
    simpa only [List.filter_filter, Bool.and_self] using hpart
  have hlength := ((List.mergeSort_perm xs le).filter (ties a)).length_eq
  exact (hsub.eq_of_length hlength.symm).symm

theorem stablySorted_mergeSort (xs : List Entry) : StablySorted xs (xs.mergeSort le) where
  perm := List.mergeSort_perm xs le
  sorted := (List.pairwise_mergeSort le_trans le_total xs).imp le_iff_not_precedes.mp
  stable := filter_ties_mergeSort xs

theorem mem_iff_of_filter_ties_eq {xs ys : List Entry}
    (h : ∀ a, xs.filter (ties a) = ys.filter (ties a)) (a : Entry) : a ∈ xs ↔ a ∈ ys := by
  have hfilter : a ∈ xs.filter (ties a) ↔ a ∈ ys.filter (ties a) := by rw [h a]
  simpa [ties_self] using hfilter

theorem not_precedes_head {x y : Entry} {ys : List Entry}
    (hy : (y :: ys).Pairwise fun a b => ¬ Precedes b a) (hx : x ∈ y :: ys) : ¬ Precedes x y := by
  cases hx with
  | head => exact (ties_iff_not_precedes.mp (ties_self x)).1
  | tail _ hx => exact List.rel_of_pairwise_cons hy hx

/-- Two lists in order that agree on entries that tie are equal. -/
theorem eq_of_filter_ties_eq {xs ys : List Entry} (hxs : xs.Pairwise fun a b => ¬ Precedes b a)
    (hys : ys.Pairwise fun a b => ¬ Precedes b a)
    (h : ∀ a, xs.filter (ties a) = ys.filter (ties a)) : xs = ys := by
  induction xs generalizing ys with
  | nil =>
      symm
      apply List.eq_nil_iff_forall_not_mem.mpr
      intro a ha
      cases (mem_iff_of_filter_ties_eq h a).mpr ha
  | cons x xs ih =>
      have hmem := mem_iff_of_filter_ties_eq h
      cases ys with
      | nil => cases (hmem x).mp List.mem_cons_self
      | cons y ys =>
          -- Each head is in the other list, so neither comes before the other one.
          have hties : ties x y = true := by
            rw [ties_iff_not_precedes]
            exact ⟨not_precedes_head hys ((hmem x).mp List.mem_cons_self),
              not_precedes_head hxs ((hmem y).mpr List.mem_cons_self)⟩
          have hheads := h x
          rw [List.filter_cons_of_pos (ties_self x), List.filter_cons_of_pos hties,
            List.cons.injEq] at hheads
          obtain ⟨rfl, -⟩ := hheads
          have htails : ∀ a, xs.filter (ties a) = ys.filter (ties a) := by
            intro a
            have ha := h a
            rw [List.filter_cons, List.filter_cons] at ha
            split at ha
            · exact List.tail_eq_of_cons_eq ha
            · exact ha
          have hrest : xs = ys := ih hxs.tail hys.tail htails
          rw [hrest]

theorem StablySorted.eq_mergeSort {xs ys : List Entry} (h : StablySorted xs ys) :
    ys = xs.mergeSort le := by
  have hsort := stablySorted_mergeSort xs
  apply eq_of_filter_ties_eq h.sorted hsort.sorted
  intro a
  rw [h.stable, hsort.stable]

/-! ## All levels -/

mutual

theorem arranged_sortBelow : ∀ e : Entry, Arranged e e.sortBelow
  | .mk name path kind none => Arranged.leaf name path kind
  | .mk name path kind (some children) =>
    Arranged.branch name path kind (forall₂_arranged_sortBelowAll children)
      (stablySorted_mergeSort _)

theorem forall₂_arranged_sortBelowAll :
    ∀ entries : List Entry, List.Forall₂ Arranged entries (sortBelowAll entries)
  | [] => List.Forall₂.nil
  | e :: es => List.Forall₂.cons (arranged_sortBelow e) (forall₂_arranged_sortBelowAll es)

end

mutual

theorem Arranged.eq_sortBelow : ∀ {e e' : Entry}, Arranged e e' → e' = e.sortBelow
  | .mk _ _ _ none, _, .leaf _ _ _ => rfl
  | .mk _ _ _ (some _), _, .branch _ _ _ below level => by
    rw [sortBelow, level.eq_mergeSort, forall₂_arranged_eq below]

theorem forall₂_arranged_eq :
    ∀ {entries same : List Entry}, List.Forall₂ Arranged entries same → same = sortBelowAll entries
  | [], _, .nil => rfl
  | _ :: _, _, .cons first rest => by
    rw [sortBelowAll, first.eq_sortBelow, forall₂_arranged_eq rest]

end

theorem arrangedAll_iff {forest sorted : List Entry} :
    ArrangedAll forest sorted ↔ sorted = sortAll forest := by
  constructor
  · rintro ⟨same, hbelow, hlevel⟩
    rw [hlevel.eq_mergeSort, forall₂_arranged_eq hbelow, sortAll]
  · rintro rfl
    exact ⟨_, forall₂_arranged_sortBelowAll forest, stablySorted_mergeSort _⟩

/-! ## Sizes -/

theorem sizeAll_perm {xs ys : List Entry} (h : xs.Perm ys) : sizeAll xs = sizeAll ys := by
  induction h with
  | nil => rfl
  | cons e _ ih => rw [sizeAll, sizeAll, ih]
  | swap e e' es =>
      simp only [sizeAll]
      omega
  | trans _ _ ihxy ihyz => exact ihxy.trans ihyz

mutual

theorem size_sortBelow : ∀ e : Entry, e.sortBelow.size = e.size
  | .mk _ _ _ none => rfl
  | .mk _ _ _ (some children) => by
    rw [sortBelow, size, size, sizeAll_perm (List.mergeSort_perm _ le), sizeAll_sortBelowAll]

theorem sizeAll_sortBelowAll :
    ∀ entries : List Entry, sizeAll (sortBelowAll entries) = sizeAll entries
  | [] => rfl
  | e :: es => by rw [sortBelowAll, sizeAll, sizeAll, size_sortBelow, sizeAll_sortBelowAll]

end

/-! ## Sorting twice -/

theorem le_sortBelow (a b : Entry) : le a.sortBelow b.sortBelow = le a b := by
  simp [le]

/-- The levels below may be put in order before or after the level itself. -/
theorem sortAll_eq_map_mergeSort (entries : List Entry) :
    sortAll entries = (entries.mergeSort le).map sortBelow := by
  rw [sortAll, sortBelowAll_eq_map]
  exact (List.map_mergeSort fun a _ b _ => (le_sortBelow a b).symm).symm

theorem sortAll_of_sorted {entries : List Entry}
    (hlevel : entries.Pairwise fun a b => le a b = true)
    (hbelow : entries.map sortBelow = entries) : sortAll entries = entries := by
  rw [sortAll_eq_map_mergeSort, List.mergeSort_of_pairwise hlevel, hbelow]

theorem sortAll_sortAll_of_below {entries : List Entry}
    (h : (sortBelowAll entries).map sortBelow = sortBelowAll entries) :
    sortAll (sortAll entries) = sortAll entries := by
  apply sortAll_of_sorted (List.pairwise_mergeSort le_trans le_total _)
  rw [List.map_mergeSort fun a _ b _ => (le_sortBelow a b).symm, h]

mutual

theorem sortBelow_sortBelow : ∀ e : Entry, e.sortBelow.sortBelow = e.sortBelow
  | .mk _ _ _ none => rfl
  | .mk name path kind (some children) =>
    congrArg (fun level => Entry.mk name path kind (some level))
      (sortAll_sortAll_of_below (map_sortBelow_sortBelowAll children))

theorem map_sortBelow_sortBelowAll :
    ∀ entries : List Entry, (sortBelowAll entries).map sortBelow = sortBelowAll entries
  | [] => rfl
  | e :: es => by
    rw [sortBelowAll, List.map_cons, sortBelow_sortBelow, map_sortBelow_sortBelowAll]

end

/--
Sorting a forest puts every level in order and is the only way to do so: a level keeps its entries
up to the order of the levels below them, and entries that tie stay in line. No root gains or loses
entries below it, and sorting once more changes nothing.
-/
theorem sortAll_arranges_every_level (forest : List Entry) :
    (∀ sorted, ArrangedAll forest sorted ↔ sorted = sortAll forest) ∧
      (sortAll forest).Perm (forest.map sortBelow) ∧
      (∀ e, Arranged e e.sortBelow ∧ e.sortBelow.size = e.size) ∧
      sortAll (sortAll forest) = sortAll forest := by
  refine ⟨fun _ => arrangedAll_iff, ?_, fun e => ⟨arranged_sortBelow e, size_sortBelow e⟩, ?_⟩
  · rw [sortAll, sortBelowAll_eq_map]
    exact List.mergeSort_perm _ le
  · exact sortAll_sortAll_of_below (map_sortBelow_sortBelowAll forest)

end CodeAtlas.Explorer.Entry
