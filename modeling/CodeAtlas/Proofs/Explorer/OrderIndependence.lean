import CodeAtlas.Proofs.Explorer.Levels

/-! # The folder tree forgets the order of its identifiers

Entries of one level differ in kind or name, so sorting a level leaves nothing to
chance. The sorted tree is therefore the same for all lists that hold the same
identifiers, however often and in whatever order.
-/

namespace CodeAtlas.Explorer.Entry

/-! ## The order of entries -/

theorem le_iff (a b : Entry) :
    le a b = true ↔ a.kind.rank < b.kind.rank ∨ (a.kind = b.kind ∧ a.name ≤ b.name) := by
  simp [le]

theorem rank_injective {j k : EntryKind} (h : j.rank = k.rank) : j = k := by
  cases j <;> cases k <;> first | rfl | cases h

theorem le_trans (a b c : Entry) (hab : le a b = true) (hbc : le b c = true) :
    le a c = true := by
  rw [le_iff] at hab hbc ⊢
  rcases hab with hab | ⟨hab, hname⟩
  · rcases hbc with hbc | ⟨hbc, -⟩
    · exact Or.inl (Nat.lt_trans hab hbc)
    · exact Or.inl (hbc ▸ hab)
  · rcases hbc with hbc | ⟨hbc, hname'⟩
    · exact Or.inl (hab ▸ hbc)
    · exact Or.inr ⟨hab.trans hbc, String.le_trans hname hname'⟩

theorem le_total (a b : Entry) : (le a b || le b a) = true := by
  rw [Bool.or_eq_true, le_iff, le_iff]
  rcases Nat.lt_trichotomy a.kind.rank b.kind.rank with hlt | heq | hgt
  · exact Or.inl (Or.inl hlt)
  · have hkind := rank_injective heq
    rcases String.le_total a.name b.name with hname | hname
    · exact Or.inl (Or.inr ⟨hkind, hname⟩)
    · exact Or.inr (Or.inr ⟨hkind.symm, hname⟩)
  · exact Or.inr (Or.inl hgt)

/-- Entries that the order does not tell apart have one kind and one name. -/
theorem le_antisymm {a b : Entry} (hab : le a b = true) (hba : le b a = true) :
    a.kind = b.kind ∧ a.name = b.name := by
  rw [le_iff] at hab hba
  rcases hab with hab | ⟨hkind, hname⟩
  · rcases hba with hba | ⟨hkind, -⟩
    · omega
    · rw [hkind] at hab
      exact absurd hab (Nat.lt_irrefl _)
  · rcases hba with hba | ⟨-, hname'⟩
    · rw [hkind] at hba
      exact absurd hba (Nat.lt_irrefl _)
    · exact ⟨hkind, String.le_antisymm hname hname'⟩

/-! ## Sorting -/

theorem sortBelowAll_eq_map (entries : List Entry) :
    sortBelowAll entries = entries.map sortBelow := by
  induction entries with
  | nil => rfl
  | cons e es ih => rw [sortBelowAll, ih, List.map_cons]

@[simp] theorem kind_sortBelow (e : Entry) : e.sortBelow.kind = e.kind := by
  rcases e with ⟨name, path, kind, _ | children⟩ <;> rfl

@[simp] theorem name_sortBelow (e : Entry) : e.sortBelow.name = e.name := by
  rcases e with ⟨name, path, kind, _ | children⟩ <;> rfl

theorem sortBelow_withChildren (e : Entry) (children : List Entry) :
    (e.withChildren children).sortBelow = e.withChildren (sortAll children) := by
  rcases e with ⟨name, path, kind, c⟩
  rfl

/-- If kind and name tell the entries of a list apart, its order before sorting does not matter. -/
theorem mergeSort_congr {xs ys : List Entry} (hperm : xs.Perm ys)
    (hkeys : ∀ a ∈ xs, ∀ b ∈ xs, a.kind = b.kind → a.name = b.name → a = b) :
    xs.mergeSort le = ys.mergeSort le := by
  have hsorted : (xs.mergeSort le).Perm (ys.mergeSort le) :=
    ((List.mergeSort_perm xs le).trans hperm).trans (List.mergeSort_perm ys le).symm
  refine hsorted.eq_of_pairwise ?_ (List.pairwise_mergeSort le_trans le_total xs)
    (List.pairwise_mergeSort le_trans le_total ys)
  intro a b ha hb hab hba
  obtain ⟨hkind, hname⟩ := le_antisymm hab hba
  have hb' : b ∈ xs := hperm.mem_iff.mpr (List.mem_mergeSort.mp hb)
  exact hkeys a (List.mem_mergeSort.mp ha) b hb' hkind hname

/-! ## Trees of the same paths -/

theorem keysOf_perm {xs ys : List (List String)} (h : ∀ path, path ∈ xs ↔ path ∈ ys) :
    (keysOf xs).Perm (keysOf ys) := by
  rw [List.perm_ext_iff_of_nodup (keysOf_nodup xs) (keysOf_nodup ys)]
  intro k
  simp only [mem_keysOf, h]

theorem pathsThrough_congr {xs ys : List (List String)} (h : ∀ path, path ∈ xs ↔ path ∈ ys)
    (name : String) (rest : List String) :
    rest ∈ pathsThrough name xs ↔ rest ∈ pathsThrough name ys := by
  simp only [mem_pathsThrough, h]

/-- Levels of the same paths are sorted alike, if those below every folder are. -/
theorem sortAll_grow_of_below (above : List String) {xs ys : List (List String)}
    (hsame : ∀ path, path ∈ xs ↔ path ∈ ys)
    (hbelow : ∀ name, sortAll (grow (above ++ [name]) (pathsThrough name xs)) =
      sortAll (grow (above ++ [name]) (pathsThrough name ys))) :
    sortAll (grow above xs) = sortAll (grow above ys) := by
  have hentry : ∀ k, (entryAt above xs k).sortBelow = (entryAt above ys k).sortBelow := by
    rintro ⟨kind, name⟩
    cases kind with
    | file => rfl
    | folder => simp only [entryAt, sortBelow_withChildren, hbelow name]
  have hlevel : ∀ paths, sortBelowAll (grow above paths) =
      (keysOf paths).map fun k => (entryAt above paths k).sortBelow := by
    intro paths
    rw [sortBelowAll_eq_map, grow_eq_map_keysOf, List.map_map]
    rfl
  have hys : sortBelowAll (grow above ys) =
      (keysOf ys).map fun k => (entryAt above xs k).sortBelow := by
    rw [hlevel]
    simp only [hentry]
  rw [sortAll, sortAll, hlevel xs, hys]
  apply mergeSort_congr ((keysOf_perm hsame).map _)
  intro a ha b hb hkind hname
  obtain ⟨j, -, rfl⟩ := List.mem_map.mp ha
  obtain ⟨k, -, rfl⟩ := List.mem_map.mp hb
  have hjk : j = k := Prod.ext (by simpa using hkind) (by simpa using hname)
  rw [hjk]

/-- The induction is on the length of the longest path, which shrinks below every folder. -/
theorem sortAll_grow_congr_of_length_le (n : Nat) :
    ∀ (above : List String) {xs ys : List (List String)},
      (∀ path ∈ xs, path.length ≤ n) → (∀ path, path ∈ xs ↔ path ∈ ys) →
        sortAll (grow above xs) = sortAll (grow above ys) := by
  induction n with
  | zero =>
      intro above xs ys hlength hsame
      apply sortAll_grow_of_below above hsame
      intro name
      have hnil : ∀ paths, (∀ path, path ∈ xs ↔ path ∈ paths) → pathsThrough name paths = [] := by
        intro paths hpaths
        apply List.eq_nil_iff_forall_not_mem.mpr
        intro rest hrest
        have hlong := hlength _ ((hpaths _).mpr (mem_pathsThrough.mp hrest).2)
        simp at hlong
      rw [hnil xs fun _ => Iff.rfl, hnil ys hsame]
  | succ n ih =>
      intro above xs ys hlength hsame
      apply sortAll_grow_of_below above hsame
      intro name
      apply ih
      · intro rest hrest
        have hlong := hlength _ (mem_pathsThrough.mp hrest).2
        simpa using hlong
      · exact pathsThrough_congr hsame name

theorem sortAll_grow_congr (above : List String) {xs ys : List (List String)}
    (h : ∀ path, path ∈ xs ↔ path ∈ ys) :
    sortAll (grow above xs) = sortAll (grow above ys) := by
  apply sortAll_grow_congr_of_length_le xs.flatten.length above _ h
  intro path hpath
  exact (List.sublist_flatten_of_mem hpath).length_le

/-! ## Trees of identifiers -/

/-- The paths of the identifiers that name no dependency. -/
def pathsOf (identifiers : List NodeId) : List (List String) :=
  (identifiers.filter fun id => !NodeId.isDependency id).map NodeId.segments

theorem mem_pathsOf {identifiers : List NodeId} {path : List String} :
    path ∈ pathsOf identifiers ↔
      ∃ id ∈ identifiers, NodeId.isDependency id = false ∧ NodeId.segments id = path := by
  simp [pathsOf, and_assoc]

theorem ofIdentifiers_eq_grow (identifiers : List NodeId) :
    ofIdentifiers identifiers = sortAll (grow [] (pathsOf identifiers)) := by
  have hroots : identifiers.foldl insertIdentifier [] = grow [] (pathsOf identifiers) := by
    induction identifiers using List.reverseRecOn with
    | nil => rfl
    | append_singleton identifiers id ih =>
        rw [List.foldl_append, ih, List.foldl_cons, List.foldl_nil, insertIdentifier]
        cases hid : NodeId.isDependency id with
        | true => simp [pathsOf, hid]
        | false =>
            have hpaths : pathsOf (identifiers ++ [id]) =
                pathsOf identifiers ++ [NodeId.segments id] := by
              simp [pathsOf, hid]
            rw [hpaths, grow_concat, List.nil_append, NodeId.ofSegments_segments]
            rfl
  rw [ofIdentifiers, hroots]

/--
The folder tree depends on nothing but which identifiers other than dependencies
occur. Two trees that are equal agree in names, paths, kinds, children and order.
-/
theorem ofIdentifiers_eq_of_same_identifiers (xs ys : List NodeId)
    (h : ∀ id, NodeId.isDependency id = false → (id ∈ xs ↔ id ∈ ys)) :
    ofIdentifiers xs = ofIdentifiers ys := by
  rw [ofIdentifiers_eq_grow, ofIdentifiers_eq_grow]
  apply sortAll_grow_congr
  intro path
  rw [mem_pathsOf, mem_pathsOf]
  constructor
  · rintro ⟨id, hid, hdependency, hpath⟩
    exact ⟨id, (h id hdependency).mp hid, hdependency, hpath⟩
  · rintro ⟨id, hid, hdependency, hpath⟩
    exact ⟨id, (h id hdependency).mpr hid, hdependency, hpath⟩

/-- A file and a folder of one name, an empty last segment, repetitions and a dependency. -/
theorem ofIdentifiers_of_repeated_identifiers :
    (∀ id, NodeId.isDependency id = false →
      (id ∈ ["b", "a/x", "module:os", "a/", "b", "b/y"] ↔ id ∈ ["b/y", "a/", "a/x", "b"])) ∧
    ofIdentifiers ["b", "a/x", "module:os", "a/", "b", "b/y"] =
      ofIdentifiers ["b/y", "a/", "a/x", "b"] := by
  have h : ∀ id, NodeId.isDependency id = false →
      (id ∈ ["b", "a/x", "module:os", "a/", "b", "b/y"] ↔ id ∈ ["b/y", "a/", "a/x", "b"]) := by
    intro id hid
    have hne : id ≠ "module:os" := by
      rintro rfl
      exact absurd hid (by decide)
    simp only [List.mem_cons, List.not_mem_nil, hne, or_false, false_or]
    tauto
  exact ⟨h, ofIdentifiers_eq_of_same_identifiers _ _ h⟩

end CodeAtlas.Explorer.Entry
