import CodeAtlas.Proofs.Explorer.FilePaths
import CodeAtlas.Proofs.Explorer.NameOrder

/-! # From the root to an entry

An entry is reached from its root by the names of the folders above it. In a tree made from
identifiers these names, joined to a path, are the path of the entry. So the tree holds one
file for each identifier, and no two of its folders have one path.
-/

namespace CodeAtlas.NodeId

/-! ## Segments -/

def IsSegment (name : String) : Prop :=
  pathMark ∉ name.toList

theorem not_mem_of_mem_splitOn {mark : Char} (cs : List Char) :
    ∀ part ∈ cs.splitOn mark, mark ∉ part := by
  induction cs with
  | nil => simp [List.splitOn_eq_splitOnP]
  | cons c cs ih =>
      intro part hpart
      rw [List.splitOn_eq_splitOnP, List.splitOnP_cons_eq_if_modifyHead,
        ← List.splitOn_eq_splitOnP] at hpart
      split at hpart
      · cases hpart with
        | head => exact List.not_mem_nil
        | tail _ hpart => exact ih part hpart
      · rename_i hc
        -- The first character joins the first part, and is no mark.
        cases hsplit : cs.splitOn mark with
        | nil => simp [hsplit] at hpart
        | cons first rest =>
            rw [hsplit] at hpart ih
            cases hpart with
            | head =>
                have hfirst := ih first List.mem_cons_self
                simp only [beq_iff_eq] at hc
                simp [Ne.symm hc, hfirst]
            | tail _ hpart => exact ih part (List.mem_cons_of_mem _ hpart)

theorem isSegment_of_mem_segments {path name : String} (h : name ∈ segments path) :
    IsSegment name := by
  obtain ⟨part, hpart, rfl⟩ := List.mem_map.mp h
  rw [IsSegment, String.toList_ofList]
  exact not_mem_of_mem_splitOn path.toList part hpart

theorem segments_ofSegments {names : List String} (hne : names ≠ [])
    (h : ∀ name ∈ names, IsSegment name) : segments (ofSegments names) = names := by
  have hparts : ∀ part ∈ names.map String.toList, pathMark ∉ part := by
    intro part hpart
    obtain ⟨name, hname, rfl⟩ := List.mem_map.mp hpart
    exact h name hname
  have hid : (String.ofList ∘ String.toList) = id := by
    funext name
    simp
  rw [segments, ofSegments, String.toList_ofList,
    List.splitOn_intercalate pathMark hparts (by simpa using hne), List.map_map, hid, List.map_id]

theorem toList_ofSegments_cons (name : String) {names : List String} (hne : names ≠ []) :
    (ofSegments (name :: names)).toList =
      name.toList ++ pathMark :: (ofSegments names).toList := by
  rw [ofSegments, ofSegments, String.toList_ofList, String.toList_ofList, List.map_cons,
    List.intercalate_cons_of_ne_nil (by simpa using hne), List.append_assoc,
    List.singleton_append]

theorem ofSegments_eq_intercalate (names : List String) :
    ofSegments names = "/".intercalate names := by
  rw [← String.toList_inj, ofSegments, String.toList_ofList, String.toList_intercalate]
  rfl

/-- What lies below a folder has a path that goes on where the path of the folder ends. -/
theorem toList_ofSegments_append {above below : List String} (ha : above ≠ []) (hb : below ≠ []) :
    (ofSegments (above ++ below)).toList =
      (ofSegments above).toList ++ pathMark :: (ofSegments below).toList := by
  induction above with
  | nil => exact absurd rfl ha
  | cons name above ih =>
      by_cases habove : above = []
      · subst habove
        rw [List.singleton_append, toList_ofSegments_cons name hb]
        simp [ofSegments]
      · rw [List.cons_append, toList_ofSegments_cons name (by simp [habove]), ih habove,
          toList_ofSegments_cons name habove, List.append_assoc, List.cons_append]

theorem count_pathMark_ofSegments {names : List String} (hne : names ≠ [])
    (h : ∀ name ∈ names, IsSegment name) :
    (ofSegments names).toList.count pathMark + 1 = names.length := by
  induction names with
  | nil => exact absurd rfl hne
  | cons name names ih =>
      have hname : name.toList.count pathMark = 0 :=
        List.count_eq_zero.mpr (h name List.mem_cons_self)
      by_cases hnames : names = []
      · subst hnames
        simpa [ofSegments] using hname
      · have hrest := ih hnames fun other hother => h other (List.mem_cons_of_mem _ hother)
        rw [toList_ofSegments_cons name hnames, List.count_append, hname, List.count_cons_self,
          List.length_cons]
        omega

end CodeAtlas.NodeId

namespace CodeAtlas.Explorer

/-! ## Trails -/

/-- An entry with the names that lead to it from the root, its own name last. -/
structure Trail where
  names : List String
  entry : Entry

namespace Entry

mutual

/-- The trails of an entry and of all entries below it, where `above` leads to the entry. -/
def trails (above : List String) : Entry → List Trail
  | e@(.mk name _ _ none) => [⟨above ++ [name], e⟩]
  | e@(.mk name _ _ (some children)) =>
    ⟨above ++ [name], e⟩ :: trailsAll (above ++ [name]) children

def trailsAll (above : List String) : List Entry → List Trail
  | [] => []
  | e :: es => e.trails above ++ trailsAll above es

end

theorem trailsAll_eq_flatMap (above : List String) (entries : List Entry) :
    trailsAll above entries = entries.flatMap (trails above) := by
  induction entries with
  | nil => rfl
  | cons e es ih => rw [trailsAll, ih, List.flatMap_cons]

theorem mem_trailsAll_of_mem {above : List String} {entries : List Entry} {e : Entry} {t : Trail}
    (he : e ∈ entries) (ht : t ∈ e.trails above) : t ∈ trailsAll above entries := by
  rw [trailsAll_eq_flatMap]
  exact List.mem_flatMap.mpr ⟨e, he, ht⟩

theorem trails_eq (above : List String) (e : Entry) :
    e.trails above = ⟨above ++ [e.name], e⟩ :: trailsAll (above ++ [e.name]) e.children := by
  rcases e with ⟨name, path, kind, _ | children⟩ <;> rfl

mutual

/-- What holds of an entry as soon as it holds of its children holds of every entry. -/
theorem below_induction {motive : Entry → Prop}
    (entry : ∀ e : Entry, (∀ child ∈ e.children, motive child) → motive e) : ∀ e, motive e
  | .mk name path kind none => entry (.mk name path kind none) fun _ h => by cases h
  | .mk name path kind (some children) =>
    entry (.mk name path kind (some children)) (below_induction_all entry children)

theorem below_induction_all {motive : Entry → Prop}
    (entry : ∀ e : Entry, (∀ child ∈ e.children, motive child) → motive e) :
    ∀ entries : List Entry, ∀ e ∈ entries, motive e
  | first :: _, _, .head _ => below_induction entry first
  | _ :: rest, e, .tail _ h => below_induction_all entry rest e h

end

theorem exists_names_of_mem_trails (e : Entry) : ∀ {above : List String} {t : Trail},
    t ∈ e.trails above → ∃ rest, t.names = above ++ e.name :: rest := by
  induction e using below_induction with
  | entry e ih =>
      intro above t ht
      rw [trails_eq, List.mem_cons] at ht
      rcases ht with rfl | ht
      · exact ⟨[], rfl⟩
      · rw [trailsAll_eq_flatMap, List.mem_flatMap] at ht
        obtain ⟨child, hchild, ht⟩ := ht
        obtain ⟨rest, hnames⟩ := ih child hchild ht
        exact ⟨child.name :: rest, by rw [hnames, List.append_assoc]; rfl⟩

theorem exists_names_of_mem_trailsAll {entries : List Entry} {above : List String} {t : Trail}
    (ht : t ∈ trailsAll above entries) : ∃ rest, rest ≠ [] ∧ t.names = above ++ rest := by
  rw [trailsAll_eq_flatMap, List.mem_flatMap] at ht
  obtain ⟨e, -, ht⟩ := ht
  obtain ⟨rest, hnames⟩ := exists_names_of_mem_trails e ht
  exact ⟨e.name :: rest, List.cons_ne_nil _ _, hnames⟩

mutual

theorem map_path_files_trails : ∀ (e : Entry) (above : List String),
    ((e.trails above).filter (·.entry.kind == .file)).map (·.entry.path) = e.filePaths
  | .mk _ path kind none, above => by cases kind <;> rfl
  | .mk name path kind (some children), above => by
    have hbelow := map_path_files_trailsAll children (above ++ [name])
    cases kind with
    | file => exact congrArg (path :: ·) hbelow
    | folder => exact hbelow

theorem map_path_files_trailsAll : ∀ (entries : List Entry) (above : List String),
    ((trailsAll above entries).filter (·.entry.kind == .file)).map (·.entry.path) =
      filePathsAll entries
  | [], _ => rfl
  | e :: es, above => by
    rw [trailsAll, List.filter_append, List.map_append, map_path_files_trails,
      map_path_files_trailsAll, filePathsAll]

end

/-! ## Sorting keeps the trails -/

def sortedTrail (t : Trail) : Trail :=
  ⟨t.names, t.entry.sortBelow⟩

theorem trailsAll_perm (above : List String) {xs ys : List Entry} (h : xs.Perm ys) :
    (trailsAll above xs).Perm (trailsAll above ys) := by
  rw [trailsAll_eq_flatMap, trailsAll_eq_flatMap]
  exact h.flatMap_right (trails above)

mutual

theorem trails_sortBelow : ∀ (e : Entry) (above : List String),
    (e.sortBelow.trails above).Perm ((e.trails above).map sortedTrail)
  | .mk _ _ _ none, _ => List.Perm.refl _
  | .mk name _ _ (some children), above =>
    ((trailsAll_perm _ (List.mergeSort_perm (sortBelowAll children) le)).trans
      (trailsAll_sortBelowAll children (above ++ [name]))).cons _

theorem trailsAll_sortBelowAll : ∀ (entries : List Entry) (above : List String),
    (trailsAll above (sortBelowAll entries)).Perm ((trailsAll above entries).map sortedTrail)
  | [], _ => List.Perm.refl _
  | e :: es, above => by
    rw [sortBelowAll, trailsAll, trailsAll, List.map_append]
    exact (trails_sortBelow e above).append (trailsAll_sortBelowAll es above)

end

theorem trailsAll_sortAll (above : List String) (entries : List Entry) :
    (trailsAll above (sortAll entries)).Perm ((trailsAll above entries).map sortedTrail) :=
  (trailsAll_perm above (List.mergeSort_perm (sortBelowAll entries) le)).trans
    (trailsAll_sortBelowAll entries above)

/-! ## The trails of a grown tree -/

variable {above : List String} {paths : List (List String)}

@[simp] theorem path_entryAt (above : List String) (paths : List (List String)) (k : EntryKey) :
    (entryAt above paths k).path = NodeId.ofSegments (above ++ [k.2]) := by
  rcases k with ⟨kind, name⟩
  cases kind <;> rfl

theorem trailsAll_grow (above : List String) (paths : List (List String)) :
    trailsAll above (grow above paths) =
      (keysOf paths).flatMap fun key => (entryAt above paths key).trails above := by
  rw [trailsAll_eq_flatMap, grow_eq_map_keysOf, List.flatMap_map]

theorem trails_entryAt_file (above : List String) (paths : List (List String)) (name : String) :
    (entryAt above paths (.file, name)).trails above =
      [⟨above ++ [name], entryAt above paths (.file, name)⟩] :=
  rfl

theorem trails_entryAt_folder (above : List String) (paths : List (List String)) (name : String) :
    (entryAt above paths (.folder, name)).trails above =
      ⟨above ++ [name], entryAt above paths (.folder, name)⟩ ::
        trailsAll (above ++ [name]) (grow (above ++ [name]) (pathsThrough name paths)) :=
  rfl

/-- The entry of the trail stands in the level of some paths. -/
def Grown (t : Trail) (above : List String) (paths : List (List String)) : Prop :=
  ∃ key ∈ keysOf paths, t = ⟨above ++ [key.2], entryAt above paths key⟩

/-- Every entry of a grown tree stands in the level of paths that lead there. -/
theorem exists_grown_of_mem (above : List String) (paths : List (List String)) :
    ∀ t ∈ trailsAll above (grow above paths), ∃ above' paths', Grown t above' paths' ∧
      ∀ path ∈ paths', ∃ path' ∈ paths, above' ++ path = above ++ path' := by
  induction above, paths using level_induction with
  | level above paths ih =>
      intro t ht
      rw [trailsAll_grow, List.mem_flatMap] at ht
      obtain ⟨⟨kind, name⟩, hkey, ht⟩ := ht
      have hhere : Grown ⟨above ++ [name], entryAt above paths (kind, name)⟩ above paths :=
        ⟨(kind, name), hkey, rfl⟩
      cases kind with
      | file =>
          rw [trails_entryAt_file, List.mem_singleton] at ht
          rw [ht]
          exact ⟨above, paths, hhere, fun path hpath => ⟨path, hpath, rfl⟩⟩
      | folder =>
          rw [trails_entryAt_folder, List.mem_cons] at ht
          rcases ht with rfl | ht
          · exact ⟨above, paths, hhere, fun path hpath => ⟨path, hpath, rfl⟩⟩
          · obtain ⟨above', paths', hgrown, hpaths⟩ := ih name hkey t ht
            refine ⟨above', paths', hgrown, ?_⟩
            intro path hpath
            obtain ⟨rest, hrest, heq⟩ := hpaths path hpath
            exact ⟨name :: rest, (mem_pathsThrough.mp hrest).2, by rw [heq]; simp⟩

/-- A path leads through at least one entry below each of its folders. -/
theorem grow_pathsThrough_ne_nil {name : String} (h : (EntryKind.folder, name) ∈ keysOf paths) :
    grow (above ++ [name]) (pathsThrough name paths) ≠ [] := by
  obtain ⟨path, hpath, hkey⟩ := mem_keysOf.mp h
  match path with
  | [] => cases hkey
  | [_] => cases hkey
  | first :: next :: rest =>
      cases hkey
      have hrest : next :: rest ∈ pathsThrough name paths :=
        mem_pathsThrough.mpr ⟨List.cons_ne_nil _ _, hpath⟩
      obtain ⟨key, hnext⟩ := exists_keyOf? (List.cons_ne_nil next rest)
      have hmem : key ∈ keysOf (pathsThrough name paths) := mem_keysOf.mpr ⟨_, hrest, hnext⟩
      rw [grow_eq_map_keysOf]
      intro hnil
      rw [List.map_eq_nil_iff.mp hnil] at hmem
      cases hmem

/-- The key in whose entry a trail lies can be read off the trail. -/
theorem key_of_mem_trails_entryAt {key : EntryKey} {t : Trail}
    (ht : t ∈ (entryAt above paths key).trails above) :
    ∃ rest, t.names = above ++ key.2 :: rest ∧
      key.1 = if rest = [] then t.entry.kind else .folder := by
  rcases key with ⟨kind, name⟩
  cases kind with
  | file =>
      rw [trails_entryAt_file, List.mem_singleton] at ht
      exact ⟨[], by rw [ht], by rw [ht]; rfl⟩
  | folder =>
      rw [trails_entryAt_folder, List.mem_cons] at ht
      rcases ht with rfl | ht
      · exact ⟨[], rfl, rfl⟩
      · obtain ⟨rest, hrest, hnames⟩ := exists_names_of_mem_trailsAll ht
        exact ⟨rest, by rw [hnames]; simp, by rw [if_neg hrest]⟩

/-- Names and kind tell all entries of a grown tree apart. -/
theorem nodup_keys_trails (above : List String) (paths : List (List String)) :
    ((trailsAll above (grow above paths)).map fun t => (t.names, t.entry.kind)).Nodup := by
  induction above, paths using level_induction with
  | level above paths ih =>
      rw [trailsAll_grow, List.map_flatMap, List.nodup_flatMap]
      constructor
      · rintro ⟨kind, name⟩ hkey
        cases kind with
        | file => exact List.nodup_singleton _
        | folder =>
            rw [trails_entryAt_folder, List.map_cons, List.nodup_cons]
            refine ⟨?_, ih name hkey⟩
            -- Below the folder the names go on.
            intro hmem
            obtain ⟨t, ht, heq⟩ := List.mem_map.mp hmem
            obtain ⟨rest, hrest, hnames⟩ := exists_names_of_mem_trailsAll ht
            rw [Prod.mk.injEq, hnames, List.append_right_eq_self] at heq
            exact hrest heq.1
      · refine (keysOf_nodup paths).imp ?_
        intro j k hne x hxj hxk
        obtain ⟨t, ht, rfl⟩ := List.mem_map.mp hxj
        obtain ⟨t', ht', heq⟩ := List.mem_map.mp hxk
        obtain ⟨rest, hnames, hkind⟩ := key_of_mem_trails_entryAt ht
        obtain ⟨rest', hnames', hkind'⟩ := key_of_mem_trails_entryAt ht'
        rw [Prod.mk.injEq, hnames, hnames', List.append_cancel_left_eq, List.cons.injEq] at heq
        obtain ⟨⟨hname, hrest⟩, hentry⟩ := heq
        rw [hrest, hentry, ← hkind] at hkind'
        exact hne (Prod.ext hkind'.symm hname.symm)

/-! ## Siblings -/

theorem pairwise_precedes_sortAll_grow (above : List String) (paths : List (List String)) :
    (sortAll (grow above paths)).Pairwise Precedes := by
  have hkeys : ((sortAll (grow above paths)).map fun e => (e.kind, e.name)).Nodup := by
    have hperm : (sortAll (grow above paths)).Perm
        ((keysOf paths).map fun key => (entryAt above paths key).sortBelow) := by
      rw [sortAll, sortBelowAll_eq_map, grow_eq_map_keysOf, List.map_map]
      exact List.mergeSort_perm _ le
    rw [(hperm.map _).nodup_iff, List.map_map]
    simpa [Function.comp_def] using keysOf_nodup paths
  have hsorted : (sortAll (grow above paths)).Pairwise fun a b => le a b = true :=
    List.pairwise_mergeSort le_trans le_total _
  rw [List.nodup_iff_pairwise_ne, List.pairwise_map] at hkeys
  refine (hsorted.and hkeys).imp ?_
  intro a b hab
  refine precedes_iff.mpr ⟨hab.1, ?_⟩
  intro hsame
  exact hab.2 (Prod.ext hsame.1 hsame.2)

/-! ## Trees of identifiers -/

section OfIdentifiers

variable {identifiers : List NodeId} {t : Trail}

@[simp] theorem path_sortBelow (e : Entry) : e.sortBelow.path = e.path := by
  rcases e with ⟨name, path, kind, _ | children⟩ <;> rfl

theorem children?_sortBelow (e : Entry) : e.sortBelow.children? = e.children?.map sortAll := by
  rcases e with ⟨name, path, kind, _ | children⟩ <;> rfl

theorem names_ne_nil (ht : t ∈ trailsAll [] (ofIdentifiers identifiers)) : t.names ≠ [] := by
  obtain ⟨rest, hrest, hnames⟩ := exists_names_of_mem_trailsAll ht
  rw [hnames]
  exact hrest

/-- Every entry of the tree comes from a level of the unsorted tree, and its names are segments. -/
theorem exists_grown_of_mem_ofIdentifiers (ht : t ∈ trailsAll [] (ofIdentifiers identifiers)) :
    ∃ above paths, ∃ key ∈ keysOf paths, t.names = above ++ [key.2] ∧
      t.entry = (entryAt above paths key).sortBelow ∧ ∀ name ∈ t.names, NodeId.IsSegment name := by
  rw [ofIdentifiers_eq_grow, (trailsAll_sortAll _ _).mem_iff, List.mem_map] at ht
  obtain ⟨u, hu, rfl⟩ := ht
  obtain ⟨above, paths, ⟨key, hkey, rfl⟩, hpaths⟩ := exists_grown_of_mem _ _ u hu
  refine ⟨above, paths, key, hkey, rfl, rfl, ?_⟩
  -- The names begin the segments of an identifier.
  obtain ⟨path, hpath, hpathkey⟩ := mem_keysOf.mp hkey
  obtain ⟨path', hpath', heq⟩ := hpaths path hpath
  obtain ⟨id, -, -, rfl⟩ := mem_pathsOf.mp hpath'
  have hfirst : key.2 ∈ path := by
    match path with
    | [] => cases hpathkey
    | [_] => cases hpathkey; simp
    | _ :: _ :: _ => cases hpathkey; simp
  intro name hname
  have hsegment : name ∈ NodeId.segments id := by
    rw [List.nil_append] at heq
    rw [← heq]
    rcases List.mem_append.mp hname with habove | hlast
    · exact List.mem_append_left _ habove
    · rw [List.mem_singleton.mp hlast]
      exact List.mem_append_right _ hfirst
  exact NodeId.isSegment_of_mem_segments hsegment

theorem path_eq_ofSegments (ht : t ∈ trailsAll [] (ofIdentifiers identifiers)) :
    t.entry.path = NodeId.ofSegments t.names := by
  obtain ⟨above, paths, key, -, hnames, hentry, -⟩ := exists_grown_of_mem_ofIdentifiers ht
  rw [hentry, path_sortBelow, path_entryAt, hnames]

theorem segments_path (ht : t ∈ trailsAll [] (ofIdentifiers identifiers)) :
    NodeId.segments t.entry.path = t.names := by
  obtain ⟨above, paths, key, -, -, -, hsegments⟩ := exists_grown_of_mem_ofIdentifiers ht
  rw [path_eq_ofSegments ht, NodeId.segments_ofSegments (names_ne_nil ht) hsegments]

theorem count_pathMark_path (ht : t ∈ trailsAll [] (ofIdentifiers identifiers)) :
    t.entry.path.toList.count NodeId.pathMark + 1 = t.names.length := by
  obtain ⟨above, paths, key, -, -, -, hsegments⟩ := exists_grown_of_mem_ofIdentifiers ht
  rw [path_eq_ofSegments ht, NodeId.count_pathMark_ofSegments (names_ne_nil ht) hsegments]

theorem children?_of_file (ht : t ∈ trailsAll [] (ofIdentifiers identifiers))
    (hkind : t.entry.kind = .file) : t.entry.children? = none := by
  obtain ⟨above, paths, ⟨kind, name⟩, -, -, hentry, -⟩ := exists_grown_of_mem_ofIdentifiers ht
  rw [hentry, kind_sortBelow, kind_entryAt] at hkind
  cases hkind
  rw [hentry, children?_sortBelow]
  rfl

/-- Below a folder stands the sorted level of some paths, and it is not empty. -/
theorem children?_of_folder (ht : t ∈ trailsAll [] (ofIdentifiers identifiers))
    (hkind : t.entry.kind = .folder) :
    ∃ above paths, t.entry.children? = some (sortAll (grow above paths)) ∧
      sortAll (grow above paths) ≠ [] := by
  obtain ⟨above, paths, ⟨kind, name⟩, hkey, -, hentry, -⟩ := exists_grown_of_mem_ofIdentifiers ht
  rw [hentry, kind_sortBelow, kind_entryAt] at hkind
  cases hkind
  refine ⟨above ++ [name], pathsThrough name paths, by rw [hentry, children?_sortBelow]; rfl, ?_⟩
  intro hnil
  have hperm := List.mergeSort_perm
    (sortBelowAll (grow (above ++ [name]) (pathsThrough name paths))) le
  rw [← sortAll, hnil, sortBelowAll_eq_map, List.nil_perm, List.map_eq_nil_iff] at hperm
  exact grow_pathsThrough_ne_nil hkey hperm

theorem pairwise_precedes_children (ht : t ∈ trailsAll [] (ofIdentifiers identifiers)) :
    t.entry.children.Pairwise Precedes := by
  cases hkind : t.entry.kind with
  | file =>
      rw [children, children?_of_file ht hkind]
      exact List.Pairwise.nil
  | folder =>
      obtain ⟨above, paths, hchildren, -⟩ := children?_of_folder ht hkind
      rw [children, hchildren]
      exact pairwise_precedes_sortAll_grow above paths

/-- Path and kind tell all entries of the tree apart. -/
theorem nodup_path_kind (identifiers : List NodeId) :
    ((trailsAll [] (ofIdentifiers identifiers)).map
      fun t => (t.entry.path, t.entry.kind)).Nodup := by
  have hkeys : ((trailsAll [] (ofIdentifiers identifiers)).map
      fun t => (t.names, t.entry.kind)).Nodup := by
    rw [ofIdentifiers_eq_grow, ((trailsAll_sortAll _ _).map _).nodup_iff, List.map_map]
    simpa [Function.comp_def, sortedTrail] using nodup_keys_trails [] (pathsOf identifiers)
  rw [List.nodup_iff_pairwise_ne, List.pairwise_map] at hkeys ⊢
  refine hkeys.imp_of_mem ?_
  intro t u ht hu hne hsame
  rw [Prod.mk.injEq] at hsame
  have hnames : t.names = u.names := by
    rw [← segments_path ht, ← segments_path hu, hsame.1]
  exact hne (Prod.ext hnames hsame.2)

theorem nodup_folderPaths (identifiers : List NodeId) :
    (((trailsAll [] (ofIdentifiers identifiers)).filter (·.entry.isFolder)).map
      (·.entry.path)).Nodup := by
  have hkeys := nodup_path_kind identifiers
  rw [List.nodup_iff_pairwise_ne, List.pairwise_map] at hkeys ⊢
  refine (hkeys.filter _).imp_of_mem ?_
  intro t u ht hu hne hpath
  have hkind : t.entry.kind = u.entry.kind :=
    (beq_iff_eq.mp (List.mem_filter.mp ht).2).trans (beq_iff_eq.mp (List.mem_filter.mp hu).2).symm
  exact hne (Prod.ext hpath hkind)

/--
The tree of identifiers holds one file for each identifier that names no dependency, and no other
file. An entry has the names that lead to it as its path, so its depth is the number of marks in
the path, and no two folders have one path. Folders hold something, files hold nothing, and siblings
are in strict order.
-/
theorem ofIdentifiers_exactly_the_tree (identifiers : List NodeId) :
    let trails := trailsAll [] (ofIdentifiers identifiers)
    let files := trails.filter (·.entry.kind == .file)
    let folders := trails.filter (·.entry.kind == .folder)
    ((files.map (·.entry.path)).Nodup ∧
        ∀ path, path ∈ files.map (·.entry.path) ↔
          path ∈ identifiers ∧ NodeId.isDependency path = false) ∧
      (∀ t ∈ trails, t.entry.path = "/".intercalate t.names ∧
        t.names.length = t.entry.path.toList.count '/' + 1) ∧
      (folders.map (·.entry.path)).Nodup ∧
      ((∀ t ∈ folders, ∃ child rest, t.entry.children? = some (child :: rest)) ∧
        ∀ t ∈ files, t.entry.children? = none) ∧
      (ofIdentifiers identifiers).Pairwise Precedes ∧
      ∀ t ∈ trails, t.entry.children.Pairwise Precedes := by
  intro trails files folders
  have hfiles : files.map (·.entry.path) = filePathsAll (ofIdentifiers identifiers) :=
    map_path_files_trailsAll _ _
  rw [hfiles]
  refine ⟨⟨nodup_filePathsAll_ofIdentifiers identifiers, ?_⟩, ?_,
    nodup_folderPaths identifiers, ⟨?_, ?_⟩, ?_, ?_⟩
  · intro path
    exact mem_filePathsAll_ofIdentifiers
  · intro t ht
    rw [← NodeId.ofSegments_eq_intercalate]
    exact ⟨path_eq_ofSegments ht, (count_pathMark_path ht).symm⟩
  · intro t ht
    obtain ⟨ht, hkind⟩ := List.mem_filter.mp ht
    obtain ⟨above, paths, hchildren, hne⟩ := children?_of_folder ht (beq_iff_eq.mp hkind)
    obtain ⟨child, rest, hcons⟩ := List.exists_cons_of_ne_nil hne
    exact ⟨child, rest, by rw [hchildren, hcons]⟩
  · intro t ht
    obtain ⟨ht, hkind⟩ := List.mem_filter.mp ht
    exact children?_of_file ht (beq_iff_eq.mp hkind)
  · rw [ofIdentifiers_eq_grow]
    exact pairwise_precedes_sortAll_grow _ _
  · intro t ht
    exact pairwise_precedes_children ht

/-- Empty names, a file with the path of a folder, a repeated file and a dependency. -/
def slashedIdentifiers : List NodeId :=
  ["", "/a", "a//", "a", "module:os", "a"]

theorem slashedIdentifiers_tree :
    ∃ t ∈ trailsAll [] (ofIdentifiers slashedIdentifiers),
      t.entry.path = "a//" ∧ t.names.length = 3 ∧ t.entry.children? = none := by
  obtain ⟨⟨-, hfiles⟩, hpaths, -, ⟨-, hleaf⟩, -⟩ :=
    ofIdentifiers_exactly_the_tree slashedIdentifiers
  have hlisted := (hfiles "a//").mpr ⟨by decide, by decide⟩
  obtain ⟨t, ht, hpath⟩ := List.mem_map.mp hlisted
  have hmem := (List.mem_filter.mp ht).1
  refine ⟨t, hmem, hpath, ?_, hleaf t ht⟩
  rw [(hpaths t hmem).2, hpath]
  decide

end OfIdentifiers

end Entry

end CodeAtlas.Explorer
