import CodeAtlas.Proofs.Explorer.OrderIndependence
import Mathlib.Data.List.Nodup

/-! # The files of the folder tree

The files at all levels of a tree, read off one after another. Sorting moves them
about, but a tree made from identifiers holds a file for each identifier that names
no dependency, once, and no other file.
-/

namespace CodeAtlas.Explorer.Entry

mutual

/-- The paths of the files from this entry down. -/
def filePaths : Entry → List String
  | .mk _ path kind none => if kind = .file then [path] else []
  | .mk _ path kind (some children) =>
    (if kind = .file then [path] else []) ++ filePathsAll children

/-- The paths of the files in a list of trees. -/
def filePathsAll : List Entry → List String
  | [] => []
  | e :: es => e.filePaths ++ filePathsAll es

end

theorem filePathsAll_eq_flatMap (entries : List Entry) :
    filePathsAll entries = entries.flatMap filePaths := by
  induction entries with
  | nil => rfl
  | cons e es ih => rw [filePathsAll, ih, List.flatMap_cons]

/-! ## Sorting keeps the files -/

theorem filePathsAll_perm {xs ys : List Entry} (h : xs.Perm ys) :
    (filePathsAll xs).Perm (filePathsAll ys) := by
  rw [filePathsAll_eq_flatMap, filePathsAll_eq_flatMap]
  exact h.flatMap_right filePaths

mutual

theorem filePaths_sortBelow : ∀ e : Entry, e.sortBelow.filePaths.Perm e.filePaths
  | .mk _ _ _ none => List.Perm.refl _
  | .mk _ _ _ (some children) =>
    ((filePathsAll_perm (List.mergeSort_perm (sortBelowAll children) le)).trans
      (filePathsAll_sortBelowAll children)).append_left _

theorem filePathsAll_sortBelowAll :
    ∀ entries : List Entry, (filePathsAll (sortBelowAll entries)).Perm (filePathsAll entries)
  | [] => List.Perm.refl _
  | e :: es => (filePaths_sortBelow e).append (filePathsAll_sortBelowAll es)

end

theorem filePathsAll_sortAll (entries : List Entry) :
    (filePathsAll (sortAll entries)).Perm (filePathsAll entries) :=
  (filePathsAll_perm (List.mergeSort_perm (sortBelowAll entries) le)).trans
    (filePathsAll_sortBelowAll entries)

/-! ## The files of a grown tree -/

theorem length_of_keyOf?_folder {path : List String} {name : String}
    (h : keyOf? path = some (.folder, name)) : 2 ≤ path.length := by
  match path with
  | [] => cases h
  | [_] => cases h
  | _ :: _ :: _ => simp

/-- What holds of a level as soon as it holds below each of its folders holds of every level. -/
theorem level_induction {motive : List String → List (List String) → Prop}
    (level : ∀ above paths, (∀ name, (EntryKind.folder, name) ∈ keysOf paths →
      motive (above ++ [name]) (pathsThrough name paths)) → motive above paths)
    (above : List String) (paths : List (List String)) : motive above paths := by
  -- The longest path gets shorter below a folder.
  have hbounded : ∀ n above paths, (∀ path ∈ paths, path.length ≤ n) → motive above paths := by
    intro n
    induction n with
    | zero =>
        intro above paths hlength
        apply level
        intro name hname
        obtain ⟨path, hpath, hkey⟩ := mem_keysOf.mp hname
        have hlong := length_of_keyOf?_folder hkey
        have hshort := hlength path hpath
        omega
    | succ n ih =>
        intro above paths hlength
        apply level
        intro name _
        apply ih
        intro rest hrest
        have hlong := hlength _ (mem_pathsThrough.mp hrest).2
        simpa using hlong
  apply hbounded paths.flatten.length
  intro path hpath
  exact (List.sublist_flatten_of_mem hpath).length_le

theorem filePathsAll_grow (above : List String) (paths : List (List String)) :
    filePathsAll (grow above paths) =
      (keysOf paths).flatMap fun key => (entryAt above paths key).filePaths := by
  rw [filePathsAll_eq_flatMap, grow_eq_map_keysOf, List.flatMap_map]

theorem filePaths_entryAt_file (above : List String) (paths : List (List String)) (name : String) :
    (entryAt above paths (.file, name)).filePaths = [NodeId.ofSegments (above ++ [name])] :=
  rfl

theorem filePaths_entryAt_folder (above : List String) (paths : List (List String))
    (name : String) :
    (entryAt above paths (.folder, name)).filePaths =
      filePathsAll (grow (above ++ [name]) (pathsThrough name paths)) :=
  rfl

/-- The entry with a key holds the files to which the paths with that key lead. -/
theorem mem_filePaths_entryAt_of_below {above : List String} {paths : List (List String)}
    {key : EntryKey} (hkey : key ∈ keysOf paths)
    (hbelow : ∀ name, key = (.folder, name) → ∀ p,
      p ∈ filePathsAll (grow (above ++ [name]) (pathsThrough name paths)) ↔
        ∃ rest ∈ pathsThrough name paths, rest ≠ [] ∧
          NodeId.ofSegments (above ++ [name] ++ rest) = p)
    (p : String) :
    p ∈ (entryAt above paths key).filePaths ↔
      ∃ path ∈ paths, keyOf? path = some key ∧ NodeId.ofSegments (above ++ path) = p := by
  obtain ⟨path, hpath, hpathkey⟩ := mem_keysOf.mp hkey
  rcases key with ⟨kind, name⟩
  cases kind with
  | file =>
      rw [filePaths_entryAt_file, List.mem_singleton]
      have hsingle : ∀ path, keyOf? path = some (.file, name) → path = [name] := by
        intro path h
        match path with
        | [] => cases h
        | [_] => cases h; rfl
        | _ :: _ :: _ => cases h
      constructor
      · rintro rfl
        exact ⟨path, hpath, hpathkey, by rw [hsingle path hpathkey]⟩
      · rintro ⟨path', -, hkey', rfl⟩
        rw [hsingle path' hkey']
  | folder =>
      rw [filePaths_entryAt_folder, hbelow name rfl]
      constructor
      · rintro ⟨rest, hrest, hne, rfl⟩
        obtain ⟨next, last, rfl⟩ := List.exists_cons_of_ne_nil hne
        exact ⟨name :: next :: last, (mem_pathsThrough.mp hrest).2, rfl, by simp⟩
      · rintro ⟨path', hpath', hkey', rfl⟩
        match path' with
        | [] => cases hkey'
        | [_] => cases hkey'
        | first :: next :: last =>
            cases hkey'
            exact ⟨next :: last, mem_pathsThrough.mpr ⟨by simp, hpath'⟩, by simp, by simp⟩

theorem exists_keyOf? {path : List String} (h : path ≠ []) : ∃ key, keyOf? path = some key := by
  match path with
  | [] => exact absurd rfl h
  | [_] => exact ⟨_, rfl⟩
  | _ :: _ :: _ => exact ⟨_, rfl⟩

theorem mem_filePathsAll_grow (above : List String) (paths : List (List String)) :
    ∀ p, p ∈ filePathsAll (grow above paths) ↔
      ∃ path ∈ paths, path ≠ [] ∧ NodeId.ofSegments (above ++ path) = p := by
  induction above, paths using level_induction with
  | level above paths ih =>
      intro p
      rw [filePathsAll_grow, List.mem_flatMap]
      constructor
      · rintro ⟨key, hkey, hp⟩
        rw [mem_filePaths_entryAt_of_below hkey fun name h => ih name (h ▸ hkey)] at hp
        obtain ⟨path, hpath, hpathkey, heq⟩ := hp
        refine ⟨path, hpath, ?_, heq⟩
        rintro rfl
        cases hpathkey
      · rintro ⟨path, hpath, hne, heq⟩
        obtain ⟨key, hpathkey⟩ := exists_keyOf? hne
        have hkey : key ∈ keysOf paths := mem_keysOf.mpr ⟨path, hpath, hpathkey⟩
        refine ⟨key, hkey, ?_⟩
        rw [mem_filePaths_entryAt_of_below hkey fun name h => ih name (h ▸ hkey)]
        exact ⟨path, hpath, hpathkey, heq⟩

theorem mem_filePaths_entryAt {above : List String} {paths : List (List String)}
    {key : EntryKey} (hkey : key ∈ keysOf paths) (p : String) :
    p ∈ (entryAt above paths key).filePaths ↔
      ∃ path ∈ paths, keyOf? path = some key ∧ NodeId.ofSegments (above ++ path) = p :=
  mem_filePaths_entryAt_of_below hkey (fun _ _ => mem_filePathsAll_grow _ _) p

/-- Where a path can be read off the identifier made from it, no file is held twice. -/
theorem nodup_filePathsAll_grow (above : List String) (paths : List (List String)) :
    (∀ path ∈ paths, NodeId.segments (NodeId.ofSegments (above ++ path)) = above ++ path) →
      (filePathsAll (grow above paths)).Nodup := by
  induction above, paths using level_induction with
  | level above paths ih =>
      intro hread
      rw [filePathsAll_grow, List.nodup_flatMap]
      constructor
      · rintro ⟨kind, name⟩ hkey
        cases kind with
        | file => exact List.nodup_singleton _
        | folder =>
            rw [filePaths_entryAt_folder]
            apply ih name hkey
            intro rest hrest
            have hpath := hread _ (mem_pathsThrough.mp hrest).2
            simpa using hpath
      · -- A file below two keys would come from one path, and a path has one key.
        refine (keysOf_nodup paths).imp_of_mem ?_
        intro j k hj hk hne p hpj hpk
        obtain ⟨path, hpath, hkeyj, rfl⟩ := (mem_filePaths_entryAt hj p).mp hpj
        obtain ⟨path', hpath', hkeyk, heq⟩ := (mem_filePaths_entryAt hk _).mp hpk
        have hsame : path' = path := by
          have hsegments := congrArg NodeId.segments heq
          rw [hread path hpath, hread path' hpath'] at hsegments
          exact List.append_cancel_left hsegments
        rw [hsame, hkeyj] at hkeyk
        exact hne (Option.some.inj hkeyk)

/-! ## The files of identifiers -/

theorem mem_filePathsAll_ofIdentifiers {identifiers : List NodeId} {p : String} :
    p ∈ filePathsAll (ofIdentifiers identifiers) ↔
      p ∈ identifiers ∧ NodeId.isDependency p = false := by
  rw [ofIdentifiers_eq_grow, (filePathsAll_sortAll _).mem_iff, mem_filePathsAll_grow]
  constructor
  · rintro ⟨path, hpath, -, rfl⟩
    obtain ⟨id, hid, hdependency, rfl⟩ := mem_pathsOf.mp hpath
    rw [List.nil_append, NodeId.ofSegments_segments]
    exact ⟨hid, hdependency⟩
  · rintro ⟨hid, hdependency⟩
    refine ⟨NodeId.segments p, mem_pathsOf.mpr ⟨p, hid, hdependency, rfl⟩, ?_, ?_⟩
    · simp [NodeId.segments]
    · rw [List.nil_append, NodeId.ofSegments_segments]

theorem nodup_filePathsAll_ofIdentifiers (identifiers : List NodeId) :
    (filePathsAll (ofIdentifiers identifiers)).Nodup := by
  rw [ofIdentifiers_eq_grow, (filePathsAll_sortAll _).nodup_iff]
  apply nodup_filePathsAll_grow
  intro path hpath
  obtain ⟨id, -, -, rfl⟩ := mem_pathsOf.mp hpath
  rw [List.nil_append, NodeId.ofSegments_segments]

end CodeAtlas.Explorer.Entry
