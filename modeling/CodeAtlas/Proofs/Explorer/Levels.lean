import CodeAtlas.Explorer.Entry
import Mathlib.Data.List.Induction

/-! # The levels of an unsorted folder tree

Paths are added to the tree one by one. What a level holds afterwards depends on the
paths alone: one entry for every key, a key being a kind and a name, in the order in
which the keys came up. Below a folder stands the level of the paths that lead
through it, so the whole tree is known level by level. The path of a new folder can also be
cut from the identifier, by how deep the folder lies.
-/

namespace CodeAtlas.NodeId

theorem ofSegments_segments (path : String) : ofSegments (segments path) = path := by
  have hid : (String.toList ∘ String.ofList) = id := by
    funext cs
    simp
  rw [ofSegments, segments, List.map_map, hid, List.map_id, List.intercalate_splitOn]
  simp

end CodeAtlas.NodeId

namespace CodeAtlas.Explorer

instance : LawfulBEq EntryKind where
  rfl {k} := by cases k <;> rfl
  eq_of_beq {a b} h := by cases a <;> cases b <;> first | rfl | cases h

/-- What tells the entries of a level apart. -/
abbrev EntryKey := EntryKind × String

namespace Entry

/-! ## Paths and keys -/

/-- The key of the entry to which a path leads first. -/
def keyOf? : List String → Option EntryKey
  | [] => none
  | [name] => some (.file, name)
  | name :: _ :: _ => some (.folder, name)

/-- Add the key of a path, unless it is there. -/
def addKey (keys : List EntryKey) (path : List String) : List EntryKey :=
  match keyOf? path with
  | none => keys
  | some key => if key ∈ keys then keys else keys ++ [key]

/-- The keys of paths, each once, in the order in which they come up. -/
def keysOf (paths : List (List String)) : List EntryKey :=
  paths.foldl addKey []

/-- What is left of a path below the folder `name`, if it leads through that folder. -/
def stepInto? (name : String) : List String → Option (List String)
  | first :: next :: rest => if first = name then some (next :: rest) else none
  | _ => none

/-- What is left of paths below the folder `name`. -/
def pathsThrough (name : String) (paths : List (List String)) : List (List String) :=
  paths.filterMap (stepInto? name)

theorem keysOf_concat (paths : List (List String)) (path : List String) :
    keysOf (paths ++ [path]) = addKey (keysOf paths) path := by
  simp [keysOf]

theorem pathsThrough_concat (name : String) (paths : List (List String)) (path : List String) :
    pathsThrough name (paths ++ [path]) = pathsThrough name paths ++ (stepInto? name path).toList := by
  cases h : stepInto? name path <;> simp [pathsThrough, h]

theorem mem_keysOf {paths : List (List String)} {key : EntryKey} :
    key ∈ keysOf paths ↔ ∃ path ∈ paths, keyOf? path = some key := by
  induction paths using List.reverseRecOn with
  | nil => simp [keysOf]
  | append_singleton paths path ih =>
      have hpaths : (∃ p ∈ paths ++ [path], keyOf? p = some key) ↔
          key ∈ keysOf paths ∨ keyOf? path = some key := by
        rw [ih]
        simp only [List.mem_append, List.mem_singleton]
        constructor
        · rintro ⟨p, hp | rfl, hkey⟩
          · exact Or.inl ⟨p, hp, hkey⟩
          · exact Or.inr hkey
        · rintro (⟨p, hp, hkey⟩ | hkey)
          · exact ⟨p, Or.inl hp, hkey⟩
          · exact ⟨path, Or.inr rfl, hkey⟩
      rw [keysOf_concat, hpaths, addKey]
      cases hkey : keyOf? path with
      | none => simp
      | some k =>
          by_cases hmem : k ∈ keysOf paths
          · simp only [if_pos hmem, Option.some.injEq]
            exact ⟨Or.inl, fun h => h.elim id fun heq => heq ▸ hmem⟩
          · simp only [if_neg hmem, List.mem_append, List.mem_singleton, Option.some.injEq,
              eq_comm]

theorem keysOf_nodup (paths : List (List String)) : (keysOf paths).Nodup := by
  induction paths using List.reverseRecOn with
  | nil => exact List.nodup_nil
  | append_singleton paths path ih =>
      rw [keysOf_concat, addKey]
      cases keyOf? path with
      | none => exact ih
      | some k =>
          by_cases hmem : k ∈ keysOf paths
          · simpa only [if_pos hmem] using ih
          · simp only [if_neg hmem]
            refine List.nodup_append.mpr ⟨ih, List.pairwise_singleton _ k, ?_⟩
            rintro a ha b hb rfl
            rw [List.mem_singleton] at hb
            exact hmem (hb ▸ ha)

/-- A folder through which no path leads has nothing below it. -/
theorem pathsThrough_eq_nil {name : String} {paths : List (List String)}
    (h : (EntryKind.folder, name) ∉ keysOf paths) : pathsThrough name paths = [] := by
  rw [pathsThrough, List.filterMap_eq_nil_iff]
  intro path hpath
  rw [mem_keysOf] at h
  match path with
  | [] => rfl
  | [_] => rfl
  | first :: next :: rest =>
      have hne : first ≠ name := by
        rintro rfl
        exact h ⟨_, hpath, rfl⟩
      simp [stepInto?, hne]

theorem mem_pathsThrough {name : String} {paths : List (List String)} {rest : List String} :
    rest ∈ pathsThrough name paths ↔ rest ≠ [] ∧ name :: rest ∈ paths := by
  simp only [pathsThrough, List.mem_filterMap]
  constructor
  · rintro ⟨path, hpath, hstep⟩
    match path with
    | [] => cases hstep
    | [_] => cases hstep
    | first :: next :: last =>
        simp only [stepInto?] at hstep
        split at hstep
        · rename_i hfirst
          cases hstep
          exact ⟨by simp, hfirst ▸ hpath⟩
        · cases hstep
  · rintro ⟨hne, hpath⟩
    obtain ⟨next, last, rfl⟩ := List.exists_cons_of_ne_nil hne
    exact ⟨name :: next :: last, hpath, by simp [stepInto?]⟩

/-! ## Levels -/

/-- The level below the folders `above` after paths were added one by one. -/
def grow (above : List String) (paths : List (List String)) : List Entry :=
  paths.foldl (fun level path => insert (NodeId.ofSegments (above ++ path)) above path level) []

theorem grow_concat (above : List String) (paths : List (List String)) (path : List String) :
    grow above (paths ++ [path]) =
      insert (NodeId.ofSegments (above ++ path)) above path (grow above paths) := by
  simp [grow]

/-- The entry with the given key below the folders `above`. -/
def entryAt (above : List String) (paths : List (List String)) : EntryKey → Entry
  | (.file, name) => file name (NodeId.ofSegments (above ++ [name]))
  | (.folder, name) =>
    (folder name (NodeId.ofSegments (above ++ [name]))).withChildren
      (grow (above ++ [name]) (pathsThrough name paths))

@[simp] theorem kind_entryAt (above : List String) (paths : List (List String)) (k : EntryKey) :
    (entryAt above paths k).kind = k.1 := by
  rcases k with ⟨kind, name⟩
  cases kind <;> rfl

@[simp] theorem name_entryAt (above : List String) (paths : List (List String)) (k : EntryKey) :
    (entryAt above paths k).name = k.2 := by
  rcases k with ⟨kind, name⟩
  cases kind <;> rfl

/-- A path changes no entry but the one to which it leads. -/
theorem entryAt_concat_of_ne (above : List String) (paths : List (List String))
    {path : List String} {k : EntryKey} (h : keyOf? path ≠ some k) :
    entryAt above (paths ++ [path]) k = entryAt above paths k := by
  rcases k with ⟨kind, name⟩
  cases kind with
  | file => rfl
  | folder =>
      have hstep : stepInto? name path = none := by
        match path with
        | [] => rfl
        | [_] => rfl
        | first :: next :: rest =>
            have hne : first ≠ name := by
              rintro rfl
              exact h rfl
            simp [stepInto?, hne]
      simp [entryAt, pathsThrough_concat, hstep]

theorem map_entryAt_concat_of_not_mem (above : List String) (paths : List (List String))
    {path : List String} {keys : List EntryKey} (h : ∀ k ∈ keys, keyOf? path ≠ some k) :
    keys.map (entryAt above (paths ++ [path])) = keys.map (entryAt above paths) :=
  List.map_congr_left fun k hk => entryAt_concat_of_ne above paths (h k hk)

/-- The first entry that passes the test is the one with the key, and there is no other. -/
theorem changeFirst_map {keys : List EntryKey} (hkeys : keys.Nodup) {k : EntryKey}
    {f g : EntryKey → Entry} {test : Entry → Bool} {change : Entry → Entry} {fresh : Entry}
    (htest : ∀ k', test (f k') = true ↔ k' = k) (hk : change (f k) = g k)
    (hfresh : k ∉ keys → change fresh = g k) (hother : ∀ k', k' ≠ k → f k' = g k') :
    changeFirst test change fresh (keys.map f) =
      (if k ∈ keys then keys else keys ++ [k]).map g := by
  induction keys with
  | nil => simp [changeFirst, hfresh]
  | cons first rest ih =>
      obtain ⟨hfirst, hrest⟩ := List.nodup_cons.mp hkeys
      by_cases heq : first = k
      · subst heq
        have hsame : rest.map f = rest.map g := by
          apply List.map_congr_left
          intro k' hk'
          exact hother k' fun h => hfirst (h ▸ hk')
        simp [changeFirst, htest, hk, hsame]
      · have hne : test (f first) ≠ true := fun h => heq ((htest first).mp h)
        have hmem : k ∈ first :: rest ↔ k ∈ rest := by simp [Ne.symm heq]
        rw [List.map_cons, changeFirst, if_neg hne, hother first heq,
          ih hrest fun h => hfresh fun h' => h (hmem.mp h')]
        simp only [hmem]
        split <;> rfl

theorem any_file_map_entryAt (above : List String) (paths : List (List String))
    (keys : List EntryKey) (name : String) :
    ((keys.map (entryAt above paths)).any fun e => e.kind == .file && e.name == name) = true ↔
      (EntryKind.file, name) ∈ keys := by
  simp only [List.any_map, List.any_eq_true, Function.comp_apply, Bool.and_eq_true, beq_iff_eq,
    kind_entryAt, name_entryAt]
  constructor
  · rintro ⟨⟨kind, name'⟩, hk, rfl, rfl⟩
    exact hk
  · intro hk
    exact ⟨_, hk, rfl, rfl⟩

/-- A level holds one entry for every key, and each is known from the paths. -/
theorem grow_eq_map_keysOf (above : List String) (paths : List (List String)) :
    grow above paths = (keysOf paths).map (entryAt above paths) := by
  induction paths using List.reverseRecOn with
  | nil => rfl
  | append_singleton paths path ih =>
      rw [grow_concat, keysOf_concat, ih, addKey]
      match path with
      | [] =>
          simp only [insert, keyOf?]
          exact (map_entryAt_concat_of_not_mem above paths (by simp [keyOf?])).symm
      | [name] =>
          have hsame : entryAt above (paths ++ [[name]]) = entryAt above paths := by
            funext k
            rcases k with ⟨kind, name'⟩
            cases kind <;> simp [entryAt, pathsThrough_concat, stepInto?]
          simp only [insert, keyOf?, any_file_map_entryAt, hsame]
          by_cases hmem : (EntryKind.file, name) ∈ keysOf paths
          · simp [hmem]
          · simp [hmem, entryAt]
      | name :: next :: rest =>
          have hpath : above ++ name :: next :: rest = above ++ [name] ++ next :: rest := by simp
          have hgrown : grow (above ++ [name])
                (pathsThrough name (paths ++ [name :: next :: rest])) =
              insert (NodeId.ofSegments (above ++ name :: next :: rest)) (above ++ [name])
                (next :: rest) (grow (above ++ [name]) (pathsThrough name paths)) := by
            rw [pathsThrough_concat, hpath]
            simp [stepInto?, grow_concat]
          simp only [insert, keyOf?]
          rw [changeFirst_map (k := (.folder, name))
            (g := entryAt above (paths ++ [name :: next :: rest])) (keysOf_nodup paths)]
          · intro k
            simp [isFolder, Prod.ext_iff]
          · simp only [entryAt, hgrown]
            rfl
          · intro hmem
            rw [pathsThrough_eq_nil hmem] at hgrown
            simp only [entryAt, hgrown]
            rfl
          · intro k hk
            exact (entryAt_concat_of_ne above paths (by simpa [keyOf?] using Ne.symm hk)).symm

/-! ## Folders by depth -/

/-- The path of a folder that lies under `depth` others on the way to the identifier. -/
def folderPathAt (identifier : NodeId) (depth : ℕ) : String :=
  NodeId.ofSegments ((NodeId.segments identifier).take (depth + 1))

/-- Adds a file like `insert`, but counts the folders above the level and does not name them. -/
def insertAt (identifier : NodeId) : ℕ → List String → List Entry → List Entry
  | _, [], level => level
  | _, [name], level =>
    if level.any fun e => e.kind == .file && e.name == name then level
    else level ++ [file name identifier]
  | depth, name :: next :: rest, level =>
    changeFirst
      (fun e => e.isFolder && e.name == name)
      (fun e => e.withChildren (insertAt identifier (depth + 1) (next :: rest) e.children))
      (folder name (folderPathAt identifier depth))
      level

theorem folderPathAt_length {identifier : NodeId} {above rest : List String} {name : String}
    (h : NodeId.segments identifier = above ++ name :: rest) :
    folderPathAt identifier above.length = NodeId.ofSegments (above ++ [name]) := by
  have htake : (above ++ name :: rest).take (above.length + 1) = above ++ [name] := by
    rw [List.take_length_add_append, List.take_succ_cons, List.take_zero]
  rw [folderPathAt, h, htake]

/-- The names of the folders above a level say no more than how many they are. -/
theorem insert_eq_insertAt {identifier : NodeId} {above names : List String} (level : List Entry)
    (h : NodeId.segments identifier = above ++ names) :
    insert identifier above names level = insertAt identifier above.length names level := by
  induction names generalizing above level with
  | nil => rfl
  | cons name names ih =>
      cases names with
      | nil => rfl
      | cons next rest =>
          have hbelow : ∀ children, insert identifier (above ++ [name]) (next :: rest) children =
              insertAt identifier (above.length + 1) (next :: rest) children := by
            intro children
            rw [ih children (by rw [h, List.append_assoc, List.singleton_append]),
              List.length_append, List.length_singleton]
          simp only [insert, insertAt, hbelow, folderPathAt_length h]

theorem insertIdentifier_eq_insertAt (roots : List Entry) (identifier : NodeId) :
    insertIdentifier roots identifier =
      if NodeId.isDependency identifier then roots
      else insertAt identifier 0 (NodeId.segments identifier) roots := by
  rw [insertIdentifier, insert_eq_insertAt roots (List.nil_append _).symm, List.length_nil]

end Entry

end CodeAtlas.Explorer
