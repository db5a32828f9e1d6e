import CodeAtlas.Proofs.Explorer.Expansion

/-! # The listing with every folder open

The folders to open are collected with a stack, last entry first, and rows are listed from the
first entry on. Both walks meet every folder of a tree. With all of them open, the rows of a tree
made from identifiers are its entries from the top down, each once and at its depth.
-/

namespace CodeAtlas.Explorer

/-- The row of an entry at the end of its trail, with its folder open. -/
def Trail.openRow (t : Trail) : Row :=
  ⟨t.names.length - 1, t.entry.name, t.entry.path, t.entry.kind, t.entry.isFolder⟩

namespace Entry

variable {expanded above : List String}

/-! ## Folders from a stack -/

theorem folderPaths_eq (e : Entry) :
    e.folderPaths = if e.isFolder then e.path :: folderPathsAll e.children else [] := by
  rcases e with ⟨name, path, _ | _, _ | children⟩ <;> rfl

theorem folderPathsAll_eq_flatMap (entries : List Entry) :
    folderPathsAll entries = entries.flatMap folderPaths := by
  induction entries with
  | nil => rfl
  | cons e es ih => rw [folderPathsAll, ih, List.flatMap_cons]

theorem folderPathsAll_append_perm (children stack : List Entry) :
    (folderPathsAll (children.reverse ++ stack)).Perm
      (folderPathsAll children ++ folderPathsAll stack) := by
  simp only [folderPathsAll_eq_flatMap, List.flatMap_append]
  exact ((List.reverse_perm children).flatMap_right folderPaths).append_right _

/-- The stack yields the folders that recursion yields, in another order. -/
theorem collectFolders_perm (stack : List Entry) :
    (collectFolders stack).Perm (folderPathsAll stack) := by
  fun_induction collectFolders stack with
  | case1 => exact List.Perm.refl _
  | case2 e stack hfolder ih =>
      rw [folderPathsAll, folderPaths_eq, if_pos hfolder]
      exact (ih.trans (folderPathsAll_append_perm e.children stack)).cons e.path
  | case3 e stack hfolder ih =>
      rw [folderPathsAll, folderPaths_eq, if_neg hfolder]
      exact ih

theorem allFolders_perm (tree : List Entry) : (allFolders tree).Perm (folderPathsAll tree) := by
  have hstack := folderPathsAll_append_perm tree []
  rw [List.append_nil, folderPathsAll, List.append_nil] at hstack
  exact (collectFolders_perm tree.reverse).trans hstack

/-! ## Entries whose rows are all listed -/

/-- Nothing below the entry is hidden: it is an open folder, or a file that holds nothing. -/
def Unfolded (expanded : List String) (e : Entry) : Prop :=
  e.isOpen expanded = true ∨ e.kind = .file ∧ e.children = []

theorem Unfolded.isOpen_eq {e : Entry} (h : Unfolded expanded e) :
    e.isOpen expanded = e.isFolder := by
  rcases h with hopen | ⟨hkind, -⟩
  · rw [hopen, ((Bool.and_eq_true _ _).mp hopen).1]
  · simp [isOpen, isFolder, hkind]

/-- If nothing is hidden, rows and trails are listed alike. -/
theorem rows_eq_map_trails (e : Entry) : ∀ above : List String,
    (∀ t ∈ e.trails above, Unfolded expanded t.entry) →
      e.rows expanded above.length = (e.trails above).map Trail.openRow := by
  induction e using below_induction with
  | entry e ih =>
      intro above hall
      rw [trails_eq] at hall ⊢
      have hhere : Unfolded expanded e := hall _ List.mem_cons_self
      have hbelow : rowsAll expanded (above.length + 1) e.children =
          (trailsAll (above ++ [e.name]) e.children).map Trail.openRow := by
        rw [rowsAll_eq_flatMap, trailsAll_eq_flatMap, List.map_flatMap]
        apply List.flatMap_congr
        intro child hchild
        have hrows := ih child hchild (above ++ [e.name]) fun t ht =>
          hall t (List.mem_cons_of_mem _ (mem_trailsAll_of_mem hchild ht))
        rwa [List.length_append] at hrows
      have hrow : e.row expanded above.length = Trail.openRow ⟨above ++ [e.name], e⟩ := by
        rw [row, hhere.isOpen_eq, Trail.openRow, List.length_append, List.length_singleton,
          Nat.add_sub_cancel]
      rw [rows_eq, List.map_cons, hrow, ← hbelow]
      rcases hhere with hopen | ⟨-, hnil⟩
      · rw [if_pos hopen]
      · rw [hnil, rowsAll, ite_self]

theorem rowsAll_eq_map_trailsAll {entries : List Entry}
    (hall : ∀ t ∈ trailsAll above entries, Unfolded expanded t.entry) :
    rowsAll expanded above.length entries = (trailsAll above entries).map Trail.openRow := by
  rw [rowsAll_eq_flatMap, trailsAll_eq_flatMap, List.map_flatMap]
  apply List.flatMap_congr
  intro e he
  exact rows_eq_map_trails e above fun t ht => hall t (mem_trailsAll_of_mem he ht)

/-- Where files hold nothing, every folder is reached through folders. -/
theorem mem_folderPaths_of_mem_trails (e : Entry) : ∀ {above : List String} {t : Trail},
    (∀ u ∈ e.trails above, u.entry.kind = .file → u.entry.children = []) →
      t ∈ e.trails above → t.entry.isFolder = true → t.entry.path ∈ e.folderPaths := by
  induction e using below_induction with
  | entry e ih =>
      intro above t hleaf ht hfolder
      rw [trails_eq] at hleaf ht
      rw [folderPaths_eq]
      rcases List.mem_cons.mp ht with rfl | ht
      · rw [if_pos hfolder]
        exact List.mem_cons_self
      · rw [trailsAll_eq_flatMap, List.mem_flatMap] at ht
        obtain ⟨child, hchild, ht⟩ := ht
        have hhere : e.isFolder = true := by
          cases hkind : e.kind with
          | folder => exact beq_iff_eq.mpr hkind
          | file =>
              rw [hleaf _ List.mem_cons_self hkind] at hchild
              cases hchild
        have hpath := ih child hchild (fun u hu =>
          hleaf u (List.mem_cons_of_mem _ (mem_trailsAll_of_mem hchild hu))) ht hfolder
        rw [if_pos hhere, folderPathsAll_eq_flatMap]
        exact List.mem_cons_of_mem _ (List.mem_flatMap.mpr ⟨child, hchild, hpath⟩)

theorem unfolded_of_mem_trailsAll {entries : List Entry} {t : Trail}
    (hleaf : ∀ u ∈ trailsAll above entries, u.entry.kind = .file → u.entry.children = [])
    (ht : t ∈ trailsAll above entries) : Unfolded (allFolders entries) t.entry := by
  cases hkind : t.entry.kind with
  | file => exact Or.inr ⟨hkind, hleaf t ht hkind⟩
  | folder =>
      have hfolder : t.entry.isFolder = true := beq_iff_eq.mpr hkind
      rw [trailsAll_eq_flatMap, List.mem_flatMap] at ht
      obtain ⟨e, he, ht⟩ := ht
      have hpath : t.entry.path ∈ allFolders entries := by
        rw [(allFolders_perm entries).mem_iff, folderPathsAll_eq_flatMap]
        exact List.mem_flatMap.mpr ⟨e, he, mem_folderPaths_of_mem_trails e
          (fun u hu => hleaf u (mem_trailsAll_of_mem he hu)) ht hfolder⟩
      exact Or.inl (by rw [isOpen, hfolder, List.contains_iff_mem.mpr hpath]; rfl)

/-! ## How many entries there are -/

mutual

theorem length_trails : ∀ (e : Entry) (above : List String), (e.trails above).length = e.size
  | .mk _ _ _ none, _ => rfl
  | .mk name _ _ (some children), above => by
    rw [trails, size, List.length_cons, length_trailsAll, Nat.add_comm]

theorem length_trailsAll : ∀ (entries : List Entry) (above : List String),
    (trailsAll above entries).length = sizeAll entries
  | [], _ => rfl
  | e :: es, above => by
    rw [trailsAll, sizeAll, List.length_append, length_trails, length_trailsAll]

end

/-! ## Trees of identifiers -/

theorem map_path_fileRows (trails : List Trail) :
    ((trails.map Trail.openRow).filter (·.kind == .file)).map (·.path) =
      (trails.filter (·.entry.kind == .file)).map (·.entry.path) := by
  rw [List.filter_map, List.map_map]
  rfl

/--
With all folders open that a stack collects, the rows of a tree are its entries from the top down,
each once and at its depth. There are as many rows as entries, folders are marked as open, and the
rows of files are those of the identifiers that name no dependency.
-/
theorem visibleRows_allFolders (identifiers : List NodeId) :
    let tree := ofIdentifiers identifiers
    let rows := visibleRows tree (allFolders tree)
    let filePaths := (rows.filter (·.kind == .file)).map (·.path)
    rows = (trailsAll [] tree).map Trail.openRow ∧
      (rows.map fun r => (r.path, r.kind)).Nodup ∧
      (∀ r ∈ rows, r.depth = r.path.toList.count '/') ∧
      rows.length = sizeAll tree ∧
      (∀ r ∈ rows, r.kind = .folder → r.expanded = true) ∧
      filePaths.Nodup ∧
        ∀ path, path ∈ filePaths ↔ path ∈ identifiers ∧ NodeId.isDependency path = false := by
  intro tree rows filePaths
  have hleaf : ∀ t ∈ trailsAll [] tree, t.entry.kind = .file → t.entry.children = [] := by
    intro t ht hkind
    rw [children, children?_of_file ht hkind]
    rfl
  have hrows : rows = (trailsAll [] tree).map Trail.openRow :=
    rowsAll_eq_map_trailsAll fun t ht => unfolded_of_mem_trailsAll hleaf ht
  have hfiles : filePaths = filePathsAll tree := by
    rw [← map_path_files_trailsAll tree [], ← map_path_fileRows, ← hrows]
  have hrow : ∀ r ∈ rows, ∃ t ∈ trailsAll [] tree, t.openRow = r := by
    intro r hr
    rw [hrows] at hr
    exact List.mem_map.mp hr
  refine ⟨hrows, ?_, ?_, ?_, ?_, ?_, ?_⟩
  · rw [hrows, List.map_map]
    exact nodup_path_kind identifiers
  · intro r hr
    obtain ⟨t, ht, rfl⟩ := hrow r hr
    have hdepth : t.entry.path.toList.count '/' + 1 = t.names.length := count_pathMark_path ht
    show t.names.length - 1 = t.entry.path.toList.count '/'
    omega
  · rw [hrows, List.length_map, length_trailsAll]
  · intro r hr hkind
    obtain ⟨t, ht, rfl⟩ := hrow r hr
    exact beq_iff_eq.mpr hkind
  · rw [hfiles]
    exact nodup_filePathsAll_ofIdentifiers identifiers
  · intro path
    rw [hfiles]
    exact mem_filePathsAll_ofIdentifiers

theorem shelf_fully_listed :
    let tree := ofIdentifiers ["src/lib/b.py", "src/lib", "src"]
    let rows := visibleRows tree (allFolders tree)
    rows = [⟨0, "src", "src", .folder, true⟩, ⟨1, "lib", "src/lib", .folder, true⟩,
        ⟨2, "b.py", "src/lib/b.py", .file, false⟩, ⟨1, "lib", "src/lib", .file, false⟩,
        ⟨0, "src", "src", .file, false⟩] ∧
      ∃ row ∈ rows, row.kind = .folder ∧ row.expanded = true ∧
        row.depth = row.path.toList.count '/' := by
  intro tree rows
  obtain ⟨hrows, -, hdepth, -, hopen, -⟩ :=
    visibleRows_allFolders ["src/lib/b.py", "src/lib", "src"]
  have hlisted : rows = [⟨0, "src", "src", .folder, true⟩, ⟨1, "lib", "src/lib", .folder, true⟩,
      ⟨2, "b.py", "src/lib/b.py", .file, false⟩, ⟨1, "lib", "src/lib", .file, false⟩,
      ⟨0, "src", "src", .file, false⟩] := by
    refine hrows.trans ?_
    rw [ofIdentifiers_shelf]
    rfl
  have hmem : (⟨1, "lib", "src/lib", .folder, true⟩ : Row) ∈ rows := by
    rw [hlisted]
    exact List.mem_of_getElem? (i := 1) rfl
  exact ⟨hlisted, _, hmem, rfl, hopen _ hmem rfl, hdepth _ hmem⟩

end Entry

end CodeAtlas.Explorer
