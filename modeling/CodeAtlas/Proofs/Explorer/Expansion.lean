import CodeAtlas.Controller
import CodeAtlas.Proofs.Explorer.Sorting
import CodeAtlas.Proofs.Explorer.Trails

/-! # Opening one folder

Which rows the explorer lists depends on the paths of the open folders. In a tree made from
identifiers a path belongs to one folder, so to open one more folder changes the listing in one
place: behind the row of the folder, and only if that row is listed.
-/

namespace CodeAtlas.Explorer

/-! ## Rows and trails -/

namespace Entry

variable {expanded : List String} {above : List String} {depth : ℕ} {p : String} {e : Entry}

theorem rows_eq (expanded : List String) (depth : ℕ) (e : Entry) :
    e.rows expanded depth =
      e.row expanded depth ::
        if e.isOpen expanded then rowsAll expanded (depth + 1) e.children else [] := by
  rcases e with ⟨name, path, kind, _ | children⟩
  · simp [rows, children, children?, rowsAll]
  · rfl

theorem rowsAll_eq_flatMap (expanded : List String) (depth : ℕ) (entries : List Entry) :
    rowsAll expanded depth entries = entries.flatMap (rows expanded depth) := by
  induction entries with
  | nil => rfl
  | cons e es ih => rw [rowsAll, ih, List.flatMap_cons]

/-- Every row is the row of an entry, and rows below an entry are deeper. -/
theorem exists_trail_of_mem_rows (e : Entry) : ∀ (above : List String) {depth : ℕ} {r : Row},
    r ∈ e.rows expanded depth →
      ∃ t ∈ e.trails above, r.path = t.entry.path ∧ r.kind = t.entry.kind ∧ depth ≤ r.depth := by
  induction e using below_induction with
  | entry e ih =>
      intro above depth r hr
      rw [rows_eq, List.mem_cons] at hr
      rw [trails_eq]
      rcases hr with rfl | hr
      · exact ⟨_, List.mem_cons_self, rfl, rfl, Nat.le_refl _⟩
      · split at hr
        · rw [rowsAll_eq_flatMap, List.mem_flatMap] at hr
          obtain ⟨child, hchild, hr⟩ := hr
          obtain ⟨t, ht, hpath, hkind, hdepth⟩ := ih child hchild (above ++ [e.name]) hr
          exact ⟨t, List.mem_cons_of_mem _ (mem_trailsAll_of_mem hchild ht), hpath, hkind,
            by omega⟩
        · cases hr

theorem exists_trail_of_mem_rowsAll (above : List String) {entries : List Entry} {r : Row}
    (hr : r ∈ rowsAll expanded depth entries) :
    ∃ t ∈ trailsAll above entries,
      r.path = t.entry.path ∧ r.kind = t.entry.kind ∧ depth ≤ r.depth := by
  rw [rowsAll_eq_flatMap, List.mem_flatMap] at hr
  obtain ⟨e, he, hr⟩ := hr
  obtain ⟨t, ht, hrow⟩ := exists_trail_of_mem_rows e above hr
  exact ⟨t, mem_trailsAll_of_mem he ht, hrow⟩

/-- The rows depend on which paths are those of open folders, not on how these are listed. -/
theorem rows_congr {expanded' : List String} (h : ∀ q, q ∈ expanded ↔ q ∈ expanded') (e : Entry) :
    ∀ depth, e.rows expanded depth = e.rows expanded' depth := by
  have hopen : ∀ e : Entry, e.isOpen expanded = e.isOpen expanded' := by
    intro e
    rw [Bool.eq_iff_iff]
    simp [isOpen, h]
  induction e using below_induction with
  | entry e ih =>
      intro depth
      have hbelow : rowsAll expanded (depth + 1) e.children =
          rowsAll expanded' (depth + 1) e.children := by
        rw [rowsAll_eq_flatMap, rowsAll_eq_flatMap]
        exact List.flatMap_congr fun child hchild => ih child hchild (depth + 1)
      rw [rows_eq, rows_eq, row, row, hopen, hbelow]

/-! ## Trees in which a path belongs to one folder -/

def IsFolderAt (p : String) (e : Entry) : Prop :=
  e.kind = .folder ∧ e.path = p

/-- What the listing needs to know of the entries of a tree. -/
structure Tidy (trails : List Trail) : Prop where
  path : ∀ t ∈ trails, t.entry.path = NodeId.ofSegments t.names
  branch : ∀ t ∈ trails, t.entry.kind = .folder → t.entry.children ≠ []
  distinct : ((trails.filter (·.entry.isFolder)).map (·.entry.path)).Nodup

namespace Tidy

variable {trails others : List Trail}

theorem sublist (h : Tidy trails) (hsub : others.Sublist trails) : Tidy others where
  path t ht := h.path t (hsub.subset ht)
  branch t ht := h.branch t (hsub.subset ht)
  distinct := h.distinct.sublist ((hsub.filter _).map _)

/-- If a folder is in one part of the tree, then no folder with its path is in the other part. -/
theorem not_isFolderAt_of_append (h : Tidy (trails ++ others)) {t u : Trail} (ht : t ∈ trails)
    (htp : IsFolderAt p t.entry) (hu : u ∈ others) : ¬ IsFolderAt p u.entry := by
  intro hup
  have hdistinct := h.distinct
  rw [List.filter_append, List.map_append] at hdistinct
  have hmem : ∀ {part : List Trail} {v : Trail}, v ∈ part → IsFolderAt p v.entry →
      p ∈ (part.filter (·.entry.isFolder)).map (·.entry.path) := by
    intro part v hv hvp
    exact List.mem_map.mpr ⟨v, List.mem_filter.mpr ⟨hv, beq_iff_eq.mpr hvp.1⟩, hvp.2⟩
  exact (List.nodup_append.mp hdistinct).2.2 p (hmem ht htp) p (hmem hu hup) rfl

end Tidy

theorem tidy_ofIdentifiers (identifiers : List NodeId) :
    Tidy (trailsAll [] (ofIdentifiers identifiers)) where
  path _ ht := path_eq_ofSegments ht
  branch t ht hkind := by
    obtain ⟨above, paths, hchildren, hne⟩ := children?_of_folder ht hkind
    rw [children, hchildren]
    exact hne
  distinct := nodup_folderPaths identifiers

/-! ## Opening a folder -/

def IsRowAt (p : String) (r : Row) : Prop :=
  r.kind = .folder ∧ r.path = p

/-- Nothing changes, and the folder is not listed. -/
def Unchanged (p : String) (rows opened : List Row) : Prop :=
  opened = rows ∧ ∀ r ∈ rows, ¬ IsRowAt p r

/--
The row of the folder is listed once and closed. Opened, it is marked as open and followed by a
block of rows that lie below it. All other rows stay.
-/
def OpensAt (p : String) (rows opened : List Row) : Prop :=
  ∃ before row block after,
    rows = before ++ row :: after ∧
      opened = before ++ { row with expanded := true } :: (block ++ after) ∧
      (IsRowAt p row ∧ row.expanded = false ∧ ∀ r ∈ before ++ after, ¬ IsRowAt p r) ∧
      block ≠ [] ∧ ∀ r ∈ block, row.depth < r.depth ∧ (p ++ "/").toList.IsPrefix r.path.toList

theorem Unchanged.append {rows opened rows' opened' : List Row} (h : Unchanged p rows opened)
    (h' : Unchanged p rows' opened') : Unchanged p (rows ++ rows') (opened ++ opened') := by
  refine ⟨by rw [h.1, h'.1], ?_⟩
  intro r hr
  rcases List.mem_append.mp hr with hr | hr
  · exact h.2 r hr
  · exact h'.2 r hr

theorem OpensAt.append_left {front front' rows opened : List Row}
    (hfront : Unchanged p front front') (h : OpensAt p rows opened) :
    OpensAt p (front ++ rows) (front' ++ opened) := by
  obtain ⟨before, row, block, after, rfl, rfl, ⟨hrow, hclosed, hother⟩, hblock⟩ := h
  refine ⟨front ++ before, row, block, after, by simp, by simp [hfront.1], ⟨hrow, hclosed, ?_⟩,
    hblock⟩
  intro r hr
  rw [List.append_assoc] at hr
  rcases List.mem_append.mp hr with hr | hr
  · exact hfront.2 r hr
  · exact hother r hr

theorem OpensAt.append_right {rows opened back back' : List Row} (h : OpensAt p rows opened)
    (hback : Unchanged p back back') : OpensAt p (rows ++ back) (opened ++ back') := by
  obtain ⟨before, row, block, after, rfl, rfl, ⟨hrow, hclosed, hother⟩, hblock⟩ := h
  refine ⟨before, row, block, after ++ back, by simp, by simp [hback.1], ⟨hrow, hclosed, ?_⟩,
    hblock⟩
  intro r hr
  rw [← List.append_assoc] at hr
  rcases List.mem_append.mp hr with hr | hr
  · exact hother r hr
  · exact hback.2 r hr

/-! ## Opening a folder that is not in the tree -/

theorem isOpen_cons_of_not (expanded : List String) (h : ¬ IsFolderAt p e) :
    e.isOpen (p :: expanded) = e.isOpen expanded := by
  rw [Bool.eq_iff_iff]
  simp only [isOpen, isFolder, Bool.and_eq_true, beq_iff_eq, List.contains_iff_mem, List.mem_cons]
  constructor
  · rintro ⟨hkind, hpath | hpath⟩
    · exact absurd ⟨hkind, hpath⟩ h
    · exact ⟨hkind, hpath⟩
  · rintro ⟨hkind, hpath⟩
    exact ⟨hkind, Or.inr hpath⟩

theorem unchanged_row (expanded : List String) (depth : ℕ) (h : ¬ IsFolderAt p e) :
    Unchanged p [e.row expanded depth] [e.row (p :: expanded) depth] := by
  refine ⟨by rw [row, row, isOpen_cons_of_not expanded h], ?_⟩
  intro r hr
  rw [List.mem_singleton.mp hr]
  exact h

theorem unchanged_rowsAll_of_forall {entries : List Entry}
    (h : ∀ e ∈ entries, Unchanged p (e.rows expanded depth) (e.rows (p :: expanded) depth)) :
    Unchanged p (rowsAll expanded depth entries) (rowsAll (p :: expanded) depth entries) := by
  induction entries with
  | nil => exact ⟨rfl, fun _ hr => by cases hr⟩
  | cons e es ih =>
      rw [rowsAll, rowsAll]
      exact (h e List.mem_cons_self).append
        (ih fun other hother => h other (List.mem_cons_of_mem _ hother))

theorem unchanged_rows (e : Entry) : ∀ {above : List String} {depth : ℕ},
    (∀ t ∈ e.trails above, ¬ IsFolderAt p t.entry) →
      Unchanged p (e.rows expanded depth) (e.rows (p :: expanded) depth) := by
  induction e using below_induction with
  | entry e ih =>
      intro above depth hnot
      rw [trails_eq] at hnot
      have hhere : ¬ IsFolderAt p e := hnot _ List.mem_cons_self
      have hbelow : Unchanged p (rowsAll expanded (depth + 1) e.children)
          (rowsAll (p :: expanded) (depth + 1) e.children) := by
        apply unchanged_rowsAll_of_forall
        intro child hchild
        apply ih child hchild
        intro t ht
        exact hnot t (List.mem_cons_of_mem _ (mem_trailsAll_of_mem hchild ht))
      rw [rows_eq, rows_eq, isOpen_cons_of_not expanded hhere]
      have hrow := unchanged_row expanded depth hhere
      cases e.isOpen expanded with
      | false => exact hrow
      | true => exact hrow.append hbelow

theorem unchanged_rowsAll {entries : List Entry}
    (hnot : ∀ t ∈ trailsAll above entries, ¬ IsFolderAt p t.entry) :
    Unchanged p (rowsAll expanded depth entries) (rowsAll (p :: expanded) depth entries) := by
  apply unchanged_rowsAll_of_forall
  intro e he
  apply unchanged_rows e
  intro t ht
  exact hnot t (mem_trailsAll_of_mem he ht)

/-! ## Opening a folder of the tree -/

/-- A closed folder gets its children as rows, in their own folders as open as before. -/
theorem opensAt_rows_of_folder (hclosed : p ∉ expanded) (htidy : Tidy (e.trails above))
    (hp : IsFolderAt p e) :
    OpensAt p (e.rows expanded depth) (e.rows (p :: expanded) depth) := by
  rw [trails_eq, ← List.singleton_append] at htidy
  have hself : ∀ t : Trail, t ∈ [t] := fun t => List.mem_singleton.mpr rfl
  have hhere : e.isOpen expanded = false := by simp [isOpen, hp.2, hclosed]
  have hopened : e.isOpen (p :: expanded) = true := by simp [isOpen, isFolder, hp.1, hp.2]
  have hbelow : Unchanged p (rowsAll expanded (depth + 1) e.children)
      (rowsAll (p :: expanded) (depth + 1) e.children) :=
    unchanged_rowsAll fun t ht => htidy.not_isFolderAt_of_append (hself _) hp ht
  have hpath : e.path = NodeId.ofSegments (above ++ [e.name]) := htidy.path _ List.mem_cons_self
  refine ⟨[], e.row expanded depth, rowsAll expanded (depth + 1) e.children, [], ?_, ?_,
    ⟨hp, hhere, fun _ hr => by cases hr⟩, ?_, ?_⟩
  · rw [rows_eq, hhere]
    rfl
  · rw [rows_eq, hopened, hbelow.1, List.append_nil, row, hopened]
    rfl
  · obtain ⟨child, rest, hchildren⟩ := List.exists_cons_of_ne_nil
      (htidy.branch _ List.mem_cons_self hp.1)
    rw [hchildren, rowsAll, rows_eq]
    exact List.cons_ne_nil _ _
  · intro r hr
    obtain ⟨t, ht, hrpath, -, hdepth⟩ := exists_trail_of_mem_rowsAll (above ++ [e.name]) hr
    obtain ⟨rest, hrest, hnames⟩ := exists_names_of_mem_trailsAll ht
    refine ⟨hdepth, (NodeId.ofSegments rest).toList, ?_⟩
    rw [hrpath, htidy.path t (List.mem_append_right _ ht), hnames,
      NodeId.toList_ofSegments_append (by simp) hrest, ← hpath, hp.2, String.toList_append,
      List.append_assoc]
    rfl

theorem rowsAll_opened {entries : List Entry}
    (hentries : ∀ e ∈ entries, Tidy (e.trails above) →
      Unchanged p (e.rows expanded depth) (e.rows (p :: expanded) depth) ∨
        OpensAt p (e.rows expanded depth) (e.rows (p :: expanded) depth))
    (htidy : Tidy (trailsAll above entries)) :
    Unchanged p (rowsAll expanded depth entries) (rowsAll (p :: expanded) depth entries) ∨
      OpensAt p (rowsAll expanded depth entries) (rowsAll (p :: expanded) depth entries) := by
  induction entries with
  | nil => exact Or.inl ⟨rfl, fun _ hr => by cases hr⟩
  | cons e es ih =>
      rw [trailsAll] at htidy
      have hhead := hentries e List.mem_cons_self (htidy.sublist (List.sublist_append_left _ _))
      have htail := ih (fun other hother => hentries other (List.mem_cons_of_mem _ hother))
        (htidy.sublist (List.sublist_append_right _ _))
      rw [rowsAll, rowsAll]
      -- At most one tree of the list holds the folder, so the rows of the others stay.
      by_cases hin : ∃ t ∈ e.trails above, IsFolderAt p t.entry
      · obtain ⟨t, ht, hp⟩ := hin
        have hrest : Unchanged p (rowsAll expanded depth es) (rowsAll (p :: expanded) depth es) :=
          unchanged_rowsAll fun u hu => htidy.not_isFolderAt_of_append ht hp hu
        exact hhead.imp (fun h => h.append hrest) (fun h => h.append_right hrest)
      · have hfirst : Unchanged p (e.rows expanded depth) (e.rows (p :: expanded) depth) :=
          unchanged_rows e fun t ht hp => hin ⟨t, ht, hp⟩
        exact htail.imp (fun h => hfirst.append h) (fun h => h.append_left hfirst)

theorem rows_opened (hclosed : p ∉ expanded) (e : Entry) : ∀ {above : List String} {depth : ℕ},
    Tidy (e.trails above) →
      Unchanged p (e.rows expanded depth) (e.rows (p :: expanded) depth) ∨
        OpensAt p (e.rows expanded depth) (e.rows (p :: expanded) depth) := by
  induction e using below_induction with
  | entry e ih =>
      intro above depth htidy
      by_cases hp : IsFolderAt p e
      · exact Or.inr (opensAt_rows_of_folder hclosed htidy hp)
      · have hrow := unchanged_row expanded depth hp
        rw [trails_eq] at htidy
        have hbelow : Unchanged p (rowsAll expanded (depth + 1) e.children)
              (rowsAll (p :: expanded) (depth + 1) e.children) ∨
            OpensAt p (rowsAll expanded (depth + 1) e.children)
              (rowsAll (p :: expanded) (depth + 1) e.children) :=
          rowsAll_opened (fun child hchild => ih child hchild)
            (htidy.sublist (List.sublist_cons_self _ _))
        rw [rows_eq, rows_eq, isOpen_cons_of_not expanded hp]
        cases e.isOpen expanded with
        | false => exact Or.inl hrow
        | true => exact hbelow.imp (fun h => hrow.append h) (fun h => h.append_left hrow)

/-! ## The explorer -/

theorem visibleRows_opened (identifiers : List NodeId) (hclosed : p ∉ expanded) :
    Unchanged p (visibleRows (ofIdentifiers identifiers) expanded)
        (visibleRows (ofIdentifiers identifiers) (p :: expanded)) ∨
      OpensAt p (visibleRows (ofIdentifiers identifiers) expanded)
        (visibleRows (ofIdentifiers identifiers) (p :: expanded)) :=
  rowsAll_opened (fun e _ htidy => rows_opened hclosed e htidy) (tidy_ofIdentifiers identifiers)

theorem visibleRows_congr {expanded' : List String} (tree : List Entry)
    (h : ∀ q, q ∈ expanded ↔ q ∈ expanded') :
    visibleRows tree expanded = visibleRows tree expanded' := by
  rw [visibleRows, visibleRows, rowsAll_eq_flatMap, rowsAll_eq_flatMap]
  exact List.flatMap_congr fun e _ => rows_congr h e 0

theorem mem_expanded_toggle (i : Interaction) (p q : String) :
    q ∈ (i.toggle p).1.expanded ↔ if q = p then q ∉ i.expanded else q ∈ i.expanded := by
  unfold Interaction.toggle
  by_cases hp : p ∈ i.expanded
  · by_cases hq : q = p
    · simp [hp, hq]
    · simp [hp, hq]
  · by_cases hq : q = p
    · simp [hp, hq]
    · simp [hp, hq]

theorem treeRows_activate_folder_twice (c : Controller) (p : String) :
    ((c.activate (.folder p)).activate (.folder p)).treeRows = c.treeRows := by
  apply visibleRows_congr
  intro q
  refine (mem_expanded_toggle (c.interaction.toggle p).1 p q).trans ?_
  rw [mem_expanded_toggle]
  by_cases hq : q = p
  · simp [hq]
  · simp [hq]

/--
To open one more folder changes nothing if its row is not listed. If it is, then that row is marked
as open and a block of deeper rows from below the folder goes in directly behind it. A click on a
folder opens it if it was closed, closes it if it was open, and changes nothing about other folders
or the tree. So a second click on the folder takes back what the first one did.
-/
theorem open_folder_changes_one_place (identifiers : List NodeId) (expanded opened : List String)
    (p : String) (hclosed : p ∉ expanded) (hopened : ∀ q, q ∈ opened ↔ q = p ∨ q ∈ expanded) :
    let rows := visibleRows (ofIdentifiers identifiers) expanded
    let rows' := visibleRows (ofIdentifiers identifiers) opened
    ((¬ ∃ row ∈ rows, IsRowAt p row) → rows' = rows) ∧
      ((∃ row ∈ rows, IsRowAt p row) → OpensAt p rows rows') ∧
      ∀ c : Controller,
        (c.activate (.folder p)).view = c.view ∧
        (∀ q, q ∈ (c.activate (.folder p)).interaction.expanded ↔
          if q = p then q ∉ c.interaction.expanded else q ∈ c.interaction.expanded) ∧
        ((c.activate (.folder p)).activate (.folder p)).treeRows = c.treeRows := by
  intro rows rows'
  have hrows : rows' = visibleRows (ofIdentifiers identifiers) (p :: expanded) := by
    apply visibleRows_congr
    intro q
    rw [hopened, List.mem_cons]
  rw [hrows]
  refine ⟨?_, ?_, ?_⟩
  · intro hnot
    cases visibleRows_opened identifiers hclosed with
    | inl h => exact h.1
    | inr h =>
        obtain ⟨before, row, block, after, hlist, -, hrow, -⟩ := h
        have hlisted : row ∈ before ++ row :: after := by simp
        rw [← hlist] at hlisted
        exact absurd ⟨row, hlisted, hrow.1⟩ hnot
  · rintro ⟨row, hrow, hp⟩
    cases visibleRows_opened identifiers hclosed with
    | inl h => exact absurd hp (h.2 row hrow)
    | inr h => exact h
  · intro c
    exact ⟨rfl, mem_expanded_toggle c.interaction p, treeRows_activate_folder_twice c p⟩

/-- A folder and a file with one path. -/
def shelfLevel : List Entry :=
  [(folder "lib" "src/lib").withChildren [file "b.py" "src/lib/b.py"], file "lib" "src/lib"]

def shelfTree : List Entry :=
  [(folder "src" "src").withChildren shelfLevel, file "src" "src"]

theorem ofIdentifiers_shelf : ofIdentifiers ["src/lib/b.py", "src/lib", "src"] = shelfTree := by
  have hgrown : ["src/lib/b.py", "src/lib", "src"].foldl insertIdentifier [] = shelfTree := rfl
  have hlevel : sortAll shelfLevel = shelfLevel := by
    apply sortAll_of_sorted
    · decide
    · simp [shelfLevel, sortBelow_withChildren, sortAll, sortBelowAll, sortBelow, file]
  rw [ofIdentifiers, hgrown]
  apply sortAll_of_sorted
  · decide
  · simp [shelfTree, sortBelow_withChildren, hlevel, sortBelow, file]

theorem shelf_opened :
    "src/lib" ∉ ["src"] ∧ (∀ q, q ∈ ["src/lib", "src"] ↔ q = "src/lib" ∨ q ∈ ["src"]) ∧
      OpensAt "src/lib"
        (visibleRows (ofIdentifiers ["src/lib/b.py", "src/lib", "src"]) ["src"])
        (visibleRows (ofIdentifiers ["src/lib/b.py", "src/lib", "src"]) ["src/lib", "src"]) := by
  have hclosed : "src/lib" ∉ ["src"] := by decide
  have hopened : ∀ q, q ∈ ["src/lib", "src"] ↔ q = "src/lib" ∨ q ∈ ["src"] := by simp
  have hlisted : (visibleRows shelfTree ["src"])[1]? =
      some ⟨1, "lib", "src/lib", .folder, false⟩ := by
    decide
  rw [← ofIdentifiers_shelf] at hlisted
  exact ⟨hclosed, hopened, (open_folder_changes_one_place _ _ _ _ hclosed hopened).2.1
    ⟨_, List.mem_of_getElem? hlisted, rfl, rfl⟩⟩

end Entry

end CodeAtlas.Explorer
