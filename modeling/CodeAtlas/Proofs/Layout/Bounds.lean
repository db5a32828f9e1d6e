import CodeAtlas.Proofs.Layout.HitTest
import CodeAtlas.Proofs.Layout.ListingOrder
import CodeAtlas.Proofs.Layout.Separation

/-! # The extent of a drawing

The bounds of a drawing are put together from the rectangles of files and orphans, before a card is
placed in its file. They are the smallest rectangle around all boxes nevertheless, since every card
lies in its file. They start at the origin, and the orphans stand below the files.
-/

namespace CodeAtlas

namespace Rect

variable {rs rs' : List (Rect ℚ)} {hull : Rect ℚ}

/-- The rectangle covers all of a list, and each of its sides is reached by one of them. -/
structure IsHull (rs : List (Rect ℚ)) (hull : Rect ℚ) : Prop where
  covers : ∀ r ∈ rs, hull.covers r = true
  left : ∃ r ∈ rs, r.low.x = hull.low.x
  top : ∃ r ∈ rs, r.low.y = hull.low.y
  right : ∃ r ∈ rs, r.high.x = hull.high.x
  bottom : ∃ r ∈ rs, r.high.y = hull.high.y

/-- A side that every union takes from one of its parts is taken from one of the list. -/
theorem exists_side_eq {side : Rect ℚ → ℚ}
    (hside : ∀ r s : Rect ℚ, side (r.union s) = side r ∨ side (r.union s) = side s)
    (h : unionAll? rs = some hull) : ∃ r ∈ rs, side r = side hull := by
  have hfold : ∀ (rest : List (Rect ℚ)) (first : Rect ℚ),
      ∃ r ∈ first :: rest, side r = side (rest.foldl union first) := by
    intro rest
    induction rest with
    | nil => exact fun first => ⟨first, List.mem_cons_self, rfl⟩
    | cons next rest ih =>
        intro first
        obtain ⟨r, hr, heq⟩ := ih (first.union next)
        rcases List.mem_cons.mp hr with rfl | hr
        · rcases hside first next with hfirst | hnext
          · exact ⟨first, List.mem_cons_self, hfirst.symm.trans heq⟩
          · exact ⟨next, List.mem_cons_of_mem _ List.mem_cons_self, hnext.symm.trans heq⟩
        · exact ⟨r, List.mem_cons_of_mem _ (List.mem_cons_of_mem _ hr), heq⟩
  cases rs with
  | nil => cases h
  | cons first rest =>
      cases h
      exact hfold rest first

theorem isHull_of_unionAll? (h : unionAll? rs = some hull) : IsHull rs hull where
  covers r hr := by
    obtain ⟨bounds, hbounds, hcovers⟩ := exists_unionAll?_covers hr
    rw [h] at hbounds
    cases hbounds
    exact hcovers
  left := exists_side_eq (fun r s => min_choice r.low.x s.low.x) h
  top := exists_side_eq (fun r s => min_choice r.low.y s.low.y) h
  right := exists_side_eq (fun r s => max_choice r.high.x s.high.x) h
  bottom := exists_side_eq (fun r s => max_choice r.high.y s.high.y) h

namespace IsHull

theorem covered_by (h : IsHull rs hull) {outer : Rect ℚ}
    (houter : ∀ r ∈ rs, outer.covers r = true) : outer.covers hull = true := by
  have hsides : ∀ r ∈ rs, (outer.low.x ≤ r.low.x ∧ outer.low.y ≤ r.low.y) ∧
      r.high.x ≤ outer.high.x ∧ r.high.y ≤ outer.high.y :=
    fun r hr => (covers_iff outer r).mp (houter r hr)
  obtain ⟨left, hleft, hleftEq⟩ := h.left
  obtain ⟨top, htop, htopEq⟩ := h.top
  obtain ⟨right, hright, hrightEq⟩ := h.right
  obtain ⟨bottom, hbottom, hbottomEq⟩ := h.bottom
  rw [covers_iff, ← hleftEq, ← htopEq, ← hrightEq, ← hbottomEq]
  exact ⟨⟨(hsides left hleft).1.1, (hsides top htop).1.2⟩, (hsides right hright).2.1,
    (hsides bottom hbottom).2.2⟩

/-- Rectangles that lie in others do not change the smallest one around these. -/
theorem of_covered (h : IsHull rs hull) (hsub : ∀ r ∈ rs, r ∈ rs')
    (hcovered : ∀ r' ∈ rs', ∃ r ∈ rs, r.covers r' = true) : IsHull rs' hull where
  covers r' hr' := by
    obtain ⟨r, hr, hin⟩ := hcovered r' hr'
    exact covers_trans (h.covers r hr) hin
  left := h.left.imp fun r hr => ⟨hsub r hr.1, hr.2⟩
  top := h.top.imp fun r hr => ⟨hsub r hr.1, hr.2⟩
  right := h.right.imp fun r hr => ⟨hsub r hr.1, hr.2⟩
  bottom := h.bottom.imp fun r hr => ⟨hsub r hr.1, hr.2⟩

theorem low_eq_origin (h : IsHull rs hull) (hnonneg : ∀ r ∈ rs, 0 ≤ r.low.x ∧ 0 ≤ r.low.y)
    (hx : ∃ r ∈ rs, r.low.x = 0) (hy : ∃ r ∈ rs, r.low.y = 0) : hull.low = Point.origin := by
  obtain ⟨left, hleft, hleftEq⟩ := h.left
  obtain ⟨top, htop, htopEq⟩ := h.top
  obtain ⟨r, hr, hrx⟩ := hx
  obtain ⟨s, hs, hsy⟩ := hy
  have hcoversr := ((covers_iff hull r).mp (h.covers r hr)).1
  have hcoverss := ((covers_iff hull s).mp (h.covers s hs)).1
  apply Point.ext
  · show hull.low.x = 0
    linarith [(hnonneg left hleft).1]
  · show hull.low.y = 0
    linarith [(hnonneg top htop).2]

end IsHull

end Rect

namespace Diagram

variable {metrics : Metrics ℚ} {m : Model} {place : Layout.FileGraph ℚ → List (Point ℚ)}
  {index row i f : ℕ} {node other : Node}

/-! ## Rectangles of files and orphans among the boxes -/

/-- The rectangles of all files. -/
def filesOf (metrics : Metrics ℚ) (place : Layout.FileGraph ℚ → List (Point ℚ)) (m : Model) :
    List (Rect ℚ) :=
  (fileRects metrics m (place (fileGraph metrics m))).map (·.2)

/-- The rectangles of all orphans, below files with the given bounds. -/
def orphansOf (metrics : Metrics ℚ) (m : Model) (bounds : Option (Rect ℚ)) : List (Rect ℚ) :=
  (orphanRects metrics m bounds).map (·.2)

theorem mem_filesOf {r : Rect ℚ} : r ∈ filesOf metrics place m ↔
    ∃ index f : ℕ, m.files[index]? = some f ∧
      fileRectAt metrics m (place (fileGraph metrics m)) index f = r := by
  simp only [filesOf, List.mem_iff_getElem?, List.getElem?_map, getElem?_fileRects,
    Option.map_map, Option.map_eq_some_iff, Function.comp_apply]

theorem mem_orphansOf {bounds : Option (Rect ℚ)} {r : Rect ℚ} : r ∈ orphansOf metrics m bounds ↔
    ∃ row i : ℕ, m.orphans[row]? = some i ∧ orphanRectAt metrics bounds row = r := by
  simp only [orphansOf, List.mem_iff_getElem?, List.getElem?_map, getElem?_orphanRects,
    Option.map_map, Option.map_eq_some_iff, Function.comp_apply]

theorem exists_box (metrics : Metrics ℚ) (place : Layout.FileGraph ℚ → List (Point ℚ))
    (hi : m.nodes[i]? = some node) :
    ∃ box, (ofModel metrics place m).boxes[i]? = some box ∧
      box.rect = rectAt metrics place m i node := by
  have hbox := getElem?_boxes metrics place m i
  rw [hi, Option.map_some] at hbox
  exact ⟨_, hbox, rfl⟩

theorem rect_mem_boxes (metrics : Metrics ℚ) (place : Layout.FileGraph ℚ → List (Point ℚ))
    (hi : m.nodes[i]? = some node) :
    rectAt metrics place m i node ∈ (ofModel metrics place m).boxes.map (·.rect) := by
  obtain ⟨box, hbox, hrect⟩ := exists_box metrics place hi
  exact List.mem_map.mpr ⟨box, List.mem_of_getElem? hbox, hrect⟩

theorem exists_node_of_mem_files (h : m.files[index]? = some f) :
    ∃ node, m.nodes[f]? = some node := by
  obtain ⟨node, hnode, -⟩ := Model.isFile_iff.mp (Model.mem_files.mp (List.mem_of_getElem? h))
  exact ⟨node, hnode⟩

theorem exists_node_of_mem_orphans (h : m.orphans[row]? = some i) :
    ∃ node, m.nodes[i]? = some node :=
  ⟨_, List.getElem?_eq_getElem (Model.mem_orphans.mp (List.mem_of_getElem? h)).1⟩

/-- Files and orphans are boxes of the drawing. -/
theorem mem_boxes_of_outer {r : Rect ℚ}
    (hr : r ∈ filesOf metrics place m ++ orphansOf metrics m (fileBounds? metrics place m)) :
    r ∈ (ofModel metrics place m).boxes.map (·.rect) := by
  rcases List.mem_append.mp hr with hr | hr
  · obtain ⟨index, f, hf, rfl⟩ := mem_filesOf.mp hr
    obtain ⟨node, hnode⟩ := exists_node_of_mem_files hf
    have hmem := rect_mem_boxes metrics place hnode
    rwa [rectAt_file hf] at hmem
  · obtain ⟨row, i, hi, rfl⟩ := mem_orphansOf.mp hr
    obtain ⟨node, hnode⟩ := exists_node_of_mem_orphans hi
    have hmem := rect_mem_boxes metrics place hnode
    rwa [rectAt_orphan hi] at hmem

/-- Every node is drawn in the rectangle of a file or in that of an orphan. -/
theorem exists_outer_covers (place : Layout.FileGraph ℚ → List (Point ℚ))
    (hm : metrics.NonNegative) (hids : m.DistinctIds) (hi : m.nodes[i]? = some node) :
    ∃ r ∈ filesOf metrics place m ++ orphansOf metrics m (fileBounds? metrics place m),
      r.covers (rectAt metrics place m i node) = true := by
  cases hfile : m.isFile i with
  | true =>
      obtain ⟨index, hf⟩ := List.mem_iff_getElem?.mp (Model.mem_files.mpr hfile)
      refine ⟨_, List.mem_append_left _ (mem_filesOf.mpr ⟨index, i, hf, rfl⟩), ?_⟩
      rw [rectAt_file hf]
      exact Rect.covers_refl _
  | false =>
      rcases Model.member_or_orphan hi hfile with ⟨f, slot, hslot⟩ | ⟨row, hrow⟩
      · obtain ⟨index, hf⟩ := exists_fileIndex hslot
        refine ⟨_, List.mem_append_left _ (mem_filesOf.mpr ⟨index, f, hf, rfl⟩), ?_⟩
        rw [rectAt_member hids hf hslot]
        exact fileRectAt_covers hm hslot
      · refine ⟨_, List.mem_append_right _ (mem_orphansOf.mpr ⟨row, i, hrow, rfl⟩), ?_⟩
        rw [rectAt_orphan hrow]
        exact Rect.covers_refl _

theorem unionAll?_outer (place : Layout.FileGraph ℚ → List (Point ℚ))
    (hm : metrics.NonNegative) (hids : m.DistinctIds) (hempty : m.isEmpty = false) :
    Rect.unionAll? (filesOf metrics place m ++
        orphansOf metrics m (fileBounds? metrics place m)) =
      some (ofModel metrics place m).bounds := by
  have hfirst : 0 < m.nodes.length := by
    rw [List.length_pos_iff_ne_nil]
    exact List.isEmpty_eq_false_iff.mp hempty
  obtain ⟨r, hr, -⟩ := exists_outer_covers place hm hids (List.getElem?_eq_getElem hfirst)
  obtain ⟨bounds, hbounds, -⟩ := Rect.exists_unionAll?_covers hr
  rw [bounds_ofModel]
  exact hbounds.trans (congrArg some (congrArg (·.getD Rect.empty) hbounds).symm)

theorem isHull_boxes (hm : metrics.NonNegative) (hids : m.DistinctIds)
    (hempty : m.isEmpty = false) :
    Rect.IsHull ((ofModel metrics place m).boxes.map (·.rect))
      (ofModel metrics place m).bounds := by
  refine (Rect.isHull_of_unionAll? (unionAll?_outer place hm hids hempty)).of_covered
    (fun r hr => mem_boxes_of_outer hr) ?_
  intro r hr
  obtain ⟨i, hi⟩ := List.mem_iff_getElem?.mp hr
  rw [List.getElem?_map, getElem?_boxes, Option.map_map] at hi
  obtain ⟨node, hnode, rfl⟩ := Option.map_eq_some_iff.mp hi
  exact exists_outer_covers place hm hids hnode

/-! ## Files and orphans start at the origin -/

theorem filesOf_eq_placedRects (s : Layout.Spacing ℚ) (metrics : Metrics ℚ) (m : Model) :
    filesOf metrics s.place m = s.placedRects (fileGraph metrics m) := by
  apply List.ext_getElem?
  intro k
  rw [filesOf, getElem?_map_fileRects, Layout.Spacing.placedRects, List.getElem?_zipWith]
  cases hbox : (fileGraph metrics m).boxes[k]? with
  | none => rfl
  | some box =>
      have hlt : k < (s.place (fileGraph metrics m)).length := by
        rw [Layout.Spacing.length_place]
        exact (List.getElem?_eq_some_iff.mp hbox).1
      simp [List.getElem?_eq_getElem hlt]

theorem files_start_at_origin (metrics : Metrics ℚ) (s : Layout.Spacing ℚ) (hfiles : m.files ≠ []) :
    (∀ r ∈ filesOf metrics s.place m, 0 ≤ r.low.x ∧ 0 ≤ r.low.y) ∧
      (∃ r ∈ filesOf metrics s.place m, r.low.x = 0) ∧
      ∃ r ∈ filesOf metrics s.place m, r.low.y = 0 := by
  rw [filesOf_eq_placedRects]
  apply Layout.Spacing.placedRects_start_at_origin
  rw [fileGraph_boxes]
  exact mt List.map_eq_nil_iff.mp hfiles

theorem low_le_high_of_mem_filesOf (hm : metrics.NonNegative) {r : Rect ℚ}
    (hr : r ∈ filesOf metrics place m) : r.low.y ≤ r.high.y := by
  obtain ⟨index, f, -, rfl⟩ := mem_filesOf.mp hr
  exact le_add_of_nonneg_right (hm.fileSize (m.childrenOf f).length).2

theorem files_ne_nil_of_mem_filesOf {r : Rect ℚ} (hr : r ∈ filesOf metrics place m) :
    m.files ≠ [] := by
  obtain ⟨index, f, hf, -⟩ := mem_filesOf.mp hr
  exact List.ne_nil_of_mem (List.mem_of_getElem? hf)

theorem fileBounds_start_at_origin (hm : metrics.NonNegative) (s : Layout.Spacing ℚ) {b : Rect ℚ}
    (hb : fileBounds? metrics s.place m = some b) : b.low = Point.origin ∧ 0 ≤ b.high.y := by
  have hhull : Rect.IsHull (filesOf metrics s.place m) b := Rect.isHull_of_unionAll? hb
  obtain ⟨r, hr, -⟩ := hhull.left
  obtain ⟨hnonneg, hx, hy⟩ := files_start_at_origin metrics s (files_ne_nil_of_mem_filesOf hr)
  have hbottom := ((Rect.covers_iff b r).mp (hhull.covers r hr)).2.2
  refine ⟨hhull.low_eq_origin hnonneg hx hy, ?_⟩
  linarith [(hnonneg r hr).2, low_le_high_of_mem_filesOf hm hr]

theorem orphan_low (hm : metrics.NonNegative) (s : Layout.Spacing ℚ) {r : Rect ℚ}
    (hr : r ∈ orphansOf metrics m (fileBounds? metrics s.place m)) :
    r.low.x = 0 ∧ 0 ≤ r.low.y := by
  obtain ⟨row, i, -, rfl⟩ := mem_orphansOf.mp hr
  have hrows : 0 ≤ (row : ℚ) * metrics.rowPitch := mul_nonneg (Nat.cast_nonneg _) hm.rowPitch
  cases hb : fileBounds? metrics s.place m with
  | none =>
      have hy : (orphanRectAt metrics none row).low.y = 0 + row * metrics.rowPitch := rfl
      rw [hy]
      exact ⟨add_zero 0, by linarith⟩
  | some b =>
      obtain ⟨hlow, hhigh⟩ := fileBounds_start_at_origin hm s hb
      have hx : (orphanRectAt metrics (some b) row).low.x = b.low.x + 0 := rfl
      have hy : (orphanRectAt metrics (some b) row).low.y =
          b.high.y + metrics.nodeSeparation + row * metrics.rowPitch := rfl
      rw [hx, hy, hlow]
      exact ⟨add_zero 0, by linarith [hm.nodeSeparation]⟩

theorem outer_low_nonneg (hm : metrics.NonNegative) (s : Layout.Spacing ℚ) {r : Rect ℚ}
    (hr : r ∈ filesOf metrics s.place m ++ orphansOf metrics m (fileBounds? metrics s.place m)) :
    0 ≤ r.low.x ∧ 0 ≤ r.low.y := by
  rcases List.mem_append.mp hr with hr | hr
  · exact (files_start_at_origin metrics s (files_ne_nil_of_mem_filesOf hr)).1 r hr
  · have hlow := orphan_low hm s hr
    exact ⟨hlow.1.ge, hlow.2⟩

/-- Without files the first orphan stands at the origin. -/
theorem exists_orphan_at_origin (metrics : Metrics ℚ)
    (place : Layout.FileGraph ℚ → List (Point ℚ)) (hfiles : m.files = [])
    (horphans : m.orphans ≠ []) :
    ∃ r ∈ orphansOf metrics m (fileBounds? metrics place m), r.low.x = 0 ∧ r.low.y = 0 := by
  have hnone : fileBounds? metrics place m = none := by
    simp [fileBounds?, fileRects, hfiles, Rect.unionAll?]
  obtain ⟨first, rest, hcons⟩ := List.exists_cons_of_ne_nil horphans
  have hrow : m.orphans[0]? = some first := by rw [hcons]; rfl
  refine ⟨_, mem_orphansOf.mpr ⟨0, first, hrow, rfl⟩, ?_⟩
  rw [hnone]
  have hy : (orphanRectAt metrics none 0).low.y = 0 + ((0 : ℕ) : ℚ) * metrics.rowPitch := rfl
  exact ⟨add_zero 0, by rw [hy]; simp⟩

theorem bounds_low_eq_origin (hm : metrics.NonNegative) (hids : m.DistinctIds)
    (hempty : m.isEmpty = false) : (layered metrics m).bounds.low = Point.origin := by
  have hhull := Rect.isHull_of_unionAll?
    (unionAll?_outer (Layout.Spacing.ofMetrics metrics).place hm hids hempty)
  -- The corner is that of the files, and that of the first orphan where there is no file.
  by_cases hfiles : m.files = []
  · have horphans : m.orphans ≠ [] := by
      obtain ⟨r, hr, -⟩ := hhull.left
      rcases List.mem_append.mp hr with hr | hr
      · exact absurd hfiles (files_ne_nil_of_mem_filesOf hr)
      · obtain ⟨row, i, hi, -⟩ := mem_orphansOf.mp hr
        exact List.ne_nil_of_mem (List.mem_of_getElem? hi)
    obtain ⟨r, hr, hx, hy⟩ := exists_orphan_at_origin metrics
      (Layout.Spacing.ofMetrics metrics).place hfiles horphans
    exact hhull.low_eq_origin (fun r hr => outer_low_nonneg hm _ hr)
      ⟨r, List.mem_append_right _ hr, hx⟩ ⟨r, List.mem_append_right _ hr, hy⟩
  · obtain ⟨-, ⟨r, hr, hx⟩, s, hs, hy⟩ :=
      files_start_at_origin metrics (Layout.Spacing.ofMetrics metrics) hfiles
    exact hhull.low_eq_origin (fun r hr => outer_low_nonneg hm _ hr)
      ⟨r, List.mem_append_left _ hr, hx⟩ ⟨s, List.mem_append_left _ hs, hy⟩

/-! ## Orphans below files -/

theorem exists_file_above_orphan (hm : metrics.NonNegative) (hf : f ∈ m.files)
    (hi : i ∈ m.orphans) :
    ∃ file orphan, (ofModel metrics place m).boxes[f]? = some file ∧
      (ofModel metrics place m).boxes[i]? = some orphan ∧
      file.rect.high.y + metrics.nodeSeparation ≤ orphan.rect.low.y := by
  obtain ⟨index, hindex⟩ := List.mem_iff_getElem?.mp hf
  obtain ⟨row, hrow⟩ := List.mem_iff_getElem?.mp hi
  obtain ⟨node, hnode⟩ := exists_node_of_mem_files hindex
  obtain ⟨other, hother⟩ := exists_node_of_mem_orphans hrow
  have hfile : fileRectAt metrics m (place (fileGraph metrics m)) index f ∈
      filesOf metrics place m := mem_filesOf.mpr ⟨index, f, hindex, rfl⟩
  obtain ⟨bounds, hbounds, hcovers⟩ := Rect.exists_unionAll?_covers hfile
  obtain ⟨file, hfileBox, hfileRect⟩ := exists_box metrics place hnode
  obtain ⟨orphan, horphanBox, horphanRect⟩ := exists_box metrics place hother
  refine ⟨file, orphan, hfileBox, horphanBox, ?_⟩
  rw [hfileRect, horphanRect, rectAt_file hindex, rectAt_orphan hrow, fileBounds?, ← filesOf,
    hbounds]
  exact covered_above_orphan hm hcovers row

/--
The bounds of a drawing that is not empty are the smallest rectangle around its boxes, start at the
origin and come out the same in whichever order the rectangles of files and orphans are joined. An
orphan stands below every file, with the space between neighbours.
-/
theorem bounds_of_draw (metrics : Metrics ℚ) (nodes : List Node) (edges : List Edge)
    (hm : metrics.NonNegative) (hnodes : nodes ≠ []) :
    let m := Model.ofNodes nodes edges
    let d := draw metrics nodes edges
    let files := filesOf metrics (Layout.Spacing.ofMetrics metrics).place m
    (Rect.IsHull (d.boxes.map (·.rect)) d.bounds ∧
        ∀ outer : Rect ℚ, (∀ box ∈ d.boxes, outer.covers box.rect = true) →
          outer.covers d.bounds = true) ∧
      d.bounds.low = Point.origin ∧
      (∀ files' rects, files'.Perm files →
        rects.Perm (files' ++ orphansOf metrics m (Rect.unionAll? files')) →
          Rect.unionAll? rects = some d.bounds) ∧
      ∀ f ∈ m.files, ∀ i ∈ m.orphans,
        ∃ file orphan, d.boxes[f]? = some file ∧ d.boxes[i]? = some orphan ∧
          file.rect.high.y + metrics.nodeSeparation ≤ orphan.rect.low.y := by
  intro m d files
  have hids : m.DistinctIds := Model.distinctIds_ofNodes nodes edges
  have hempty : m.isEmpty = false := by
    rw [Model.isEmpty_ofNodes]
    exact List.isEmpty_eq_false_iff.mpr hnodes
  have hhull : Rect.IsHull (d.boxes.map (·.rect)) d.bounds := isHull_boxes hm hids hempty
  refine ⟨⟨hhull, ?_⟩, bounds_low_eq_origin hm hids hempty, ?_, ?_⟩
  · intro outer houter
    apply hhull.covered_by
    intro r hr
    obtain ⟨box, hbox, rfl⟩ := List.mem_map.mp hr
    exact houter box hbox
  · intro files' rects hfiles hrects
    have hsame : Rect.unionAll? files' = Rect.unionAll? files :=
      Rect.unionAll?_congr fun r => hfiles.mem_iff
    rw [hsame] at hrects
    have hall := hrects.trans (hfiles.append_right _)
    exact (Rect.unionAll?_congr fun r => hall.mem_iff).trans (unionAll?_outer _ hm hids hempty)
  · intro f hf i hi
    exact exists_file_above_orphan hm hf hi

theorem tangled_bounds :
    let m := Model.ofNodes (classify Box.tangledNodes) Box.tangledEdges
    let d := draw (Metrics.standard : Metrics ℚ) (classify Box.tangledNodes) Box.tangledEdges
    let files := filesOf Metrics.standard (Layout.Spacing.ofMetrics Metrics.standard).place m
    (Metrics.standard : Metrics ℚ).NonNegative ∧ classify Box.tangledNodes ≠ [] ∧
      d.bounds.low = Point.origin ∧
      Rect.unionAll?
          (files.reverse ++ orphansOf Metrics.standard m (Rect.unionAll? files.reverse)) =
        some d.bounds ∧
      ∃ file orphan, d.boxes[3]? = some file ∧ d.boxes[4]? = some orphan ∧
        file.rect.high.y + 100 ≤ orphan.rect.low.y := by
  intro m d files
  have hnodes : classify Box.tangledNodes ≠ [] := by decide
  obtain ⟨-, hlow, horder, hbelow⟩ := bounds_of_draw Metrics.standard (classify Box.tangledNodes)
    Box.tangledEdges Metrics.standard_nonNegative hnodes
  exact ⟨Metrics.standard_nonNegative, hnodes, hlow,
    horder files.reverse _ (List.reverse_perm files) (List.Perm.refl _),
    hbelow 3 (by decide) 4 (by decide)⟩

end Diagram

end CodeAtlas
