import CodeAtlas.Proofs.Layout.Diagram

/-! # What lies under a point

In an exact drawing two files are apart, and so are two cards, whether they stand in one
file, in different files or below all files. So at most one card and one file lie under a
point, and the card is on top.
-/

namespace CodeAtlas

namespace Diagram

variable {metrics : Metrics ℚ} {m : Model} {index index' i j f g slot slot' : ℕ} {node : Node}

/-! ## Rectangles of boxes -/

section Rectangles

variable {place : Layout.FileGraph ℚ → List (Point ℚ)}

/-- The rectangle of the node at position `i`, seen from the origin of the drawing. -/
def rectAt (metrics : Metrics ℚ) (place : Layout.FileGraph ℚ → List (Point ℚ)) (m : Model)
    (i : ℕ) (node : Node) : Rect ℚ :=
  Rect.ofSize
    ((ofModel metrics place m).cornerOf (placedAt metrics place m i node).space +
      (placedAt metrics place m i node).position)
    (placedAt metrics place m i node).size

theorem getElem?_boxes (metrics : Metrics ℚ) (place : Layout.FileGraph ℚ → List (Point ℚ))
    (m : Model) (i : ℕ) :
    (ofModel metrics place m).boxes[i]? =
      (m.nodes[i]?).map fun node =>
        ⟨node.id, node.kind, rectAt metrics place m i node,
          (NodeStyle.ofKind node.kind).zIndex, (placedAt metrics place m i node).style⟩ := by
  unfold boxes
  rw [List.getElem?_map, getElem?_nodes, Option.map_map]
  simp only [Function.comp_def, placedAt_node, placedAt_zIndex]
  rfl

theorem origin_add (p : Point ℚ) : Point.origin + p = p :=
  Point.ext (zero_add p.x) (zero_add p.y)

theorem ofSize_sub (r : Rect ℚ) : Rect.ofSize r.low (r.high - r.low) = r := by
  have hhigh : r.low + (r.high - r.low) = r.high :=
    Point.ext (add_sub_cancel r.low.x r.high.x) (add_sub_cancel r.low.y r.high.y)
  unfold Rect.ofSize
  rw [hhigh]

theorem rectAt_file (h : m.files[index]? = some i) :
    rectAt metrics place m i node =
      fileRectAt metrics m (place (fileGraph metrics m)) index i := by
  obtain ⟨hspace, hposition, hsize⟩ := placedAt_file metrics place node h
  rw [rectAt, hspace, hposition, hsize, cornerOf, origin_add, ofSize_sub]

theorem rectAt_member (hids : m.DistinctIds) (hf : m.files[index]? = some f)
    (h : (m.childrenOf f)[slot]? = some i) :
    rectAt metrics place m i node =
      Rect.ofSize ((fileRectAt metrics m (place (fileGraph metrics m)) index f).low +
        metrics.childOffset slot) metrics.cardSize := by
  obtain ⟨hspace, hposition, hsize⟩ := placedAt_member metrics place node hids h
  obtain ⟨owner, howner, -⟩ := Model.isFile_iff.mp
    (Model.mem_files.mp (List.mem_of_getElem? hf))
  have hid : identifierAt m f = owner.id := by simp [identifierAt, howner]
  rw [rectAt, hspace, hposition, hsize, hid, cornerOf, originOf?_file hids hf howner,
    Option.getD_some]

theorem rectAt_orphan (h : m.orphans[index]? = some i) :
    rectAt metrics place m i node =
      orphanRectAt metrics (fileBounds? metrics place m) index := by
  obtain ⟨hspace, hposition, hsize⟩ := placedAt_orphan metrics place node h
  rw [rectAt, hspace, hposition, hsize, cornerOf, origin_add]
  rfl

end Rectangles

/-! ## Cards are apart -/

theorem exists_fileIndex (h : (m.childrenOf f)[slot]? = some i) :
    ∃ index : ℕ, m.files[index]? = some f := by
  apply List.mem_iff_getElem?.mp
  exact Model.mem_files.mpr (Model.mem_childrenOf.mp (List.mem_of_getElem? h)).2.1

theorem fileRectAt_covers {centers : List (Point ℚ)} (hm : metrics.NonNegative)
    (h : (m.childrenOf f)[slot]? = some i) :
    (fileRectAt metrics m centers index f).covers
      (Rect.ofSize ((fileRectAt metrics m centers index f).low + metrics.childOffset slot)
        metrics.cardSize) = true := by
  have hslot : slot < (m.childrenOf f).length := (List.getElem?_eq_some_iff.mp h).1
  exact hm.fileSize_covers hslot _

theorem rows_apart_of_lt (hm : metrics.NonNegative) (top : ℚ) {p q : Point ℚ} {row row' : ℕ}
    (hp : p.y = top + row * metrics.rowPitch) (hq : q.y = top + row' * metrics.rowPitch)
    (hlt : row < row') :
    Rect.Apart (Rect.ofSize p metrics.cardSize) (Rect.ofSize q metrics.cardSize) := by
  have hrow := hm.row_le_row hlt
  refine Or.inr (Or.inl ?_)
  rw [Rect.ofSize_high, Rect.ofSize_low, Point.add_y, Metrics.cardSize_y, hp, hq]
  linarith

/-- Cards in different rows of one column are apart. -/
theorem rows_apart (hm : metrics.NonNegative) (top : ℚ) {p q : Point ℚ} {row row' : ℕ}
    (hp : p.y = top + row * metrics.rowPitch) (hq : q.y = top + row' * metrics.rowPitch)
    (hne : row ≠ row') :
    Rect.Apart (Rect.ofSize p metrics.cardSize) (Rect.ofSize q metrics.cardSize) := by
  rcases Nat.lt_or_gt_of_ne hne with hlt | hgt
  · exact rows_apart_of_lt hm top hp hq hlt
  · exact (rows_apart_of_lt hm top hq hp hgt).symm

theorem cards_apart (hm : metrics.NonNegative) (corner : Point ℚ) (hne : slot ≠ slot') :
    Rect.Apart (Rect.ofSize (corner + metrics.childOffset slot) metrics.cardSize)
      (Rect.ofSize (corner + metrics.childOffset slot') metrics.cardSize) := by
  refine rows_apart hm (corner.y + metrics.paddingTop) ?_ ?_ hne
  · rw [Point.add_y, Metrics.childOffset_y, add_assoc]
  · rw [Point.add_y, Metrics.childOffset_y, add_assoc]

theorem orphans_apart (hm : metrics.NonNegative) (bounds : Option (Rect ℚ))
    (hne : index ≠ index') :
    Rect.Apart (orphanRectAt metrics bounds index) (orphanRectAt metrics bounds index') :=
  rows_apart hm (orphanOrigin metrics bounds).y rfl rfl hne

/-- Orphans stand below everything that the bounds of the files cover. -/
theorem covered_above_orphan (hm : metrics.NonNegative) {bounds card : Rect ℚ}
    (h : bounds.covers card = true) (index : ℕ) :
    card.high.y + metrics.nodeSeparation ≤ (orphanRectAt metrics (some bounds) index).low.y := by
  rw [Rect.covers_iff] at h
  have hrows : 0 ≤ (index : ℚ) * metrics.rowPitch := mul_nonneg (Nat.cast_nonneg _) hm.rowPitch
  have htop : (orphanRectAt metrics (some bounds) index).low.y =
      bounds.high.y + metrics.nodeSeparation + index * metrics.rowPitch := rfl
  rw [htop]
  linarith [h.2.2]

theorem covered_apart_orphan (hm : metrics.NonNegative) {bounds card : Rect ℚ}
    (h : bounds.covers card = true) (index : ℕ) :
    Rect.Apart card (orphanRectAt metrics (some bounds) index) := by
  have habove := covered_above_orphan hm h index
  exact Or.inr (Or.inl (by linarith [hm.nodeSeparation]))

/-! ## Files are apart -/

theorem fileGraph_sizes_nonneg (hm : metrics.NonNegative) :
    ∀ box ∈ (fileGraph metrics m).boxes, 0 ≤ box.size.x ∧ 0 ≤ box.size.y := by
  rw [fileGraph_boxes]
  intro box hbox
  obtain ⟨f, -, rfl⟩ := List.mem_map.mp hbox
  exact hm.fileSize _

/-- The placement has a center for every file, and knows its size. -/
theorem exists_center (s : Layout.Spacing ℚ) (metrics : Metrics ℚ)
    (h : m.files[index]? = some f) :
    ∃ c, (s.place (fileGraph metrics m))[index]? = some c ∧
      (fileGraph metrics m).sizeOf index = fileSizeOf metrics m f := by
  have hbox : (fileGraph metrics m).boxes[index]? =
      some ⟨identifierAt m f, fileSizeOf metrics m f⟩ := by
    rw [fileGraph_boxes, List.getElem?_map, h, Option.map_some]
  have hlt : index < (fileGraph metrics m).count := (List.getElem?_eq_some_iff.mp hbox).1
  rw [← s.length_place] at hlt
  refine ⟨_, List.getElem?_eq_getElem hlt, ?_⟩
  simp [Layout.FileGraph.sizeOf, hbox]

theorem files_apart (hm : metrics.NonNegative) (hf : m.files[index]? = some f)
    (hg : m.files[index']? = some g) (hne : index ≠ index') :
    Rect.Apart
      (fileRectAt metrics m ((Layout.Spacing.ofMetrics metrics).place (fileGraph metrics m))
        index f)
      (fileRectAt metrics m ((Layout.Spacing.ofMetrics metrics).place (fileGraph metrics m))
        index' g) := by
  have hspacing : (Layout.Spacing.ofMetrics metrics).NonNegative :=
    ⟨hm.nodeSeparation, hm.rankSeparation⟩
  obtain ⟨c, hc, hsizef⟩ := exists_center (Layout.Spacing.ofMetrics metrics) metrics hf
  obtain ⟨d, hd, hsizeg⟩ := exists_center (Layout.Spacing.ofMetrics metrics) metrics hg
  have hapart := Layout.Spacing.place_apart hspacing (fileGraph_sizes_nonneg hm) hne hc hd
  rw [hsizef, hsizeg] at hapart
  simpa [fileRectAt, List.getD_eq_getElem?_getD, hc, hd] using hapart

/-! ## Cards of different owners are apart -/

theorem members_apart (hm : metrics.NonNegative) (hids : m.DistinctIds) {other : Node}
    (hi : (m.childrenOf f)[slot]? = some i) (hj : (m.childrenOf g)[slot']? = some j)
    (hne : i ≠ j) :
    Rect.Apart (rectAt metrics (Layout.Spacing.ofMetrics metrics).place m i node)
      (rectAt metrics (Layout.Spacing.ofMetrics metrics).place m j other) := by
  obtain ⟨index, hf⟩ := exists_fileIndex hi
  obtain ⟨index', hg⟩ := exists_fileIndex hj
  rw [rectAt_member hids hf hi, rectAt_member hids hg hj]
  by_cases hindex : index = index'
  · subst hindex
    obtain rfl := Option.some.inj (hf.symm.trans hg)
    apply cards_apart hm
    rintro rfl
    exact hne (Option.some.inj (hi.symm.trans hj))
  · exact (files_apart hm hf hg hindex).of_covers (fileRectAt_covers hm hi)
      (fileRectAt_covers hm hj)

theorem member_orphan_apart (hm : metrics.NonNegative) (hids : m.DistinctIds)
    {place : Layout.FileGraph ℚ → List (Point ℚ)} {other : Node}
    (hi : (m.childrenOf f)[slot]? = some i) (hj : m.orphans[index']? = some j) :
    Rect.Apart (rectAt metrics place m i node) (rectAt metrics place m j other) := by
  obtain ⟨index, hf⟩ := exists_fileIndex hi
  have hmem := List.mem_map_of_mem (f := Prod.snd)
    (mem_fileRects metrics (place (fileGraph metrics m)) hf)
  obtain ⟨bounds, hbounds, hcovers⟩ := Rect.exists_unionAll?_covers hmem
  rw [rectAt_member hids hf hi, rectAt_orphan hj, fileBounds?, hbounds]
  exact covered_apart_orphan hm (Rect.covers_trans hcovers (fileRectAt_covers hm hi)) index'

/-- Two nodes that are both files or both cards are drawn apart. -/
theorem nodes_apart (hm : metrics.NonNegative) (hids : m.DistinctIds) {other : Node}
    (hi : m.nodes[i]? = some node) (hj : m.nodes[j]? = some other) (hne : i ≠ j)
    (hkind : node.kind.isContainer = other.kind.isContainer) :
    Rect.Apart (rectAt metrics (Layout.Spacing.ofMetrics metrics).place m i node)
      (rectAt metrics (Layout.Spacing.ofMetrics metrics).place m j other) := by
  rw [← Model.isFile_eq hi, ← Model.isFile_eq hj] at hkind
  cases hfile : m.isFile i with
  | true =>
      rw [hfile] at hkind
      obtain ⟨index, hf⟩ := List.mem_iff_getElem?.mp (Model.mem_files.mpr hfile)
      obtain ⟨index', hg⟩ := List.mem_iff_getElem?.mp (Model.mem_files.mpr hkind.symm)
      rw [rectAt_file hf, rectAt_file hg]
      apply files_apart hm hf hg
      rintro rfl
      exact hne (Option.some.inj (hf.symm.trans hg))
  | false =>
      rw [hfile] at hkind
      rcases Model.member_or_orphan hi hfile with ⟨f, slot, hslot⟩ | ⟨row, hrow⟩
      · rcases Model.member_or_orphan hj hkind.symm with ⟨g, slot', hslot'⟩ | ⟨row', hrow'⟩
        · exact members_apart hm hids hslot hslot' hne
        · exact member_orphan_apart hm hids hslot hrow'
      · rcases Model.member_or_orphan hj hkind.symm with ⟨g, slot', hslot'⟩ | ⟨row', hrow'⟩
        · exact (member_orphan_apart hm hids hslot' hrow).symm
        · rw [rectAt_orphan hrow, rectAt_orphan hrow']
          apply orphans_apart hm
          rintro rfl
          exact hne (Option.some.inj (hrow.symm.trans hrow'))

theorem boxes_pairwise_apart (hm : metrics.NonNegative) (hids : m.DistinctIds) :
    (layered metrics m).boxes.Pairwise fun a b =>
      a.kind.isContainer = b.kind.isContainer → Rect.Apart a.rect b.rect := by
  rw [List.pairwise_iff_getElem]
  intro i j hi hj hlt
  have hbox := List.getElem?_eq_getElem hi
  have hbox' := List.getElem?_eq_getElem hj
  unfold layered at hbox hbox'
  rw [getElem?_boxes] at hbox hbox'
  obtain ⟨node, hnode, hbox⟩ := Option.map_eq_some_iff.mp hbox
  obtain ⟨other, hother, hbox'⟩ := Option.map_eq_some_iff.mp hbox'
  unfold layered
  rw [← hbox, ← hbox']
  exact nodes_apart hm hids hnode hother (Nat.ne_of_lt hlt)

theorem zIndex_of_mem_boxes {box : Box ℚ} (h : box ∈ (layered metrics m).boxes) :
    box.zIndex = (NodeStyle.ofKind box.kind).zIndex := by
  obtain ⟨i, hbox⟩ := List.mem_iff_getElem?.mp h
  unfold layered at hbox
  rw [getElem?_boxes] at hbox
  obtain ⟨node, -, rfl⟩ := Option.map_eq_some_iff.mp hbox
  rfl

end Diagram

/-! ## The topmost box -/

namespace Box

variable {boxes : List (Box ℚ)} {point : Point ℚ}

/-- The boxes of files under a point. -/
def filesUnder (boxes : List (Box ℚ)) (point : Point ℚ) : List (Box ℚ) :=
  boxes.filter fun box => box.kind.isContainer && box.rect.contains point

/-- The boxes of functions and classes under a point. -/
def membersUnder (boxes : List (Box ℚ)) (point : Point ℚ) : List (Box ℚ) :=
  boxes.filter fun box => !box.kind.isContainer && box.rect.contains point

theorem length_le_one_of_apart (point : Point ℚ)
    (hapart : boxes.Pairwise fun a b => Rect.Apart a.rect b.rect)
    (hunder : ∀ box ∈ boxes, box.rect.contains point = true) : boxes.length ≤ 1 := by
  match boxes with
  | [] => exact Nat.zero_le 1
  | [_] => exact Nat.le_refl 1
  | a :: b :: rest =>
      have hab : Rect.Apart a.rect b.rect :=
        List.rel_of_pairwise_cons hapart List.mem_cons_self
      have ha := hunder a List.mem_cons_self
      have hb := hunder b (List.mem_cons_of_mem a List.mem_cons_self)
      exact absurd hb (hab.not_contains ha)

/-- Of boxes that are apart when they are of one sort, one of each sort lies under a point. -/
theorem length_filter_le_one (sort : Box ℚ → Bool)
    (h : boxes.Pairwise fun a b => sort a = sort b → Rect.Apart a.rect b.rect) :
    (boxes.filter fun box => sort box && box.rect.contains point).length ≤ 1 := by
  apply length_le_one_of_apart point
  · refine (h.filter _).imp_of_mem ?_
    intro a b ha hb hab
    have hsorta := (Bool.and_eq_true _ _).mp (List.mem_filter.mp ha).2
    have hsortb := (Bool.and_eq_true _ _).mp (List.mem_filter.mp hb).2
    exact hab (hsorta.1.trans hsortb.1.symm)
  · intro box hbox
    exact ((Bool.and_eq_true _ _).mp (List.mem_filter.mp hbox).2).2

theorem layer_lt_iff (k l : NodeKind) :
    (NodeStyle.ofKind k).zIndex < (NodeStyle.ofKind l).zIndex ↔
      k.isContainer = true ∧ l.isContainer = false := by
  cases k <;> cases l <;> decide

/-- Of at most one file and one member the member is the upper one, whichever comes first. -/
theorem foldl_upper_eq
    (hlayer : ∀ box ∈ boxes, box.zIndex = (NodeStyle.ofKind box.kind).zIndex)
    (hfiles : (boxes.filter fun box => box.kind.isContainer).length ≤ 1)
    (hmembers : (boxes.filter fun box => !box.kind.isContainer).length ≤ 1) :
    boxes.foldl upper none =
      (boxes.filter fun box => !box.kind.isContainer).head?.or
        (boxes.filter fun box => box.kind.isContainer).head? := by
  match boxes with
  | [] => rfl
  | [a] =>
      cases ha : a.kind.isContainer <;> simp [upper, ha]
  | [a, b] =>
      have hlt : b.zIndex < a.zIndex ↔ b.kind.isContainer = true ∧ a.kind.isContainer = false := by
        rw [hlayer a (by simp), hlayer b (by simp)]
        exact layer_lt_iff b.kind a.kind
      cases ha : a.kind.isContainer <;> cases hb : b.kind.isContainer
      · simp [ha, hb] at hmembers
      · simp [upper, hlt, ha, hb]
      · simp [upper, hlt, ha, hb]
      · simp [ha, hb] at hfiles
  | a :: b :: c :: rest =>
      have hlength := List.length_eq_length_filter_add (l := a :: b :: c :: rest)
        fun box => box.kind.isContainer
      simp only [List.length_cons] at hlength
      omega

theorem topmost?_eq_member_or_file
    (hlayer : ∀ box ∈ boxes, box.zIndex = (NodeStyle.ofKind box.kind).zIndex)
    (hfiles : (filesUnder boxes point).length ≤ 1)
    (hmembers : (membersUnder boxes point).length ≤ 1) :
    topmost? boxes point =
      (membersUnder boxes point).head?.or (filesUnder boxes point).head? := by
  have hf : filesUnder boxes point =
      (boxes.filter fun box => box.rect.contains point).filter fun box => box.kind.isContainer :=
    List.filter_filter.symm
  have hm : membersUnder boxes point =
      (boxes.filter fun box => box.rect.contains point).filter fun box => !box.kind.isContainer :=
    List.filter_filter.symm
  rw [hf] at hfiles ⊢
  rw [hm] at hmembers ⊢
  exact foldl_upper_eq (fun box hbox => hlayer box (List.mem_filter.mp hbox).1) hfiles hmembers

/-- In an exact drawing a point lies in one file and one card at most, and the card is hit first. -/
theorem topmost?_draw (metrics : Metrics ℚ) (hm : metrics.NonNegative) (raws : List RawNode)
    (edges : List Edge) (point : Point ℚ) :
    let boxes := (Diagram.draw metrics (classify raws) edges).boxes
    (filesUnder boxes point).length ≤ 1 ∧ (membersUnder boxes point).length ≤ 1 ∧
      topmost? boxes point =
        (membersUnder boxes point).head?.or (filesUnder boxes point).head? := by
  intro boxes
  have hids := Model.distinctIds_ofNodes (classify raws) edges
  have hapart := Diagram.boxes_pairwise_apart hm hids
  have hfiles : (filesUnder boxes point).length ≤ 1 :=
    length_filter_le_one (fun box => box.kind.isContainer) hapart
  have hmembers : (membersUnder boxes point).length ≤ 1 := by
    refine length_filter_le_one (fun box => !box.kind.isContainer) (hapart.imp ?_)
    intro a b hab hsort
    exact hab (Bool.not_inj hsort)
  refine ⟨hfiles, hmembers, ?_⟩
  exact topmost?_eq_member_or_file (fun box => Diagram.zIndex_of_mem_boxes) hfiles hmembers

/-- Two files that call each other, a member listed before its file, one listed twice, an orphan. -/
def tangledNodes : List RawNode :=
  [RawNode.member "b.py" "g", RawNode.file "a.py", RawNode.member "a.py" "f",
    RawNode.file "b.py", RawNode.member "a.py" "f", RawNode.member "gone.py" "h"]

def tangledEdges : List Edge :=
  [{ source := "a.py::f", target := "b.py::g" }, { source := "b.py::g", target := "a.py::f" }]

theorem tangled_topmost? :
    let boxes := (Diagram.draw (Metrics.standard : Metrics ℚ) (classify tangledNodes)
      tangledEdges).boxes
    (Metrics.standard : Metrics ℚ).NonNegative ∧
      ((filesUnder boxes ⟨30, 60⟩).length ≤ 1 ∧ (membersUnder boxes ⟨30, 60⟩).length ≤ 1 ∧
        topmost? boxes ⟨30, 60⟩ =
          (membersUnder boxes ⟨30, 60⟩).head?.or (filesUnder boxes ⟨30, 60⟩).head?) ∧
      (topmost? boxes ⟨30, 60⟩).map (·.id) = some "a.py::f" :=
  ⟨Metrics.standard_nonNegative,
    topmost?_draw Metrics.standard Metrics.standard_nonNegative tangledNodes tangledEdges ⟨30, 60⟩,
    by decide +kernel⟩

end Box

end CodeAtlas
