import CodeAtlas.Layout.Box
import CodeAtlas.Proofs.Graph.Model
import CodeAtlas.Proofs.Layout.Placement

/-! # Where nodes are drawn

A file is drawn where its rectangle is, a member of a file in its slot and an orphan in
its row. This holds for every way to place the files; nothing is assumed of the numbers.
-/

namespace CodeAtlas

theorem lookup_eq_none_of_not_mem_keys {κ β : Type} [BEq κ] [LawfulBEq κ]
    {entries : List (κ × β)} {key : κ} (h : key ∉ entries.map Prod.fst) :
    entries.lookup key = none := by
  rw [List.lookup_eq_none_iff]
  intro entry hentry
  rw [bne_iff_ne]
  rintro rfl
  exact h (List.mem_map_of_mem hentry)

theorem Layout.FileGraph.boxes_ofModel {α : Type} (m : Model) (sizes : List (Point α)) :
    (ofModel m sizes).boxes =
      (m.files.zip sizes).map fun entry => ⟨Diagram.identifierAt m entry.1, entry.2⟩ := by
  unfold ofModel
  dsimp only
  rw [← List.filterMap_eq_map]
  apply List.filterMap_congr
  intro entry hentry
  obtain ⟨node, hnode, -⟩ := Model.isFile_iff.mp (Model.mem_files.mp (List.of_mem_zip hentry).1)
  simp [hnode, Diagram.identifierAt]

namespace Diagram

variable {α : Type} [Scalar α] {metrics : Metrics α} {m : Model} {centers : List (Point α)}
  {index i f slot : ℕ} {node : Node}

/-- The size of the file at position `f`. -/
def fileSizeOf (metrics : Metrics α) (m : Model) (f : ℕ) : Point α :=
  metrics.fileSize (m.childrenOf f).length

/-- The rectangle of the file at position `f`, which is the file number `index`. -/
def fileRectAt (metrics : Metrics α) (m : Model) (centers : List (Point α)) (index f : ℕ) :
    Rect α :=
  Rect.around (centers.getD index (fileSizeOf metrics m f).half) (fileSizeOf metrics m f)

/-- The rectangle of the orphan number `index`. -/
def orphanRectAt (metrics : Metrics α) (bounds : Option (Rect α)) (index : ℕ) : Rect α :=
  Rect.ofSize (orphanOrigin metrics bounds + ⟨0, Scalar.ofNat index * metrics.rowPitch⟩)
    metrics.cardSize

/-! ## Rectangles of files -/

theorem getElem?_fileRects (metrics : Metrics α) (m : Model) (centers : List (Point α))
    (index : ℕ) :
    (fileRects metrics m centers)[index]? =
      (m.files[index]?).map fun f => (f, fileRectAt metrics m centers index f) := by
  unfold fileRects fileSizes
  rw [← List.map_prod_left_eq_zip, List.getElem?_map, List.getElem?_zipIdx, List.getElem?_map,
    Option.map_map, Option.map_map]
  simp only [Function.comp_def, Nat.zero_add]
  rfl

theorem fileRects_keys (metrics : Metrics α) (m : Model) (centers : List (Point α)) :
    (fileRects metrics m centers).map Prod.fst = m.files := by
  apply List.ext_getElem?
  intro index
  rw [List.getElem?_map, getElem?_fileRects, Option.map_map]
  simp [Function.comp_def]

theorem mem_fileRects (metrics : Metrics α) (centers : List (Point α))
    (h : m.files[index]? = some f) :
    (f, fileRectAt metrics m centers index f) ∈ fileRects metrics m centers := by
  apply List.mem_of_getElem? (i := index)
  rw [getElem?_fileRects, h, Option.map_some]

theorem lookup_fileRects (h : m.files[index]? = some f) :
    (fileRects metrics m centers).lookup f = some (fileRectAt metrics m centers index f) := by
  rw [lookup_eq_some_iff_mem]
  · exact mem_fileRects metrics centers h
  · rw [fileRects_keys]
    exact m.nodup_files

theorem lookup_fileRects_eq_none (h : m.isFile i = false) :
    (fileRects metrics m centers).lookup i = none := by
  apply lookup_eq_none_of_not_mem_keys
  rw [fileRects_keys, Model.mem_files, h]
  exact Bool.false_ne_true

/-! ## Slots of members -/

theorem mem_slots : (i, f, slot) ∈ slots m ↔ (m.childrenOf f)[slot]? = some i := by
  simp only [slots, List.mem_flatMap, List.mem_map, Prod.exists, Prod.mk.injEq,
    List.mem_zipIdx_iff_getElem?]
  constructor
  · rintro ⟨file, -, child, place, hchild, rfl, rfl, rfl⟩
    exact hchild
  · intro hchild
    have hfile := (Model.mem_childrenOf.mp (List.mem_of_getElem? hchild)).2.1
    exact ⟨f, Model.mem_files.mpr hfile, i, slot, hchild, rfl, rfl, rfl⟩

theorem slots_keys (m : Model) : (slots m).map Prod.fst = m.attached := by
  unfold slots Model.attached
  rw [List.map_flatMap]
  congr 1
  funext file
  rw [List.map_map]
  exact List.zipIdx_map_fst 0 (m.childrenOf file)

theorem lookup_slots (hids : m.DistinctIds) (h : (m.childrenOf f)[slot]? = some i) :
    (slots m).lookup i = some (f, slot) := by
  rw [lookup_eq_some_iff_mem]
  · exact mem_slots.mpr h
  · rw [slots_keys]
    exact hids.nodup_attached

theorem lookup_slots_eq_none (h : ∀ f, i ∉ m.childrenOf f) : (slots m).lookup i = none := by
  apply lookup_eq_none_of_not_mem_keys
  rw [slots_keys, Model.attached, List.mem_flatMap]
  rintro ⟨file, -, hmem⟩
  exact h file hmem

/-! ## Rows of orphans -/

theorem getElem?_orphanRects (metrics : Metrics α) (m : Model) (bounds : Option (Rect α))
    (index : ℕ) :
    (orphanRects metrics m bounds)[index]? =
      (m.orphans[index]?).map fun i => (i, orphanRectAt metrics bounds index) := by
  unfold orphanRects
  rw [List.getElem?_map, List.getElem?_zipIdx, Option.map_map]
  simp [Function.comp_def, orphanRectAt]

theorem orphanRects_keys (metrics : Metrics α) (m : Model) (bounds : Option (Rect α)) :
    (orphanRects metrics m bounds).map Prod.fst = m.orphans := by
  apply List.ext_getElem?
  intro index
  rw [List.getElem?_map, getElem?_orphanRects, Option.map_map]
  simp [Function.comp_def]

theorem mem_orphanRects (metrics : Metrics α) (bounds : Option (Rect α))
    (h : m.orphans[index]? = some i) :
    (i, orphanRectAt metrics bounds index) ∈ orphanRects metrics m bounds := by
  apply List.mem_of_getElem? (i := index)
  rw [getElem?_orphanRects, h, Option.map_some]

theorem lookup_orphanRects {bounds : Option (Rect α)} (h : m.orphans[index]? = some i) :
    (orphanRects metrics m bounds).lookup i = some (orphanRectAt metrics bounds index) := by
  rw [lookup_eq_some_iff_mem]
  · exact mem_orphanRects metrics bounds h
  · rw [orphanRects_keys]
    exact m.nodup_orphans

/-! ## The graph of files -/

theorem fileGraph_boxes (metrics : Metrics α) (m : Model) :
    (fileGraph metrics m).boxes =
      m.files.map fun f => ⟨identifierAt m f, fileSizeOf metrics m f⟩ := by
  rw [fileGraph, Layout.FileGraph.boxes_ofModel, fileSizes, ← List.map_prod_left_eq_zip, List.map_map]
  rfl

/-! ## Placed nodes -/

section Placed

variable {place : Layout.FileGraph α → List (Point α)}

/-- The rectangle around all files of the drawing. -/
def fileBounds? (metrics : Metrics α) (place : Layout.FileGraph α → List (Point α)) (m : Model) :
    Option (Rect α) :=
  Rect.unionAll? ((fileRects metrics m (place (fileGraph metrics m))).map (·.2))

/-- The node at position `i` as it is drawn. -/
def placedAt (metrics : Metrics α) (place : Layout.FileGraph α → List (Point α)) (m : Model)
    (i : ℕ) (node : Node) : PlacedNode α :=
  placeNode metrics m (fileRects metrics m (place (fileGraph metrics m)))
    (orphanRects metrics m (fileBounds? metrics place m)) (slots m) i node

theorem getElem?_nodes (metrics : Metrics α) (place : Layout.FileGraph α → List (Point α))
    (m : Model) (i : ℕ) :
    (ofModel metrics place m).nodes[i]? = (m.nodes[i]?).map (placedAt metrics place m i) := by
  unfold ofModel
  by_cases hempty : m.isEmpty = true
  · rw [if_pos hempty]
    have hnil : m.nodes = [] := List.isEmpty_iff.mp hempty
    simp [hnil, empty]
  · rw [if_neg hempty, List.getElem?_map, List.getElem?_zipIdx, Option.map_map]
    simp only [Function.comp_def, Nat.zero_add]
    rfl

@[simp] theorem placedAt_node (metrics : Metrics α)
    (place : Layout.FileGraph α → List (Point α)) (m : Model) (i : ℕ) (node : Node) :
    (placedAt metrics place m i node).node = node := by
  unfold placedAt placeNode
  split
  · rfl
  · split <;> rfl

@[simp] theorem placedAt_zIndex (metrics : Metrics α)
    (place : Layout.FileGraph α → List (Point α)) (m : Model) (i : ℕ) (node : Node) :
    (placedAt metrics place m i node).zIndex = (NodeStyle.ofKind node.kind).zIndex := by
  unfold placedAt placeNode
  split
  · rfl
  · split <;> rfl

theorem placedAt_file (metrics : Metrics α) (place : Layout.FileGraph α → List (Point α))
    (node : Node) (h : m.files[index]? = some i) :
    (placedAt metrics place m i node).space = .global ∧
      (placedAt metrics place m i node).position =
        (fileRectAt metrics m (place (fileGraph metrics m)) index i).low ∧
      (placedAt metrics place m i node).size =
        (fileRectAt metrics m (place (fileGraph metrics m)) index i).high -
          (fileRectAt metrics m (place (fileGraph metrics m)) index i).low := by
  simp [placedAt, placeNode, lookup_fileRects h]

theorem placedAt_member (metrics : Metrics α) (place : Layout.FileGraph α → List (Point α))
    (node : Node) (hids : m.DistinctIds) (h : (m.childrenOf f)[slot]? = some i) :
    (placedAt metrics place m i node).space = .inside (identifierAt m f) ∧
      (placedAt metrics place m i node).position = metrics.childOffset slot ∧
      (placedAt metrics place m i node).size = metrics.cardSize := by
  have hfile := (Model.mem_childrenOf.mp (List.mem_of_getElem? h)).1
  simp [placedAt, placeNode, lookup_fileRects_eq_none hfile, lookup_slots hids h]

theorem placedAt_orphan (metrics : Metrics α) (place : Layout.FileGraph α → List (Point α))
    (node : Node) (h : m.orphans[index]? = some i) :
    (placedAt metrics place m i node).space = .global ∧
      (placedAt metrics place m i node).position =
        (orphanRectAt metrics (fileBounds? metrics place m) index).low ∧
      (placedAt metrics place m i node).size = metrics.cardSize := by
  obtain ⟨-, hfile, hmember⟩ := Model.mem_orphans.mp (List.mem_of_getElem? h)
  simp [placedAt, placeNode, lookup_fileRects_eq_none hfile, lookup_slots_eq_none hmember,
    lookup_orphanRects h]

/-- A file is found by its identifier, since no other node has it. -/
theorem originOf?_file (hids : m.DistinctIds) (h : m.files[index]? = some f)
    (hf : m.nodes[f]? = some node) :
    (ofModel metrics place m).originOf? node.id =
      some (fileRectAt metrics m (place (fileGraph metrics m)) index f).low := by
  unfold originOf?
  obtain ⟨hspace, hposition, -⟩ := placedAt_file metrics place node h
  have hplaced : placedAt metrics place m f node ∈ (ofModel metrics place m).nodes := by
    apply List.mem_of_getElem? (i := f)
    rw [getElem?_nodes, hf, Option.map_some]
  cases hfind : (ofModel metrics place m).nodes.reverse.find?
      fun p => p.space == .global && p.node.id == node.id with
  | none =>
      have hnone := List.find?_eq_none.mp hfind _ (List.mem_reverse.mpr hplaced)
      simp only [hspace, placedAt_node, beq_self_eq_true, Bool.and_true] at hnone
      exact absurd rfl hnone
  | some p =>
      have hid := List.find?_some hfind
      have hmem := List.mem_reverse.mp (List.mem_of_find?_eq_some hfind)
      obtain ⟨j, hj⟩ := List.mem_iff_getElem?.mp hmem
      rw [getElem?_nodes] at hj
      obtain ⟨other, hother, rfl⟩ := Option.map_eq_some_iff.mp hj
      simp only [placedAt_node, Bool.and_eq_true, beq_iff_eq] at hid
      obtain rfl := hids.index_eq hother hf hid.2
      obtain rfl := Option.some.inj (hother.symm.trans hf)
      rw [Option.map_some, hposition]

end Placed

end Diagram

end CodeAtlas
