import CodeAtlas.Proofs.Graph.Partition
import CodeAtlas.Proofs.Layout.ListingOrder

/-! # The graph of files and the edges it comes from

On its way from an edge between nodes to an arc between boxes an end is looked up twice: first its
node and the file that owns it, then the number of that file. Nothing is lost on the second part of
the way. Each box stands for one file, and the arcs are the edges that lead from one file to
another, in order and as often as they are listed.
-/

namespace CodeAtlas

namespace Model

variable {m : Model} {k f : ℕ} {id : NodeId}

/-- The node with the identifier is the file number `k`, or a member placed in that file. -/
def PlacedIn (m : Model) (k : ℕ) (id : NodeId) : Prop :=
  ∃ file i node, m.files[k]? = some file ∧ m.nodes[i]? = some node ∧ node.id = id ∧
    (i = file ∨ i ∈ m.childrenOf file)

theorem fileOf?_eq_some_iff_placed (hids : m.DistinctIds) (hf : f ∈ m.files) :
    m.fileOf? id = some f ↔
      ∃ i node, m.nodes[i]? = some node ∧ node.id = id ∧ (i = f ∨ i ∈ m.childrenOf f) := by
  have howned : ∀ {i : ℕ} {node : Node}, m.nodes[i]? = some node →
      (m.ownerOf? i = some f ↔ i = f ∨ i ∈ m.childrenOf f) := by
    intro i node hi
    rw [hids.ownerOf?_eq_some_iff (List.getElem?_eq_some_iff.mp hi).1]
    refine or_congr_left ⟨fun h => h.2.symm, ?_⟩
    rintro rfl
    exact ⟨hf, rfl⟩
  unfold fileOf?
  rw [Option.bind_eq_some_iff]
  constructor
  · rintro ⟨i, hi, howner⟩
    obtain ⟨node, hnode, hid⟩ := (indexOf?_eq_some_iff hids).mp hi
    exact ⟨i, node, hnode, hid, (howned hnode).mp howner⟩
  · rintro ⟨i, node, hnode, hid, hplaced⟩
    exact ⟨i, (indexOf?_eq_some_iff hids).mpr ⟨node, hnode, hid⟩, (howned hnode).mpr hplaced⟩

theorem holdsAt_iff_placedIn (hids : m.DistinctIds) : m.HoldsAt k id ↔ m.PlacedIn k id := by
  rw [holdsAt_iff hids]
  constructor
  · rintro ⟨f, hk, hf⟩
    obtain ⟨i, node, hplaced⟩ :=
      (fileOf?_eq_some_iff_placed hids (List.mem_of_getElem? hk)).mp hf
    exact ⟨f, i, node, hk, hplaced⟩
  · rintro ⟨f, i, node, hk, hplaced⟩
    exact ⟨f, hk, (fileOf?_eq_some_iff_placed hids (List.mem_of_getElem? hk)).mpr ⟨i, node, hplaced⟩⟩

theorem mem_files_of_fileOf? (hids : m.DistinctIds) (h : m.fileOf? id = some f) : f ∈ m.files := by
  obtain ⟨owner, hf, -, hkind, -⟩ := (fileOf?_eq_some_iff hids).mp h
  exact mem_files.mpr (isFile_iff.mpr ⟨owner, hf, hkind⟩)

theorem mem_files_of_mem_fileEdges (hids : m.DistinctIds) {pair : ℕ × ℕ}
    (h : pair ∈ m.fileEdges) : pair.1 ∈ m.files ∧ pair.2 ∈ m.files := by
  obtain ⟨edge, -, hlift⟩ := List.mem_filterMap.mp h
  obtain ⟨-, hsource, htarget⟩ := liftEdge?_eq_some_iff.mp hlift
  exact ⟨mem_files_of_fileOf? hids hsource, mem_files_of_fileOf? hids htarget⟩

end Model

namespace Layout.FileGraph

variable {α : Type} {m : Model} {sizes : List (Point α)} {k file : ℕ}

/-! ## Boxes -/

theorem count_ofModel (hsizes : sizes.length = m.files.length) :
    (ofModel m sizes).count = m.files.length := by
  rw [count, boxes_ofModel, List.length_map, List.length_zip, hsizes, Nat.min_self]

theorem getElem?_boxes_ofModel (hsizes : sizes.length = m.files.length)
    (hk : m.files[k]? = some file) :
    ∃ node size, m.nodes[file]? = some node ∧ sizes[k]? = some size ∧
      (ofModel m sizes).boxes[k]? = some ⟨node.id, size⟩ := by
  obtain ⟨node, hnode, -⟩ := Model.isFile_iff.mp (Model.mem_files.mp (List.mem_of_getElem? hk))
  have hlt : k < sizes.length := by
    rw [hsizes]
    exact (List.getElem?_eq_some_iff.mp hk).1
  have hsize := List.getElem?_eq_getElem hlt
  have hentry : (m.files.zip sizes)[k]? = some (file, sizes[k]) :=
    List.getElem?_zip_eq_some.mpr ⟨hk, hsize⟩
  refine ⟨node, sizes[k], hnode, hsize, ?_⟩
  rw [boxes_ofModel, List.getElem?_map, hentry]
  simp [Diagram.identifierAt, hnode]

theorem nodup_keys_ofModel (hids : m.DistinctIds) (hsizes : sizes.length = m.files.length) :
    ((ofModel m sizes).boxes.map (·.key)).Nodup := by
  have hkeys : (ofModel m sizes).boxes.map (·.key) =
      ((m.files.zip sizes).map Prod.fst).map (Diagram.identifierAt m) := by
    rw [boxes_ofModel, List.map_map, List.map_map]
    rfl
  rw [hkeys, List.map_fst_zip (Nat.le_of_eq hsizes.symm)]
  apply List.Nodup.map_on _ m.nodup_files
  intro f hf g hg hsame
  obtain ⟨node, hnode, -⟩ := Model.isFile_iff.mp (Model.mem_files.mp hf)
  obtain ⟨other, hother, -⟩ := Model.isFile_iff.mp (Model.mem_files.mp hg)
  apply hids.index_eq hnode hother
  simpa [Diagram.identifierAt, hnode, hother] using hsame

/-! ## Arcs -/

/-- The numbers of files lead back to the files, so no edge between files is dropped. -/
theorem map_files_arcs_ofModel (hids : m.DistinctIds) (sizes : List (Point α)) :
    (ofModel m sizes).arcs.map (fun arc => (m.files[arc.1]?, m.files[arc.2]?)) =
      m.fileEdges.map fun pair => (some pair.1, some pair.2) := by
  have hslot : ∀ f ∈ m.files,
      m.files.idxOf? f = some (m.files.idxOf f) ∧ m.files[m.files.idxOf f]? = some f := by
    intro f hf
    have hplace : m.files[m.files.idxOf f]? = some f := by
      rw [List.getElem?_eq_getElem (List.idxOf_lt_length_of_mem hf), List.getElem_idxOf]
    exact ⟨Model.idxOf?_files.mpr hplace, hplace⟩
  -- Both ends of an edge between files are files, so looking up their numbers never fails.
  have harcs : (ofModel m sizes).arcs =
      m.fileEdges.map fun pair => (m.files.idxOf pair.1, m.files.idxOf pair.2) := by
    rw [← List.filterMap_eq_map]
    apply List.filterMap_congr
    intro pair hpair
    obtain ⟨hsource, htarget⟩ := Model.mem_files_of_mem_fileEdges hids hpair
    simp [(hslot _ hsource).1, (hslot _ htarget).1]
  rw [harcs, List.map_map]
  apply List.map_congr_left
  intro pair hpair
  obtain ⟨hsource, htarget⟩ := Model.mem_files_of_mem_fileEdges hids hpair
  simp [(hslot _ hsource).2, (hslot _ htarget).2]

theorem arc_of_mem_ofModel (hids : m.DistinctIds) (hsizes : sizes.length = m.files.length)
    {arc : Arc} (harc : arc ∈ (ofModel m sizes).arcs) :
    arc.1 ≠ arc.2 ∧ arc.1 < (ofModel m sizes).count ∧ arc.2 < (ofModel m sizes).count := by
  rw [arcs_ofModel] at harc
  obtain ⟨edge, -, hlift⟩ := List.mem_filterMap.mp harc
  obtain ⟨hne, hsource, htarget⟩ := (Model.arcOf?_eq_some_iff hids).mp hlift
  have hlt : ∀ {k id}, m.HoldsAt k id → k < (ofModel m sizes).count := by
    intro k id hk
    obtain ⟨f, hf, -⟩ := (Model.holdsAt_iff hids).mp hk
    rw [count_ofModel hsizes]
    exact (List.getElem?_eq_some_iff.mp hf).1
  exact ⟨hne, hlt hsource, hlt htarget⟩

theorem properArcs_ofModel (hids : m.DistinctIds) (hsizes : sizes.length = m.files.length) :
    (ofModel m sizes).properArcs = (ofModel m sizes).arcs := by
  apply List.filter_eq_self.mpr
  intro arc harc
  obtain ⟨hne, hsource, htarget⟩ := arc_of_mem_ofModel hids hsizes harc
  simp [hne, hsource, htarget]

/--
The graph of files has one box for each file, in the order of the files, with the identifier of the
file as its key and the given size, and no key repeats. Its arcs come from the edges in order, one
from each edge that leads from a file or a member placed in it to another file or a member placed
in that one. The numbers of the arcs lead back to the edges between files, so none is dropped; they
are numbers of boxes; and placing the boxes leaves no arc out.
-/
theorem ofModel_lifts_faithfully (raws : List RawNode) (edges : List Edge)
    (sizes : List (Point α))
    (hsizes : sizes.length = (Model.ofNodes (classify raws) edges).files.length) :
    let m := Model.ofNodes (classify raws) edges
    let g := ofModel m sizes
    (g.count = m.files.length ∧
        (∀ (k : ℕ) file, m.files[k]? = some file →
          ∃ node size, m.nodes[file]? = some node ∧ sizes[k]? = some size ∧
            g.boxes[k]? = some ⟨node.id, size⟩) ∧
        (g.boxes.map (·.key)).Nodup) ∧
      (∃ lift? : Edge → Option Arc, g.arcs = edges.filterMap lift? ∧
        ∀ edge i j, lift? edge = some (i, j) ↔
          i ≠ j ∧ m.PlacedIn i edge.source ∧ m.PlacedIn j edge.target) ∧
      g.arcs.map (fun arc => (m.files[arc.1]?, m.files[arc.2]?)) =
        m.fileEdges.map (fun pair => (some pair.1, some pair.2)) ∧
      InRange g.count g.arcs ∧ g.properArcs = g.arcs := by
  intro m g
  have hids : m.DistinctIds := Model.distinctIds_ofNodes (classify raws) edges
  refine ⟨⟨count_ofModel hsizes, fun k file => getElem?_boxes_ofModel hsizes,
    nodup_keys_ofModel hids hsizes⟩, ⟨m.arcOf?, arcs_ofModel m sizes, ?_⟩,
    map_files_arcs_ofModel hids sizes, ?_, properArcs_ofModel hids hsizes⟩
  · intro edge i j
    rw [Model.arcOf?_eq_some_iff hids, Model.holdsAt_iff_placedIn hids,
      Model.holdsAt_iff_placedIn hids]
  · intro arc harc
    exact (arc_of_mem_ofModel hids hsizes harc).2

/-- A member listed before its file, and a member whose file is missing. -/
def crossedNodes : List RawNode :=
  [RawNode.member "a.py" "f", RawNode.file "b.py", RawNode.file "a.py", RawNode.member "c.py" "h",
    RawNode.member "b.py" "g"]

/-- Two files that call each other, one of them twice, among edges that lead nowhere else. -/
def crossedEdges : List Edge :=
  [{ source := "a.py::f", target := "b.py::g" }, { source := "a.py::f", target := "a.py" },
    { source := "b.py", target := "a.py::f" }, { source := "c.py::h", target := "a.py" },
    { source := "a.py::f", target := "b.py" }]

theorem crossedEdges_lifted :
    let m := Model.ofNodes (classify crossedNodes) crossedEdges
    let sizes : List (Point ℕ) := [⟨328, 214⟩, ⟨328, 164⟩]
    let g := ofModel m sizes
    (m.files = [1, 2] ∧ g.arcs = [(1, 0), (0, 1), (1, 0)]) ∧
      g.boxes[0]? = some ⟨"b.py", ⟨328, 214⟩⟩ ∧
      g.arcs.map (fun arc => (m.files[arc.1]?, m.files[arc.2]?)) =
        m.fileEdges.map (fun pair => (some pair.1, some pair.2)) ∧
      InRange g.count g.arcs ∧ g.properArcs = g.arcs := by
  intro m sizes g
  have hfiles : m.files = [1, 2] := by decide
  have hsizes : sizes.length = m.files.length := by rw [hfiles]; rfl
  obtain ⟨⟨-, hboxes, -⟩, -, hback, hrange, hproper⟩ :=
    ofModel_lifts_faithfully crossedNodes crossedEdges sizes hsizes
  obtain ⟨node, size, hnode, hsize, hbox⟩ := hboxes 0 1 (by rw [hfiles]; rfl)
  cases hnode
  cases hsize
  exact ⟨⟨hfiles, by decide⟩, hbox, hback, hrange, hproper⟩

end Layout.FileGraph

end CodeAtlas
