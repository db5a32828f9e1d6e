import CodeAtlas.Proofs.Graph.Occurrences
import CodeAtlas.Proofs.Layout.Diagram

/-! # Every node is drawn once, and in its place

The drawing is put together from four tables: rectangles of files, slots of members,
rectangles of orphans, and the corners by which files are found again. Together they
cover the kept nodes without gaps, however the files themselves are placed.
-/

namespace CodeAtlas.Diagram

variable {α : Type} [Scalar α] {metrics : Metrics α} {m : Model} {i : ℕ} {node : Node}
  {place : Layout.FileGraph α → List (Point α)}

/-- What is asked of the node number `i` of a drawing of the nodes `kept`. -/
structure InPlace (metrics : Metrics α) (kept : List Node) (i : ℕ) (p : PlacedNode α) : Prop where
  file : p.node.kind = .file → p.space = .global
  member : ∀ owner ∈ kept, owner.kind = .file → p.node.kind ≠ .file →
    p.node.parent = some owner.id →
      p.space = .inside owner.id ∧ p.size = metrics.cardSize ∧
        p.position = metrics.childOffset (Model.membersBefore kept i owner.id)
  orphan : p.node.kind ≠ .file →
    (∀ owner ∈ kept, owner.kind = .file → p.node.parent ≠ some owner.id) →
      p.space = .global ∧ p.size = metrics.cardSize

theorem map_node_ofModel (metrics : Metrics α) (place : Layout.FileGraph α → List (Point α))
    (m : Model) : (ofModel metrics place m).nodes.map (·.node) = m.nodes := by
  apply List.ext_getElem?
  intro i
  rw [List.getElem?_map, getElem?_nodes, Option.map_map]
  simp [Function.comp_def]

theorem placedAt_inPlace (hids : m.DistinctIds) (hi : m.nodes[i]? = some node) :
    InPlace metrics m.nodes i (placedAt metrics place m i node) where
  file hkind := by
    rw [placedAt_node] at hkind
    have hfile := Model.mem_files.mpr (Model.isFile_iff.mpr ⟨node, hi, hkind⟩)
    obtain ⟨index, hindex⟩ := List.mem_iff_getElem?.mp hfile
    exact (placedAt_file metrics place node hindex).1
  member owner howner hfile hkind hparent := by
    rw [placedAt_node] at hkind hparent
    obtain ⟨f, hf⟩ := List.mem_iff_getElem?.mp howner
    have hslot := Model.getElem?_childrenOf hf hfile hi hkind hparent
    obtain ⟨hspace, hposition, hsize⟩ := placedAt_member metrics place node hids hslot
    have hid : identifierAt m f = owner.id := by simp [identifierAt, hf]
    exact ⟨hid ▸ hspace, hsize, hposition⟩
  orphan hkind hparent := by
    rw [placedAt_node] at hkind hparent
    obtain ⟨row, hrow⟩ := List.mem_iff_getElem?.mp
      (Model.mem_orphans_of_no_owner hi hkind hparent)
    obtain ⟨hspace, -, hsize⟩ := placedAt_orphan metrics place node hrow
    exact ⟨hspace, hsize⟩

/-- What is drawn inside a file is drawn inside a file of the drawing. -/
theorem exists_container (hids : m.DistinctIds) {p : PlacedNode α}
    (hp : p ∈ (ofModel metrics place m).nodes) {file : NodeId} (hspace : p.space = .inside file) :
    ∃ q ∈ (ofModel metrics place m).nodes, q.node.id = file ∧ q.node.kind = .file ∧
      q.space = .global ∧ (ofModel metrics place m).originOf? file = some q.position := by
  obtain ⟨i, hi⟩ := List.mem_iff_getElem?.mp hp
  rw [getElem?_nodes] at hi
  obtain ⟨node, hnode, rfl⟩ := Option.map_eq_some_iff.mp hi
  cases hfile : m.isFile i with
  | true =>
      obtain ⟨index, hindex⟩ := List.mem_iff_getElem?.mp (Model.mem_files.mpr hfile)
      rw [(placedAt_file metrics place node hindex).1] at hspace
      cases hspace
  | false =>
      rcases Model.member_or_orphan hnode hfile with ⟨f, slot, hslot⟩ | ⟨row, hrow⟩
      · rw [(placedAt_member metrics place node hids hslot).1] at hspace
        have hf := (Model.mem_childrenOf.mp (List.mem_of_getElem? hslot)).2.1
        obtain ⟨owner, howner, hkind⟩ := Model.isFile_iff.mp hf
        obtain ⟨index, hindex⟩ := List.mem_iff_getElem?.mp (Model.mem_files.mpr hf)
        obtain ⟨hglobal, hposition, -⟩ := placedAt_file metrics place owner hindex
        have hid : owner.id = file := by
          simpa [identifierAt, howner] using hspace
        have horigin : (ofModel metrics place m).originOf? owner.id =
            some (placedAt metrics place m f owner).position := by
          rw [originOf?_file hids hindex howner, hposition]
        refine ⟨placedAt metrics place m f owner, ?_, ?_, ?_, hglobal, ?_⟩
        · apply List.mem_of_getElem? (i := f)
          rw [getElem?_nodes, howner, Option.map_some]
        · rw [placedAt_node, hid]
        · rw [placedAt_node, hkind]
        · rw [← hid, horigin]
      · rw [(placedAt_orphan metrics place node hrow).1] at hspace
        cases hspace

/-- A node without a rectangle of a file and without a slot has a rectangle among the orphans. -/
theorem exists_orphanRect (hids : m.DistinctIds) {centers : List (Point α)}
    {bounds : Option (Rect α)} (hi : i < m.nodes.length)
    (hfiles : (fileRects metrics m centers).lookup i = none) (hslots : (slots m).lookup i = none) :
    ((orphanRects metrics m bounds).lookup i).isSome = true := by
  have hfile : m.isFile i = false := by
    rw [Bool.eq_false_iff]
    intro hfile
    obtain ⟨index, hindex⟩ := List.mem_iff_getElem?.mp (Model.mem_files.mpr hfile)
    rw [lookup_fileRects hindex] at hfiles
    cases hfiles
  rcases Model.member_or_orphan (List.getElem?_eq_getElem hi) hfile with
    ⟨f, slot, hslot⟩ | ⟨row, hrow⟩
  · rw [lookup_slots hids hslot] at hslots
    cases hslots
  · rw [lookup_orphanRects hrow, Option.isSome_some]

/--
Whatever places the files, the drawing holds the first node of every identifier, in
order and unchanged. Files and orphans stand in the drawing and members in their file,
each in the slot behind the members before it. Every file in which something is drawn
is itself drawn and is found again, and no orphan is left without a rectangle.
-/
theorem ofModel_draws_every_node_in_place (metrics : Metrics α)
    (place : Layout.FileGraph α → List (Point α)) (raws : List RawNode) (edges : List Edge) :
    let kept := firstOccurrences Node.id (classify raws)
    let m := Model.ofNodes (classify raws) edges
    let d := ofModel metrics place m
    let files := fileRects metrics m (place (fileGraph metrics m))
    d.nodes.map (·.node) = kept ∧
    (∀ i p, d.nodes[i]? = some p → InPlace metrics kept i p) ∧
    (∀ p ∈ d.nodes, ∀ file, p.space = .inside file →
      ∃ q ∈ d.nodes, q.node.id = file ∧ q.node.kind = .file ∧ q.space = .global ∧
        d.originOf? file = some q.position) ∧
    (∀ i < kept.length, files.lookup i = none → (slots m).lookup i = none →
      ((orphanRects metrics m (Rect.unionAll? (files.map (·.2)))).lookup i).isSome) := by
  intro kept m d files
  have hids : m.DistinctIds := Model.distinctIds_ofNodes (classify raws) edges
  have hkept : m.nodes = kept := firstByKey_eq_firstOccurrences (classify raws)
  refine ⟨?_, ?_, ?_, ?_⟩
  · rw [← hkept]
    exact map_node_ofModel metrics place m
  · intro i p hp
    rw [getElem?_nodes] at hp
    obtain ⟨node, hnode, rfl⟩ := Option.map_eq_some_iff.mp hp
    rw [← hkept]
    exact placedAt_inPlace hids hnode
  · intro p hp file hspace
    exact exists_container hids hp hspace
  · intro i hi hfiles hslots
    rw [← hkept] at hi
    exact exists_orphanRect hids hi hfiles hslots

/--
A member listed before its file, a member and a file under one identifier, a member
listed twice, a node that is its own parent, an empty parent, and a member of a member.
-/
def crowdedNodes : List RawNode :=
  [RawNode.member "a.py" "f", RawNode.file "a.py", { id := "a.py", parent := some "b.py" },
    RawNode.member "a.py" "f", RawNode.member "a.py" "g", { id := "x", parent := some "x" },
    { id := "y", parent := some "" }, { id := "z", parent := some "a.py::f" }]

/-- No center is given for the two files, and still all six nodes are drawn in their places. -/
theorem crowdedNodes_drawn :
    let kept := firstOccurrences Node.id (classify crowdedNodes)
    let d := ofModel (Metrics.standard : Metrics Float32) (fun _ => [])
      (Model.ofNodes (classify crowdedNodes) [])
    kept.map (·.id) = ["a.py::f", "a.py", "a.py::g", "x", "y", "z"] ∧
    d.nodes.map (·.node) = kept ∧
    (∃ p, d.nodes[2]? = some p ∧ p.space = .inside "a.py" ∧
      p.position = Metrics.standard.childOffset 1 ∧ (d.originOf? "a.py").isSome) ∧
    (∃ p, d.nodes[3]? = some p ∧ p.space = .global ∧ p.size = Metrics.standard.cardSize) := by
  intro kept d
  obtain ⟨hnodes, hplace, hcontainer, -⟩ :=
    ofModel_draws_every_node_in_place (Metrics.standard : Metrics Float32) (fun _ => [])
      crowdedNodes []
  have hfile : Node.ofRaw (RawNode.file "a.py") ∈ kept := List.mem_of_getElem? (i := 1) rfl
  have hmember := (hplace 2 _ rfl).member _ hfile (by decide) (by decide) rfl
  obtain ⟨q, -, -, -, -, hq⟩ := hcontainer _ (List.mem_of_getElem? (i := 2) rfl) "a.py" hmember.1
  refine ⟨by decide, hnodes, ⟨_, rfl, hmember.1, hmember.2.2, ?_⟩, ⟨_, rfl, ?_⟩⟩
  · rw [hq, Option.isSome_some]
  · exact (hplace 3 _ rfl).orphan (by decide) (by decide)

end CodeAtlas.Diagram
