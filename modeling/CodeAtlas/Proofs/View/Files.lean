import CodeAtlas.Proofs.Explorer.FilePaths
import CodeAtlas.Proofs.Layout.Completeness
import CodeAtlas.View.Basic

/-! # Files in the folder tree and in the diagram

The diagram draws the first of several nodes with one identifier, and the folder tree
lists every identifier under which a file was reported. The two hold the same files
unless an identifier is reported as a member first and as a file later: such a file is
listed and not drawn.
-/

namespace CodeAtlas

namespace Snapshot

/-- The node that counts among those with the given identifier. -/
def first? (s : Snapshot) (id : NodeId) : Option RawNode :=
  s.nodes.find? fun raw => raw.id == id

/-- The identifier is reported as a file, but as a member before. -/
def FileBehindMember (s : Snapshot) (id : NodeId) : Prop :=
  (∃ raw ∈ s.nodes, raw.id = id ∧ raw.kind = .file) ∧
    ∃ first, s.first? id = some first ∧ first.kind ≠ .file

theorem mem_fileIdentifiers_classify {raws : List RawNode} {id : NodeId} :
    id ∈ fileIdentifiers (classify raws) ↔ ∃ raw ∈ raws, raw.id = id ∧ raw.kind = .file := by
  simp only [fileIdentifiers, classify, List.mem_map, List.mem_filter, NodeKind.isContainer_iff]
  constructor
  · rintro ⟨node, ⟨⟨raw, hraw, rfl⟩, hfile⟩, rfl⟩
    exact ⟨raw, hraw, rfl, hfile⟩
  · rintro ⟨raw, hraw, rfl, hfile⟩
    exact ⟨Node.ofRaw raw, ⟨⟨raw, hraw, rfl⟩, hfile⟩, rfl⟩

/-- A file counts under an identifier exactly when the first node with it is a file. -/
theorem exists_file_firstByKey_iff (s : Snapshot) (id : NodeId) :
    (∃ node ∈ firstByKey (·.id) (classify s.nodes), node.kind = .file ∧ node.id = id) ↔
      ∃ first, s.first? id = some first ∧ first.kind = .file := by
  have hfind : ∀ id, ((classify s.nodes).find? fun node => node.id == id) =
      (s.first? id).map Node.ofRaw := by
    intro id
    rw [classify, List.find?_map]
    rfl
  constructor
  · rintro ⟨node, hnode, hfile, rfl⟩
    rw [mem_firstByKey_iff, hfind] at hnode
    obtain ⟨first, hfirst, rfl⟩ := Option.map_eq_some_iff.mp hnode
    exact ⟨first, hfirst, hfile⟩
  · rintro ⟨first, hfirst, hfile⟩
    have hid : first.id = id := by simpa using List.find?_some hfirst
    subst hid
    refine ⟨Node.ofRaw first, ?_, hfile, rfl⟩
    rw [mem_firstByKey_iff, hfind]
    exact Option.map_eq_some_iff.mpr ⟨first, hfirst, rfl⟩

end Snapshot

namespace View

/-- The paths of the files in the folder tree. -/
def listedFiles (v : View) : List String :=
  Explorer.Entry.filePathsAll v.tree

/-- The identifiers of the files in the diagram that are no dependencies. -/
def drawnFiles (v : View) : List NodeId :=
  ((v.diagram.nodes.filter fun p => p.node.kind = .file).map fun p => p.node.id).filter
    fun id => !NodeId.isDependency id

section Build

variable (generation : ℕ) (snapshot : Snapshot) (metrics : Metrics Float32)

theorem map_node_build : (build generation snapshot metrics).diagram.nodes.map (·.node) =
    firstByKey (·.id) (classify snapshot.nodes) :=
  Diagram.map_node_ofModel metrics _ (Model.ofNodes (classify snapshot.nodes) snapshot.edges)

theorem mem_listedFiles {path : String} :
    path ∈ (build generation snapshot metrics).listedFiles ↔
      NodeId.isDependency path = false ∧
        ∃ raw ∈ snapshot.nodes, raw.id = path ∧ raw.kind = .file := by
  rw [← Snapshot.mem_fileIdentifiers_classify, and_comm]
  exact Explorer.Entry.mem_filePathsAll_ofIdentifiers

theorem nodup_listedFiles : (build generation snapshot metrics).listedFiles.Nodup :=
  Explorer.Entry.nodup_filePathsAll_ofIdentifiers _

theorem mem_drawnFiles {id : NodeId} :
    id ∈ (build generation snapshot metrics).drawnFiles ↔
      NodeId.isDependency id = false ∧
        ∃ first, snapshot.first? id = some first ∧ first.kind = .file := by
  rw [← Snapshot.exists_file_firstByKey_iff, ← map_node_build generation snapshot metrics]
  simp only [drawnFiles, List.mem_filter, List.mem_map, decide_eq_true_eq, Bool.not_eq_true']
  constructor
  · rintro ⟨⟨p, ⟨hp, hfile⟩, rfl⟩, hdependency⟩
    exact ⟨hdependency, p.node, ⟨p, hp, rfl⟩, hfile, rfl⟩
  · rintro ⟨hdependency, node, ⟨p, hp, rfl⟩, hfile, rfl⟩
    exact ⟨⟨p, ⟨hp, hfile⟩, rfl⟩, hdependency⟩

theorem nodup_drawnFiles : (build generation snapshot metrics).drawnFiles.Nodup := by
  have hids : ((build generation snapshot metrics).diagram.nodes.map fun p => p.node.id).Nodup := by
    have hnodes := nodup_map_firstByKey (fun node : Node => node.id) (classify snapshot.nodes)
    rw [← map_node_build generation snapshot metrics, List.map_map] at hnodes
    exact hnodes
  exact (hids.sublist (List.filter_sublist.map _)).filter _

/-- What is listed and not drawn are the files that come behind a member of their name. -/
theorem mem_listedFiles_iff_drawn {path : String} :
    path ∈ (build generation snapshot metrics).listedFiles ↔
      path ∈ (build generation snapshot metrics).drawnFiles ∨
        NodeId.isDependency path = false ∧ snapshot.FileBehindMember path := by
  rw [mem_listedFiles, mem_drawnFiles, ← and_or_left]
  refine and_congr_right fun _ => ?_
  constructor
  · rintro ⟨raw, hraw, hid, hfile⟩
    have hsome : (snapshot.first? path).isSome = true :=
      List.find?_isSome.mpr ⟨raw, hraw, by simpa using hid⟩
    obtain ⟨first, hfirst⟩ := Option.isSome_iff_exists.mp hsome
    by_cases hkind : first.kind = .file
    · exact Or.inl ⟨first, hfirst, hkind⟩
    · exact Or.inr ⟨⟨raw, hraw, hid, hfile⟩, first, hfirst, hkind⟩
  · rintro (⟨first, hfirst, hfile⟩ | ⟨hlisted, -⟩)
    · exact ⟨first, List.mem_of_find?_eq_some hfirst, by simpa using List.find?_some hfirst, hfile⟩
    · exact hlisted

theorem not_mem_drawnFiles {path : String} (h : snapshot.FileBehindMember path) :
    path ∉ (build generation snapshot metrics).drawnFiles := by
  obtain ⟨-, first, hfirst, hmember⟩ := h
  rw [mem_drawnFiles]
  rintro ⟨-, first', hfirst', hfile⟩
  rw [hfirst] at hfirst'
  cases hfirst'
  exact hmember hfile

end Build

/--
The tree lists, each once, the paths under which some file was reported; the diagram
draws, each once, those of them whose first node is a file. So what is drawn is listed,
and both hold the same files exactly when no path is reported as a member before it is
reported as a file.
-/
theorem listedFiles_perm_drawnFiles_iff (generation : ℕ) (snapshot : Snapshot)
    (metrics : Metrics Float32) :
    let v := build generation snapshot metrics
    v.listedFiles.Nodup ∧ v.drawnFiles.Nodup ∧
    (∀ path, path ∈ v.listedFiles ↔ NodeId.isDependency path = false ∧
      ∃ raw ∈ snapshot.nodes, raw.id = path ∧ raw.kind = .file) ∧
    (∀ path, path ∈ v.drawnFiles ↔ NodeId.isDependency path = false ∧
      ∃ first, snapshot.first? path = some first ∧ first.kind = .file) ∧
    (∀ path ∈ v.drawnFiles, path ∈ v.listedFiles) ∧
    (v.listedFiles.Perm v.drawnFiles ↔
      ∀ path, NodeId.isDependency path = false → ¬snapshot.FileBehindMember path) := by
  intro v
  have hlisted : v.listedFiles.Nodup := nodup_listedFiles generation snapshot metrics
  have hdrawn : v.drawnFiles.Nodup := nodup_drawnFiles generation snapshot metrics
  have hmem : ∀ path, path ∈ v.listedFiles ↔ path ∈ v.drawnFiles ∨
      NodeId.isDependency path = false ∧ snapshot.FileBehindMember path :=
    fun _ => mem_listedFiles_iff_drawn generation snapshot metrics
  refine ⟨hlisted, hdrawn, fun _ => mem_listedFiles generation snapshot metrics,
    fun _ => mem_drawnFiles generation snapshot metrics,
    fun path h => (hmem path).mpr (Or.inl h), ?_⟩
  rw [List.perm_ext_iff_of_nodup hlisted hdrawn]
  constructor
  · intro hsame path hdependency hbehind
    apply not_mem_drawnFiles generation snapshot metrics hbehind
    exact (hsame path).mp ((hmem path).mpr (Or.inr ⟨hdependency, hbehind⟩))
  · intro hnone path
    rw [hmem]
    exact or_iff_left fun ⟨hdependency, hbehind⟩ => hnone path hdependency hbehind

/-- One identifier, reported as a member of a missing file and then as a file. -/
def memberBeforeFile : Snapshot where
  nodes := [{ id := "a.py", parent := some "b.py" }, { id := "a.py" }]

/-- The tree lists a file where the diagram draws a card. -/
theorem memberBeforeFile_listed_not_drawn :
    "a.py" ∈ (build 1 memberBeforeFile Metrics.standard).listedFiles ∧
    "a.py" ∉ (build 1 memberBeforeFile Metrics.standard).drawnFiles := by
  have hbehind : memberBeforeFile.FileBehindMember "a.py" := by
    refine ⟨⟨{ id := "a.py" }, by simp [memberBeforeFile], rfl, rfl⟩,
      { id := "a.py", parent := some "b.py" }, rfl, by decide⟩
  refine ⟨?_, not_mem_drawnFiles 1 memberBeforeFile Metrics.standard hbehind⟩
  rw [mem_listedFiles_iff_drawn]
  exact Or.inr ⟨by decide, hbehind⟩

end View

end CodeAtlas
