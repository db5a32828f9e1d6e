import CodeAtlas.Proofs.Graph.Owners

/-! # One place for every node

A model finds nodes by identifier, lists its files, lists the members of a file by the parent they
name, lists the orphans that are left over, and looks up the file of a node through its parent.
These answers agree whatever the nodes say of their parents: each position is a file, a member of
one file or an orphan, and the look-up tells which.
-/

namespace CodeAtlas.Model

variable {m : Model} {i f : ℕ} {id : NodeId}

theorem getElem?_of_isFile_eq_false (hi : i < m.nodes.length) (hfile : m.isFile i = false) :
    ∃ node, m.nodes[i]? = some node ∧ node.kind ≠ .file := by
  have hnode := List.getElem?_eq_getElem hi
  refine ⟨m.nodes[i], hnode, ?_⟩
  intro hkind
  rw [isFile_iff.mpr ⟨_, hnode, hkind⟩] at hfile
  cases hfile

theorem mem_ofNodes_iff {nodes : List Node} {edges : List Edge} {node : Node} :
    node ∈ (ofNodes nodes edges).nodes ∧ node.id = id ↔
      nodes.find? (fun other => other.id == id) = some node := by
  constructor
  · rintro ⟨hmem, rfl⟩
    exact mem_firstByKey_iff.mp hmem
  · intro hfind
    have hid : node.id = id := by simpa using List.find?_some hfind
    subst hid
    exact ⟨mem_firstByKey_iff.mpr hfind, rfl⟩

/-! ## Files, members and orphans together -/

theorem childrenOf_eq_nil (h : f ∉ m.files) : m.childrenOf f = [] := by
  apply List.eq_nil_iff_forall_not_mem.mpr
  intro i hi
  exact h (mem_files.mpr (mem_childrenOf.mp hi).2.1)

theorem lt_of_mem_childrenOf (h : i ∈ m.childrenOf f) : i < m.nodes.length := by
  obtain ⟨-, -, node, -, hi, -⟩ := mem_childrenOf.mp h
  exact (List.getElem?_eq_some_iff.mp hi).1

theorem mem_files_or_attached_or_orphans :
    i ∈ m.files ++ m.attached ++ m.orphans ↔ i < m.nodes.length := by
  rw [List.mem_append, List.mem_append, mem_files, mem_attached, mem_orphans]
  constructor
  · intro h
    rcases h with (hfile | ⟨f, hf⟩) | ⟨hlt, -⟩
    · exact lt_of_isFile hfile
    · exact lt_of_mem_childrenOf hf
    · exact hlt
  · intro hlt
    cases hfile : m.isFile i with
    | true => exact Or.inl (Or.inl rfl)
    | false =>
        by_cases hmember : ∃ f, i ∈ m.childrenOf f
        · exact Or.inl (Or.inr hmember)
        · exact Or.inr ⟨hlt, rfl, fun f hf => hmember ⟨f, hf⟩⟩

theorem DistinctIds.nodup_files_attached_orphans (hids : m.DistinctIds) :
    (m.files ++ m.attached ++ m.orphans).Nodup := by
  have hmembers : (m.files ++ m.attached).Nodup := by
    refine List.nodup_append.mpr ⟨m.nodup_files, hids.nodup_attached, ?_⟩
    rintro i hi j hj rfl
    obtain ⟨f, hf⟩ := mem_attached.mp hj
    rw [mem_files, (mem_childrenOf.mp hf).1] at hi
    cases hi
  refine List.nodup_append.mpr ⟨hmembers, m.nodup_orphans, ?_⟩
  rintro i hi j hj rfl
  obtain ⟨-, hfile, hmember⟩ := mem_orphans.mp hj
  rcases List.mem_append.mp hi with hi | hi
  · rw [mem_files, hfile] at hi
    cases hi
  · obtain ⟨f, hf⟩ := mem_attached.mp hi
    exact hmember f hf

theorem DistinctIds.files_attached_orphans_perm (hids : m.DistinctIds) :
    (m.files ++ m.attached ++ m.orphans).Perm (List.range m.nodes.length) := by
  rw [List.perm_ext_iff_of_nodup hids.nodup_files_attached_orphans List.nodup_range]
  intro i
  rw [mem_files_or_attached_or_orphans, List.mem_range]

/-! ## Looking up the file of a node -/

theorem DistinctIds.ownerOf?_eq_some_iff (hids : m.DistinctIds) (hi : i < m.nodes.length) :
    m.ownerOf? i = some f ↔ i ∈ m.files ∧ f = i ∨ i ∈ m.childrenOf f := by
  cases hfile : m.isFile i with
  | true =>
      obtain ⟨node, hnode, hkind⟩ := isFile_iff.mp hfile
      have hmember : i ∉ m.childrenOf f := fun hi => by
        rw [mem_childrenOf, hfile] at hi
        cases hi.1
      rw [ownerOf?_of_file hnode hkind, Option.some.injEq]
      constructor
      · rintro rfl
        exact Or.inl ⟨mem_files.mpr hfile, rfl⟩
      · rintro (⟨-, rfl⟩ | hi)
        · rfl
        · exact absurd hi hmember
  | false =>
      obtain ⟨node, hnode, hkind⟩ := getElem?_of_isFile_eq_false hi hfile
      rw [ownerOf?_of_member hids hnode hkind, mem_files, mem_childrenOf, hfile, isFile_iff]
      constructor
      · rintro ⟨owner, howner, hownerKind, hparent⟩
        exact Or.inr ⟨rfl, ⟨owner, howner, hownerKind⟩, node, owner, hnode, howner, hparent⟩
      · rintro (⟨hcontra, -⟩ | ⟨-, ⟨owner, howner, hownerKind⟩, _, _, hnode', howner', hparent⟩)
        · cases hcontra
        · rw [hnode] at hnode'
          rw [howner] at howner'
          cases hnode'
          cases howner'
          exact ⟨owner, howner, hownerKind, hparent⟩

theorem DistinctIds.ownerOf?_eq_none_iff (hids : m.DistinctIds) (hi : i < m.nodes.length) :
    m.ownerOf? i = none ↔ i ∈ m.orphans := by
  rw [Option.eq_none_iff_forall_ne_some, mem_orphans]
  constructor
  · intro hnone
    have hnot : ∀ f, ¬ (i ∈ m.files ∧ f = i ∨ i ∈ m.childrenOf f) := fun f h =>
      hnone f ((hids.ownerOf?_eq_some_iff hi).mpr h)
    refine ⟨hi, ?_, fun f hf => hnot f (Or.inr hf)⟩
    rw [Bool.eq_false_iff]
    exact fun hfile => hnot i (Or.inl ⟨mem_files.mpr hfile, rfl⟩)
  · rintro ⟨-, hfile, hmember⟩ f howner
    rcases (hids.ownerOf?_eq_some_iff hi).mp howner with ⟨hi', -⟩ | hf
    · rw [mem_files, hfile] at hi'
      cases hi'
    · exact hmember f hf

/--
No identifier repeats in a model, and it leads to the position of its node, the first one of the
listing that has it. Every position stands once among the files, the members of files and the
orphans, each in ascending order. The file of a node is the node itself for a file, the file among
whose members it stands, and none for an orphan.
-/
theorem ofNodes_partition (nodes : List Node) (edges : List Edge) :
    let m := ofNodes nodes edges
    ((m.nodes.map (·.id)).Nodup ∧
        (∀ id i, m.indexOf? id = some i ↔ ∃ node, m.nodes[i]? = some node ∧ node.id = id) ∧
        ∀ id node, node ∈ m.nodes ∧ node.id = id ↔
          nodes.find? (fun other => other.id == id) = some node) ∧
      ((m.files ++ m.files.flatMap m.childrenOf ++ m.orphans).Perm (List.range m.nodes.length) ∧
        ∀ f, f ∉ m.files → m.childrenOf f = []) ∧
      (m.files.Pairwise (· < ·) ∧ (∀ f, (m.childrenOf f).Pairwise (· < ·)) ∧
        m.orphans.Pairwise (· < ·)) ∧
      ∀ i < m.nodes.length,
        (∀ f, m.ownerOf? i = some f ↔ i ∈ m.files ∧ f = i ∨ i ∈ m.childrenOf f) ∧
          (m.ownerOf? i = none ↔ i ∈ m.orphans) := by
  intro m
  have hids : m.DistinctIds := distinctIds_ofNodes nodes edges
  refine ⟨⟨hids, ?_, ?_⟩, ⟨?_, ?_⟩, ⟨?_, ?_, ?_⟩, ?_⟩
  · intro id i
    exact indexOf?_eq_some_iff hids
  · intro id node
    exact mem_ofNodes_iff
  · exact hids.files_attached_orphans_perm
  · intro f hf
    exact childrenOf_eq_nil hf
  · exact pairwise_lt_files m
  · exact pairwise_lt_childrenOf m
  · exact pairwise_lt_orphans m
  · intro i hi
    exact ⟨fun f => hids.ownerOf?_eq_some_iff hi, hids.ownerOf?_eq_none_iff hi⟩

/--
A member before its file, a file that names a parent, a second node under its identifier, and
members that name themselves, a member and nothing.
-/
def unrulyNodes : List Node :=
  [⟨"a.py::f", .function, "f", [], "", some "a.py"⟩, ⟨"a.py", .file, "a.py", [], "", some "b.py"⟩,
    ⟨"b.py", .file, "b.py", [], "", none⟩, ⟨"a.py", .function, "a", [], "", some "b.py"⟩,
    ⟨"s", .function, "s", [], "", some "s"⟩, ⟨"t", .classDef, "t", [], "", some "a.py::f"⟩,
    ⟨"u", .function, "u", [], "", none⟩]

theorem unrulyNodes_partition :
    let m := ofNodes unrulyNodes []
    (m.files = [1, 2] ∧ m.childrenOf 1 = [0] ∧ m.orphans = [3, 4, 5]) ∧
      m.ownerOf? 0 = some 1 ∧ m.ownerOf? 1 = some 1 ∧ m.ownerOf? 3 = none := by
  intro m
  have hlisted : m.files = [1, 2] ∧ m.childrenOf 1 = [0] ∧ m.orphans = [3, 4, 5] := by decide
  have hlength : m.nodes.length = 6 := by decide
  obtain ⟨-, -, -, howner⟩ := ofNodes_partition unrulyNodes []
  refine ⟨hlisted, ?_, ?_, ?_⟩
  · have hchild : 0 ∈ m.childrenOf 1 := hlisted.2.1 ▸ List.mem_singleton.mpr rfl
    exact ((howner 0 (hlength ▸ by decide)).1 1).mpr (Or.inr hchild)
  · have hfile : 1 ∈ m.files := hlisted.1 ▸ List.mem_cons_self
    exact ((howner 1 (hlength ▸ by decide)).1 1).mpr (Or.inl ⟨hfile, rfl⟩)
  · exact (howner 3 (hlength ▸ by decide)).2.mpr (hlisted.2.2 ▸ List.mem_cons_self)

end CodeAtlas.Model
