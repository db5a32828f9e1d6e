import CodeAtlas.Proofs.Graph.Occurrences

/-! # The file that holds a node

A model looks up the file of a node through positions. Said of the nodes alone, a file
holds itself and the members that name it, so the order of the nodes plays no part. An
edge leads from one file to another unless an end is unknown, an end is an orphan, or
both ends are held by one file.
-/

namespace CodeAtlas.Model

/-- Among the nodes `kept` there is one with the identifier, and the file `owner` holds it. -/
def Holds (kept : List Node) (owner : Node) (id : NodeId) : Prop :=
  owner ∈ kept ∧ owner.kind = .file ∧
    ∃ node ∈ kept, node.id = id ∧
      (node = owner ∨ node.kind ≠ .file ∧ node.parent = some owner.id)

/-- No node has the identifier. -/
def Unknown (kept : List Node) (id : NodeId) : Prop :=
  ∀ node ∈ kept, node.id ≠ id

/-- The node with the identifier is a member that names no file. -/
def Orphaned (kept : List Node) (id : NodeId) : Prop :=
  ∃ node ∈ kept, node.id = id ∧ node.kind ≠ .file ∧
    ∀ owner ∈ kept, owner.kind = .file → node.parent ≠ some owner.id

/-- The edge does not lead from one file to another. -/
inductive Idle (kept : List Node) (edge : Edge) : Prop
  | unknownEnd (id : NodeId) (hend : edge.touches id = true) (hunknown : Unknown kept id)
  | orphanEnd (id : NodeId) (hend : edge.touches id = true) (horphan : Orphaned kept id)
  | oneFile (owner : Node) (hsource : Holds kept owner edge.source)
      (htarget : Holds kept owner edge.target)

variable {m : Model} {i f : ℕ} {node owner : Node} {id : NodeId} {edge : Edge}

theorem Holds.of_perm {kept kept' : List Node} (hperm : kept'.Perm kept)
    (h : Holds kept owner id) : Holds kept' owner id := by
  obtain ⟨howner, hfile, node, hnode, hrest⟩ := h
  exact ⟨hperm.mem_iff.mpr howner, hfile, node, hperm.mem_iff.mpr hnode, hrest⟩

theorem indexOf?_eq_some_iff (hids : m.DistinctIds) :
    m.indexOf? id = some i ↔ ∃ node, m.nodes[i]? = some node ∧ node.id = id := by
  unfold indexOf?
  constructor
  · intro h
    obtain ⟨hlt, hid, -⟩ := List.findIdx?_eq_some_iff_getElem.mp h
    exact ⟨m.nodes[i], List.getElem?_eq_getElem hlt, by simpa using hid⟩
  · rintro ⟨node, hi, hid⟩
    cases hfind : m.nodes.findIdx? fun node => node.id == id with
    | none =>
        have hne := List.findIdx?_eq_none_iff.mp hfind node (List.mem_of_getElem? hi)
        simp [hid] at hne
    | some j =>
        obtain ⟨hlt, hid', -⟩ := List.findIdx?_eq_some_iff_getElem.mp hfind
        have hother : m.nodes[j].id = node.id := by simpa [hid] using hid'
        rw [hids.index_eq (List.getElem?_eq_getElem hlt) hi hother]

theorem indexOf?_eq_none_iff : m.indexOf? id = none ↔ Unknown m.nodes id := by
  simp [indexOf?, Unknown]

theorem ownerOf?_of_file (hi : m.nodes[i]? = some node) (hkind : node.kind = .file) :
    m.ownerOf? i = some i := by
  have hfile : m.isFile i = true := isFile_iff.mpr ⟨node, hi, hkind⟩
  simp [ownerOf?, hfile]

/-- A member is owned by the file that its parent names. -/
theorem ownerOf?_of_member (hids : m.DistinctIds) (hi : m.nodes[i]? = some node)
    (hkind : node.kind ≠ .file) :
    m.ownerOf? i = some f ↔
      ∃ owner, m.nodes[f]? = some owner ∧ owner.kind = .file ∧ node.parent = some owner.id := by
  have hfile : m.isFile i = false := by
    rw [isFile_eq hi, NodeKind.isContainer_eq_false hkind]
  simp only [ownerOf?, hfile, hi, Bool.false_eq_true, if_false, Option.bind_eq_bind,
    Option.bind_some]
  constructor
  · intro h
    obtain ⟨parent, hparent, h⟩ := Option.bind_eq_some_iff.mp h
    obtain ⟨j, hj, h⟩ := Option.bind_eq_some_iff.mp h
    obtain ⟨hjfile, hjf⟩ := Option.ite_none_right_eq_some.mp h
    cases hjf
    obtain ⟨owner, howner, hid⟩ := (indexOf?_eq_some_iff hids).mp hj
    obtain ⟨owner', howner', hkind'⟩ := isFile_iff.mp hjfile
    rw [howner] at howner'
    cases howner'
    exact ⟨owner, howner, hkind', by rw [hparent, hid]⟩
  · rintro ⟨owner, howner, hkind', hparent⟩
    have hindex : m.indexOf? owner.id = some f := (indexOf?_eq_some_iff hids).mpr ⟨owner, howner, rfl⟩
    have howned : m.isFile f = true := isFile_iff.mpr ⟨owner, howner, hkind'⟩
    simp [hparent, hindex, howned]

/-- Looking up the file of a node finds the file that holds it. -/
theorem fileOf?_eq_some_iff (hids : m.DistinctIds) :
    m.fileOf? id = some f ↔ ∃ owner, m.nodes[f]? = some owner ∧ Holds m.nodes owner id := by
  unfold fileOf?
  rw [Option.bind_eq_some_iff]
  constructor
  · rintro ⟨i, hi, howner⟩
    obtain ⟨node, hnode, hid⟩ := (indexOf?_eq_some_iff hids).mp hi
    have hmem := List.mem_of_getElem? hnode
    by_cases hkind : node.kind = .file
    · rw [ownerOf?_of_file hnode hkind] at howner
      cases howner
      exact ⟨node, hnode, hmem, hkind, node, hmem, hid, Or.inl rfl⟩
    · obtain ⟨owner, hf, hfile, hparent⟩ := (ownerOf?_of_member hids hnode hkind).mp howner
      exact ⟨owner, hf, List.mem_of_getElem? hf, hfile, node, hmem, hid, Or.inr ⟨hkind, hparent⟩⟩
  · rintro ⟨owner, hf, -, hfile, node, hnode, hid, hheld⟩
    rcases hheld with rfl | ⟨hkind, hparent⟩
    · exact ⟨f, (indexOf?_eq_some_iff hids).mpr ⟨node, hf, hid⟩, ownerOf?_of_file hf hfile⟩
    · obtain ⟨i, hi⟩ := List.mem_iff_getElem?.mp hnode
      exact ⟨i, (indexOf?_eq_some_iff hids).mpr ⟨node, hi, hid⟩,
        (ownerOf?_of_member hids hi hkind).mpr ⟨owner, hf, hfile, hparent⟩⟩

/-- No file is found for a node that is not there, and none for an orphan. -/
theorem fileOf?_eq_none_iff (hids : m.DistinctIds) :
    m.fileOf? id = none ↔ Unknown m.nodes id ∨ Orphaned m.nodes id := by
  constructor
  · intro hnone
    have hunheld : ∀ owner, ¬ Holds m.nodes owner id := by
      intro owner hholds
      obtain ⟨f, hf⟩ := List.mem_iff_getElem?.mp hholds.1
      rw [(fileOf?_eq_some_iff hids).mpr ⟨owner, hf, hholds⟩] at hnone
      cases hnone
    by_cases hknown : ∃ node ∈ m.nodes, node.id = id
    · obtain ⟨node, hnode, hid⟩ := hknown
      have hkind : node.kind ≠ .file := fun hfile =>
        hunheld node ⟨hnode, hfile, node, hnode, hid, Or.inl rfl⟩
      exact Or.inr ⟨node, hnode, hid, hkind, fun owner howner hfile hparent =>
        hunheld owner ⟨howner, hfile, node, hnode, hid, Or.inr ⟨hkind, hparent⟩⟩⟩
    · exact Or.inl fun node hnode hid => hknown ⟨node, hnode, hid⟩
  · rintro (hunknown | ⟨node, hnode, hid, hkind, horphan⟩)
    · rw [fileOf?, indexOf?_eq_none_iff.mpr hunknown, Option.bind_none]
    · obtain ⟨i, hi⟩ := List.mem_iff_getElem?.mp hnode
      rw [fileOf?, (indexOf?_eq_some_iff hids).mpr ⟨node, hi, hid⟩, Option.bind_some,
        Option.eq_none_iff_forall_ne_some]
      intro f howner
      obtain ⟨owner, hf, hfile, hparent⟩ := (ownerOf?_of_member hids hi hkind).mp howner
      exact horphan owner (List.mem_of_getElem? hf) hfile hparent

/-- An edge is lifted to an edge between files unless it is idle. -/
theorem liftEdge?_eq_none_iff (hids : m.DistinctIds) :
    m.liftEdge? edge = none ↔ Idle m.nodes edge := by
  have htouch : ∀ id, edge.touches id = true ↔ edge.source = id ∨ edge.target = id := by
    simp [Edge.touches]
  have hend : ∀ id, edge.touches id = true → m.fileOf? id = none → Idle m.nodes edge := by
    intro id hid hnone
    rcases (fileOf?_eq_none_iff hids).mp hnone with hunknown | horphan
    · exact .unknownEnd id hid hunknown
    · exact .orphanEnd id hid horphan
  constructor
  · intro hnone
    cases hs : m.fileOf? edge.source with
    | none => exact hend _ ((htouch _).mpr (Or.inl rfl)) hs
    | some s =>
        cases ht : m.fileOf? edge.target with
        | none => exact hend _ ((htouch _).mpr (Or.inr rfl)) ht
        | some t =>
            have hst : s = t := by simpa [liftEdge?, hs, ht] using hnone
            subst hst
            obtain ⟨owner, hf, hsource⟩ := (fileOf?_eq_some_iff hids).mp hs
            obtain ⟨owner', hf', htarget⟩ := (fileOf?_eq_some_iff hids).mp ht
            rw [hf] at hf'
            cases hf'
            exact .oneFile owner hsource htarget
  · intro hidle
    cases hidle with
    | oneFile owner hsource htarget =>
        obtain ⟨f, hf⟩ := List.mem_iff_getElem?.mp hsource.1
        simp [liftEdge?, (fileOf?_eq_some_iff hids).mpr ⟨owner, hf, hsource⟩,
          (fileOf?_eq_some_iff hids).mpr ⟨owner, hf, htarget⟩]
    | unknownEnd id hid hunknown =>
        have hnone := (fileOf?_eq_none_iff hids).mpr (Or.inl hunknown)
        rcases (htouch id).mp hid with rfl | rfl <;> simp [liftEdge?, hnone]
    | orphanEnd id hid horphan =>
        have hnone := (fileOf?_eq_none_iff hids).mpr (Or.inr horphan)
        rcases (htouch id).mp hid with rfl | rfl <;> simp [liftEdge?, hnone]

end CodeAtlas.Model
