import CodeAtlas.Graph.Model
import Mathlib.Data.List.Nodup

/-! # Files, members and orphans

In a model no identifier repeats, so a position is found by its identifier and a member
belongs to at most one file. Files, the members of each file and orphans are listed
without repetition.
-/

namespace CodeAtlas

theorem nodup_map_firstByKey {α β : Type} [BEq β] [LawfulBEq β] (key : α → β) (xs : List α) :
    ((firstByKey key xs).map key).Nodup := by
  induction xs with
  | nil => exact List.nodup_nil
  | cons a as ih =>
      rw [firstByKey, List.map_cons, List.nodup_cons]
      constructor
      · intro hmem
        obtain ⟨b, hb, hkey⟩ := List.mem_map.mp hmem
        have hne := (List.mem_filter.mp hb).2
        rw [hkey] at hne
        simp at hne
      · exact ih.sublist (List.filter_sublist.map key)

namespace Model

/-- No two nodes of the model have one identifier. -/
def DistinctIds (m : Model) : Prop :=
  (m.nodes.map (·.id)).Nodup

theorem distinctIds_ofNodes (nodes : List Node) (edges : List Edge) :
    (ofNodes nodes edges).DistinctIds :=
  nodup_map_firstByKey Node.id nodes

theorem isEmpty_ofNodes (nodes : List Node) (edges : List Edge) :
    (ofNodes nodes edges).isEmpty = nodes.isEmpty := by
  cases nodes <;> rfl

variable {m : Model} {i j f g : ℕ} {node owner : Node}

theorem DistinctIds.index_eq (h : m.DistinctIds) {other : Node} (hi : m.nodes[i]? = some node)
    (hj : m.nodes[j]? = some other) (hid : node.id = other.id) : i = j := by
  have hi' : (m.nodes.map (·.id))[i]? = some node.id := by simp [hi]
  have hj' : (m.nodes.map (·.id))[j]? = some node.id := by simp [hj, hid]
  have hlt : i < (m.nodes.map (·.id)).length := (List.getElem?_eq_some_iff.mp hi').1
  exact (List.getElem?_inj hlt h).mp (hi'.trans hj'.symm)

/-! ## Files -/

theorem isFile_iff : m.isFile i = true ↔ ∃ node, m.nodes[i]? = some node ∧ node.kind = .file := by
  unfold isFile
  cases m.nodes[i]? with
  | none => simp
  | some node => cases hkind : node.kind <;> simp [NodeKind.isContainer, hkind]

theorem isFile_eq (hi : m.nodes[i]? = some node) : m.isFile i = node.kind.isContainer := by
  simp [isFile, hi]

theorem lt_of_isFile (h : m.isFile i = true) : i < m.nodes.length := by
  obtain ⟨node, hi, -⟩ := isFile_iff.mp h
  exact (List.getElem?_eq_some_iff.mp hi).1

theorem mem_files : i ∈ m.files ↔ m.isFile i = true := by
  unfold files indices
  rw [List.mem_filter, List.mem_range]
  exact ⟨fun h => h.2, fun h => ⟨lt_of_isFile h, h⟩⟩

theorem pairwise_lt_files (m : Model) : m.files.Pairwise (· < ·) :=
  List.pairwise_lt_range.filter _

theorem nodup_files (m : Model) : m.files.Nodup :=
  (pairwise_lt_files m).imp Nat.ne_of_lt

/-! ## Members -/

theorem mem_positionsOf {nodes : List Node} {parent : NodeId} :
    i ∈ positionsOf nodes parent ↔ ∃ node, nodes[i]? = some node ∧ node.parent = some parent := by
  simp only [positionsOf, List.mem_map, List.mem_filter, Prod.exists, exists_eq_right,
    List.mem_zipIdx_iff_getElem?, beq_iff_eq]

theorem pairwise_lt_positionsOf (nodes : List Node) (parent : NodeId) :
    (positionsOf nodes parent).Pairwise (· < ·) := by
  have hsub : (positionsOf nodes parent).Sublist (nodes.zipIdx.map (·.2)) :=
    List.filter_sublist.map _
  refine List.Pairwise.sublist hsub ?_
  rw [List.zipIdx_map_snd]
  exact List.pairwise_lt_range'

theorem mem_childrenOf :
    i ∈ m.childrenOf f ↔ m.isFile i = false ∧ m.isFile f = true ∧
      ∃ node owner, m.nodes[i]? = some node ∧ m.nodes[f]? = some owner ∧
        node.parent = some owner.id := by
  cases hf : m.nodes[f]? with
  | none => simp [childrenOf, isFile, hf]
  | some owner =>
      rw [isFile_eq hf, childrenOf, hf]
      cases hkind : owner.kind.isContainer with
      | false => simp [hkind]
      | true => simp [hkind, mem_positionsOf, and_comm]

theorem pairwise_lt_childrenOf (m : Model) (f : ℕ) : (m.childrenOf f).Pairwise (· < ·) := by
  unfold childrenOf
  cases m.nodes[f]? with
  | none => exact List.Pairwise.nil
  | some owner =>
      dsimp only
      split
      · exact (pairwise_lt_positionsOf m.nodes owner.id).filter _
      · exact List.Pairwise.nil

theorem nodup_childrenOf (m : Model) (f : ℕ) : (m.childrenOf f).Nodup :=
  (pairwise_lt_childrenOf m f).imp Nat.ne_of_lt

/-- A member belongs to at most one file. -/
theorem DistinctIds.file_eq (h : m.DistinctIds) (hf : i ∈ m.childrenOf f)
    (hg : i ∈ m.childrenOf g) : f = g := by
  obtain ⟨-, -, node, owner, hi, howner, hparent⟩ := mem_childrenOf.mp hf
  obtain ⟨-, -, node', owner', hi', howner', hparent'⟩ := mem_childrenOf.mp hg
  rw [hi] at hi'
  cases hi'
  rw [hparent] at hparent'
  exact h.index_eq howner howner' (Option.some.inj hparent')

theorem DistinctIds.nodup_attached (h : m.DistinctIds) : m.attached.Nodup := by
  unfold attached
  rw [List.nodup_flatMap]
  refine ⟨fun f _ => nodup_childrenOf m f, ?_⟩
  refine (nodup_files m).imp ?_
  intro f g hne i hf hg
  exact hne (h.file_eq hf hg)

theorem mem_attached : i ∈ m.attached ↔ ∃ f, i ∈ m.childrenOf f := by
  unfold attached
  rw [List.mem_flatMap]
  refine ⟨fun ⟨f, _, hi⟩ => ⟨f, hi⟩, fun ⟨f, hi⟩ => ⟨f, ?_, hi⟩⟩
  exact mem_files.mpr (mem_childrenOf.mp hi).2.1

/-! ## Orphans -/

theorem mem_orphans :
    i ∈ m.orphans ↔ i < m.nodes.length ∧ m.isFile i = false ∧ ∀ f, i ∉ m.childrenOf f := by
  simp [orphans, indices, mem_attached]

theorem pairwise_lt_orphans (m : Model) : m.orphans.Pairwise (· < ·) :=
  List.pairwise_lt_range.filter _

theorem nodup_orphans (m : Model) : m.orphans.Nodup :=
  (pairwise_lt_orphans m).imp Nat.ne_of_lt

/-- A node that is no file has a slot in a file or a row among the orphans. -/
theorem member_or_orphan (hi : m.nodes[i]? = some node) (hfile : m.isFile i = false) :
    (∃ f slot : ℕ, (m.childrenOf f)[slot]? = some i) ∨ ∃ row : ℕ, m.orphans[row]? = some i := by
  by_cases hmember : ∃ f, i ∈ m.childrenOf f
  · obtain ⟨f, hf⟩ := hmember
    exact Or.inl ⟨f, List.mem_iff_getElem?.mp hf⟩
  · refine Or.inr (List.mem_iff_getElem?.mp (mem_orphans.mpr ⟨?_, hfile, ?_⟩))
    · exact (List.getElem?_eq_some_iff.mp hi).1
    · exact fun f hf => hmember ⟨f, hf⟩

end Model

end CodeAtlas
