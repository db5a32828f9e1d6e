import CodeAtlas.Proofs.Graph.Owners

/-! # Listing nodes in another order

The files of a model, the members of a file and the orphans are the positions of the
nodes that pass a test, in order. The nodes themselves, without their positions, can be
compared between two models that list the same nodes in different orders.
-/

namespace CodeAtlas

/-- The positions of the elements that pass a test. -/
def positionsWhere {α : Type} (test : α → Bool) (xs : List α) : List ℕ :=
  (xs.zipIdx.filter fun e => test e.1).map Prod.snd

section Positions

variable {α : Type} {test : α → Bool} {xs : List α}

/-- The number `k` of the elements that pass a test stands at the number `k` of their positions. -/
theorem getElem?_filter_eq_some_iff {k : ℕ} {x : α} :
    (xs.filter test)[k]? = some x ↔ ∃ i, (positionsWhere test xs)[k]? = some i ∧ xs[i]? = some x := by
  have hfilter : xs.filter test = (xs.zipIdx.filter fun e => test e.1).map Prod.fst := by
    conv_lhs => rw [← List.zipIdx_map_fst 0 xs]
    rw [List.filter_map]
    rfl
  rw [hfilter, positionsWhere, List.getElem?_map, List.getElem?_map]
  cases hk : (xs.zipIdx.filter fun e => test e.1)[k]? with
  | none => simp
  | some entry =>
      have hentry := (List.mem_filter.mp (List.mem_of_getElem? hk)).1
      have hx : xs[entry.2]? = some entry.1 := List.mem_zipIdx_iff_getElem?.mp hentry
      simp [hx]

theorem length_positionsWhere (test : α → Bool) (xs : List α) :
    (positionsWhere test xs).length = xs.countP test := by
  rw [positionsWhere, List.length_map, ← List.countP_eq_length_filter]
  conv_rhs => rw [← List.zipIdx_map_fst 0 xs, List.countP_map]
  rfl

theorem filter_range_eq_positionsWhere {atPosition : ℕ → Bool}
    (h : ∀ i x, xs[i]? = some x → atPosition i = test x) :
    (List.range xs.length).filter atPosition = positionsWhere test xs := by
  rw [positionsWhere, List.range_eq_range', ← List.zipIdx_map_snd, List.filter_map]
  congr 1
  apply List.filter_congr
  rintro ⟨x, i⟩ hmem
  exact h i x (List.mem_zipIdx_iff_getElem?.mp hmem)

end Positions

theorem firstByKey_eq_self {α β : Type} [BEq β] [LawfulBEq β] {key : α → β} {xs : List α}
    (h : (xs.map key).Nodup) : firstByKey key xs = xs := by
  induction xs with
  | nil => rfl
  | cons a as ih =>
      rw [List.map_cons, List.nodup_cons] at h
      rw [firstByKey, ih h.2, List.filter_eq_self.mpr]
      intro b hb
      rw [bne_iff_ne]
      intro hkey
      exact h.1 (hkey ▸ List.mem_map_of_mem hb)

namespace Model

variable {m m' : Model} {i j k : ℕ} {node owner : Node} {test test' : Node → Bool}

/-! ## Files, members and orphans among the nodes -/

/-- The files, in order. -/
def fileNodes (m : Model) : List Node :=
  m.nodes.filter (·.kind.isContainer)

/-- Is the node a member that names no file among the nodes `kept`? -/
def isOrphan (kept : List Node) (node : Node) : Bool :=
  !node.kind.isContainer &&
    !kept.any fun owner => owner.kind.isContainer && node.parent == some owner.id

theorem files_eq_positionsWhere (m : Model) :
    m.files = positionsWhere (·.kind.isContainer) m.nodes :=
  filter_range_eq_positionsWhere fun _ _ hi => isFile_eq hi

theorem isOrphan_iff {kept : List Node} :
    isOrphan kept node = true ↔ node.kind ≠ .file ∧
      ∀ owner ∈ kept, owner.kind = .file → node.parent ≠ some owner.id := by
  simp [isOrphan, ← NodeKind.isContainer_iff]

theorem orphans_eq_positionsWhere (m : Model) :
    m.orphans = positionsWhere (isOrphan m.nodes) m.nodes := by
  apply filter_range_eq_positionsWhere
  intro i node hi
  rw [Bool.eq_iff_iff, isOrphan_iff]
  constructor
  · intro hlone
    have hlt : i < m.nodes.length := (List.getElem?_eq_some_iff.mp hi).1
    have horphan : i ∈ m.orphans := List.mem_filter.mpr ⟨List.mem_range.mpr hlt, hlone⟩
    obtain ⟨-, hfile, hmember⟩ := mem_orphans.mp horphan
    refine ⟨?_, ?_⟩
    · intro hkind
      rw [isFile_iff.mpr ⟨node, hi, hkind⟩] at hfile
      cases hfile
    · intro owner howner hkind hparent
      obtain ⟨f, hf⟩ := List.mem_iff_getElem?.mp howner
      exact hmember f (mem_childrenOf.mpr
        ⟨hfile, isFile_iff.mpr ⟨owner, hf, hkind⟩, node, owner, hi, hf, hparent⟩)
  · rintro ⟨hkind, hparent⟩
    exact (List.mem_filter.mp (mem_orphans_of_no_owner hi hkind hparent)).2

theorem length_childrenOf (hi : m.nodes[i]? = some owner) (hkind : owner.kind = .file) :
    (m.childrenOf i).length = m.nodes.countP (isMemberOf owner.id) := by
  rw [childrenOf_eq_positions hi hkind]
  exact length_positionsWhere _ _

theorem getElem?_fileNodes :
    m.fileNodes[k]? = some node ↔ ∃ f, m.files[k]? = some f ∧ m.nodes[f]? = some node := by
  rw [files_eq_positionsWhere]
  exact getElem?_filter_eq_some_iff

/-- In a model without repeated identifiers a node keeps its number among those that pass a test. -/
theorem DistinctIds.getElem?_positionsWhere (hids : m'.DistinctIds)
    (hsame : (m'.nodes.filter test')[j]? = (m.nodes.filter test)[k]?) {i' : ℕ}
    (hi : m.nodes[i]? = some node) (hi' : m'.nodes[i']? = some node)
    (hk : (positionsWhere test m.nodes)[k]? = some i) :
    (positionsWhere test' m'.nodes)[j]? = some i' := by
  rw [getElem?_filter_eq_some_iff.mpr ⟨i, hk, hi⟩] at hsame
  obtain ⟨index, hindex, hnode⟩ := getElem?_filter_eq_some_iff.mp hsame
  rw [hindex, hids.index_eq hnode hi' rfl]

/-! ## Another order -/

/-- The same nodes in another order that keeps the members of each file and the orphans in line. -/
structure Relisted (nodes nodes' : List Node) : Prop where
  perm : nodes'.Perm nodes
  members : ∀ owner ∈ nodes, owner.kind = .file →
    nodes'.filter (isMemberOf owner.id) = nodes.filter (isMemberOf owner.id)
  orphans : nodes'.filter (isOrphan nodes') = nodes.filter (isOrphan nodes)

theorem Relisted.distinctIds (h : Relisted m.nodes m'.nodes) (hids : m.DistinctIds) :
    m'.DistinctIds :=
  (h.perm.map _).nodup_iff.mpr hids

end Model

end CodeAtlas
