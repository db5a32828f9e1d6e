import CodeAtlas.Proofs.Graph.Model

/-! # First occurrences and slots

A model keeps the first of several nodes with one identifier. Here this is said by
position: a node is kept if no node before it has its identifier. In the same way the
slot of a member is the number of kept members of its file that come before it.
-/

namespace CodeAtlas

/-- The elements whose key no earlier element has, in order. -/
def firstOccurrences {α β : Type} [BEq β] (key : α → β) (xs : List α) : List α :=
  (xs.zipIdx.filter fun (x, i) => !((xs.take i).map key).contains (key x)).map Prod.fst

section FirstByKey

variable {α β : Type} [BEq β] [LawfulBEq β] {key : α → β}

theorem firstByKey_eq_firstOccurrences (xs : List α) :
    firstByKey key xs = firstOccurrences key xs := by
  induction xs with
  | nil => rfl
  | cons a as ih =>
      -- Behind `a` an element has one more predecessor, and its position is one higher.
      have hbehind : ((as.zipIdx 1).filter
            fun (x, i) => !(((a :: as).take i).map key).contains (key x)) =
          ((as.zipIdx.filter fun (x, i) => !((as.take i).map key).contains (key x)).filter
            fun (x, _) => key x != key a).map fun (x, i) => (x, i + 1) := by
        rw [List.zipIdx_succ, List.filter_map, List.filter_filter]
        congr 2
        funext ⟨x, i⟩
        simp only [Function.comp_apply, List.take_succ_cons, List.map_cons, List.contains_cons,
          Bool.not_or, bne]
      rw [firstByKey, ih, firstOccurrences, firstOccurrences, List.zipIdx_cons,
        List.filter_cons_of_pos (by simp), hbehind, List.map_cons, List.map_map, List.filter_map]
      rfl

/-- Among the kept elements a key leads to the same element as among all. -/
theorem find?_firstByKey (xs : List α) (k : β) :
    ((firstByKey key xs).find? fun x => key x == k) = xs.find? fun x => key x == k := by
  induction xs with
  | nil => rfl
  | cons a as ih =>
      rw [firstByKey]
      by_cases hk : key a = k
      · simp [hk]
      · have hskip : ∀ b, (key b != key a && key b == k) = (key b == k) := by
          intro b
          by_cases hb : key b = k
          · simp [hb, Ne.symm hk]
          · simp [hb]
        rw [List.find?_cons_of_neg (by simpa using hk), List.find?_cons_of_neg (by simpa using hk),
          List.find?_filter, ← ih]
        simp only [Bool.decide_and, Bool.decide_eq_true, hskip]

theorem mem_firstByKey_iff {xs : List α} {x : α} :
    x ∈ firstByKey key xs ↔ (xs.find? fun y => key y == key x) = some x := by
  rw [← find?_firstByKey]
  refine ⟨fun hx => ?_, List.mem_of_find?_eq_some⟩
  cases hfind : (firstByKey key xs).find? fun y => key y == key x with
  | none => simpa using List.find?_eq_none.mp hfind x hx
  | some y =>
      have hkey : key y = key x := by simpa using List.find?_some hfind
      have hy := List.mem_of_find?_eq_some hfind
      rw [List.inj_on_of_nodup_map (nodup_map_firstByKey key xs) hy hx hkey]

end FirstByKey

/-- The number of an element among those that pass a test: how many do so before it. -/
theorem getElem?_positions {α : Type} {test : α → Bool} {xs : List α} {x : α} {i : ℕ}
    (hi : xs[i]? = some x) (hx : test x = true) :
    ((xs.zipIdx.filter fun e => test e.1).map Prod.snd)[(xs.take i).countP test]? = some i := by
  obtain ⟨hlt, rfl⟩ := List.getElem?_eq_some_iff.mp hi
  have hsplit : xs.zipIdx =
      (xs.take i).zipIdx ++ (xs[i], i) :: (xs.drop (i + 1)).zipIdx (i + 1) := by
    conv_lhs => rw [← List.take_append_drop i xs, List.drop_eq_getElem_cons hlt]
    rw [List.zipIdx_append, List.zipIdx_cons, List.length_take,
      Nat.min_eq_left (Nat.le_of_lt hlt), Nat.zero_add]
  have hbefore : (((xs.take i).zipIdx.filter fun e => test e.1).map Prod.snd).length =
      (xs.take i).countP test := by
    conv_rhs => rw [← List.zipIdx_map_fst 0 (xs.take i), List.countP_map]
    rw [List.length_map, List.countP_eq_length_filter]
    rfl
  rw [hsplit, List.filter_append, List.filter_cons_of_pos (by exact hx), List.map_append,
    List.map_cons, List.getElem?_append_right (Nat.le_of_eq hbefore), hbefore, Nat.sub_self,
    List.getElem?_cons_zero]

theorem NodeKind.isContainer_iff {k : NodeKind} : k.isContainer = true ↔ k = .file := by
  cases k <;> simp [NodeKind.isContainer]

theorem NodeKind.isContainer_eq_false {k : NodeKind} (h : k ≠ .file) : k.isContainer = false :=
  Bool.eq_false_iff.mpr (mt isContainer_iff.mp h)

namespace Model

variable {m : Model} {i f : ℕ} {node owner : Node}

/-- Is the node a member whose parent is the given file? -/
def isMemberOf (file : NodeId) (node : Node) : Bool :=
  node.parent == some file && !node.kind.isContainer

/-- How many of the first `i` nodes are members of the file. -/
def membersBefore (nodes : List Node) (i : ℕ) (file : NodeId) : ℕ :=
  (nodes.take i).countP (isMemberOf file)

theorem childrenOf_eq_positions (hf : m.nodes[f]? = some owner) (howner : owner.kind = .file) :
    m.childrenOf f = (m.nodes.zipIdx.filter fun e => isMemberOf owner.id e.1).map Prod.snd := by
  have hfile : ∀ e ∈ m.nodes.zipIdx, m.isFile e.2 = e.1.kind.isContainer := by
    intro e he
    exact isFile_eq (List.mem_zipIdx_iff_getElem?.mp he)
  rw [childrenOf, hf]
  simp only [howner, NodeKind.isContainer, if_true, positionsOf]
  rw [List.filter_map, List.filter_filter]
  congr 1
  apply List.filter_congr
  intro e he
  simp only [Function.comp_apply, hfile e he, isMemberOf, Bool.and_comm]

/-- A member stands behind the members of its file that come before it. -/
theorem getElem?_childrenOf (hf : m.nodes[f]? = some owner) (howner : owner.kind = .file)
    (hi : m.nodes[i]? = some node) (hnode : node.kind ≠ .file)
    (hparent : node.parent = some owner.id) :
    (m.childrenOf f)[membersBefore m.nodes i owner.id]? = some i := by
  rw [childrenOf_eq_positions hf howner]
  apply getElem?_positions hi
  simp [isMemberOf, hparent, NodeKind.isContainer_eq_false hnode]

/-- A node that is no file and whose parent is no file belongs to no file. -/
theorem mem_orphans_of_no_owner (hi : m.nodes[i]? = some node) (hnode : node.kind ≠ .file)
    (hparent : ∀ owner ∈ m.nodes, owner.kind = .file → node.parent ≠ some owner.id) :
    i ∈ m.orphans := by
  have hfile : m.isFile i = false := by
    rw [isFile_eq hi, NodeKind.isContainer_eq_false hnode]
  refine mem_orphans.mpr ⟨(List.getElem?_eq_some_iff.mp hi).1, hfile, ?_⟩
  intro f hf
  obtain ⟨-, hisFile, node', owner, hi', howner, hparent'⟩ := mem_childrenOf.mp hf
  obtain ⟨owner', howner', hkind⟩ := isFile_iff.mp hisFile
  rw [hi] at hi'
  cases hi'
  rw [howner] at howner'
  cases howner'
  exact hparent owner (List.mem_of_getElem? howner) hkind hparent'

end Model

end CodeAtlas
