import CodeAtlas.Proofs.Layout.CallOrder

/-! # Cards in the order of the listing

The height of a file is computed from the number of its members, and the place of a card
from the number of members before it. Seen from the origin of the drawing, every card lies
in its file, and the cards of a file follow each other downwards as their nodes are listed,
with the gap between cards.
-/

namespace CodeAtlas

/-! ## The order of a listing -/

section FirstByKey

variable {α β : Type} [BEq β] [LawfulBEq β] {key : α → β}

/-- Where a key is listed first. -/
def firstIndex (key : α → β) (xs : List α) (k : β) : ℕ :=
  xs.findIdx fun x => key x == k

theorem firstIndex_cons_self (a : α) (as : List α) : firstIndex key (a :: as) (key a) = 0 := by
  simp [firstIndex, List.findIdx_cons]

theorem firstIndex_cons_of_ne {a : α} {k : β} (as : List α) (h : k ≠ key a) :
    firstIndex key (a :: as) k = firstIndex key as k + 1 := by
  simp [firstIndex, List.findIdx_cons, beq_eq_false_iff_ne.mpr (Ne.symm h)]

/-- The elements that count stand in the order in which their keys are listed first. -/
theorem pairwise_firstIndex_firstByKey (xs : List α) :
    (firstByKey key xs).Pairwise fun a b =>
      firstIndex key xs (key a) < firstIndex key xs (key b) := by
  induction xs with
  | nil => exact List.Pairwise.nil
  | cons a as ih =>
      have hother : ∀ b ∈ (firstByKey key as).filter fun b => key b != key a,
          firstIndex key (a :: as) (key b) = firstIndex key as (key b) + 1 := by
        intro b hb
        exact firstIndex_cons_of_ne as (bne_iff_ne.mp (List.mem_filter.mp hb).2)
      rw [firstByKey, List.pairwise_cons]
      constructor
      · intro b hb
        rw [firstIndex_cons_self, hother b hb]
        omega
      · refine (ih.filter _).imp_of_mem ?_
        intro b c hb hc hlt
        rw [hother b hb, hother c hc]
        omega

theorem lt_of_firstIndex_lt {xs : List α} {i j : ℕ} {a b : α}
    (hi : (firstByKey key xs)[i]? = some a) (hj : (firstByKey key xs)[j]? = some b)
    (hlt : firstIndex key xs (key a) < firstIndex key xs (key b)) : i < j := by
  obtain ⟨hilt, rfl⟩ := List.getElem?_eq_some_iff.mp hi
  obtain ⟨hjlt, rfl⟩ := List.getElem?_eq_some_iff.mp hj
  rcases Nat.lt_trichotomy i j with hij | rfl | hji
  · exact hij
  · omega
  · have hgt := List.pairwise_iff_getElem.mp (pairwise_firstIndex_firstByKey xs) j i hjlt hilt hji
    omega

end FirstByKey

namespace Model

variable {m : Model} {i j : ℕ} {node : Node} {file : NodeId}

/-- A member that comes later has a later slot. -/
theorem membersBefore_lt {nodes : List Node} (hi : nodes[i]? = some node)
    (hmember : isMemberOf file node = true) (hij : i < j) :
    membersBefore nodes i file < membersBefore nodes j file := by
  have hnext : membersBefore nodes (i + 1) file = membersBefore nodes i file + 1 := by
    unfold membersBefore
    rw [List.take_add_one, hi, List.countP_append, Option.toList_some, List.countP_singleton,
      if_pos hmember]
  have hle : membersBefore nodes (i + 1) file ≤ membersBefore nodes j file :=
    (List.take_sublist_take_left hij).countP_le
  omega

end Model

/-! ## Boxes of members and files -/

namespace Diagram

def boxOf? {α : Type} [Scalar α] (d : Diagram α) (id : NodeId) : Option (Box α) :=
  d.boxes.find? fun box => box.id == id

variable {metrics : Metrics ℚ} {m : Model} {place : Layout.FileGraph ℚ → List (Point ℚ)}
  {p : PlacedNode ℚ} {file : NodeId} {i : ℕ} {node : Node}

theorem map_id_boxes (d : Diagram ℚ) : d.boxes.map (·.id) = d.nodes.map (·.node.id) := by
  simp [boxes]

theorem nodup_ids_boxes (metrics : Metrics ℚ) (place : Layout.FileGraph ℚ → List (Point ℚ))
    (hids : m.DistinctIds) : ((ofModel metrics place m).boxes.map (·.id)).Nodup := by
  rw [map_id_boxes]
  exact nodup_ids_ofModel metrics place hids

/-- The box of a node is found by its identifier, since no other node has it. -/
theorem exists_boxOf? (metrics : Metrics ℚ) (place : Layout.FileGraph ℚ → List (Point ℚ))
    (hids : m.DistinctIds) (hi : m.nodes[i]? = some node) :
    ∃ box, (ofModel metrics place m).boxOf? node.id = some box ∧ box.kind = node.kind ∧
      box.rect = rectAt metrics place m i node := by
  have hbox := getElem?_boxes metrics place m i
  rw [hi, Option.map_some] at hbox
  have hkept := List.mem_of_getElem? hbox
  rw [← firstByKey_eq_self (nodup_ids_boxes metrics place hids), mem_firstByKey_iff] at hkept
  exact ⟨_, hkept, rfl, rfl⟩

/-- The node number `i` is drawn as `card` inside `container`, which is the box of the file. -/
structure CardIn (metrics : Metrics ℚ) (m : Model) (d : Diagram ℚ) (file : NodeId)
    (p : PlacedNode ℚ) (i : ℕ) (card container : Box ℚ) : Prop where
  node : m.nodes[i]? = some p.node
  member : Model.isMemberOf file p.node = true
  cardBox : d.boxOf? p.node.id = some card
  fileBox : d.boxOf? file = some container
  isFile : container.kind = .file
  /-- The file is large enough for this card and those before it. -/
  fits : ∃ count, Model.membersBefore m.nodes i file < count ∧
    container.rect = Rect.ofSize container.rect.low (metrics.fileSize count)
  rect : card.rect = Rect.ofSize
    (container.rect.low + metrics.childOffset (Model.membersBefore m.nodes i file))
    metrics.cardSize

/-- What is drawn inside a file has a slot there, behind the members that come before it. -/
theorem exists_cardIn (hids : m.DistinctIds) (hp : p ∈ (ofModel metrics place m).nodes)
    (hspace : p.space = .inside file) :
    ∃ i card container, CardIn metrics m (ofModel metrics place m) file p i card container := by
  obtain ⟨q, hq, hid, hkind, -⟩ := exists_container hids hp hspace
  obtain ⟨i, node, hi, rfl⟩ := mem_nodes_iff.mp hp
  obtain ⟨f, owner, hf, rfl⟩ := mem_nodes_iff.mp hq
  rw [placedAt_node] at hid hkind
  subst hid
  obtain ⟨hnode, hparent⟩ := parent_of_inside hids hi hspace
  have hslot := Model.getElem?_childrenOf hf hkind hi hnode hparent
  obtain ⟨index, hindex⟩ := exists_fileIndex hslot
  obtain ⟨card, hcard, -, hcardRect⟩ := exists_boxOf? metrics place hids hi
  obtain ⟨container, hcontainer, hcontainerKind, hcontainerRect⟩ :=
    exists_boxOf? metrics place hids hf
  rw [rectAt_member hids hindex hslot] at hcardRect
  rw [rectAt_file hindex] at hcontainerRect
  refine ⟨i, card, container, ?_⟩
  exact {
    node := by rw [placedAt_node, hi]
    member := by simp [Model.isMemberOf, hparent, NodeKind.isContainer_eq_false hnode]
    cardBox := by rw [placedAt_node, hcard]
    fileBox := hcontainer
    isFile := by rw [hcontainerKind, hkind]
    fits := ⟨_, (List.getElem?_eq_some_iff.mp hslot).1, by rw [hcontainerRect]; rfl⟩
    rect := by rw [hcardRect, hcontainerRect] }

namespace CardIn

variable {d : Diagram ℚ} {card container : Box ℚ}

theorem covers (h : CardIn metrics m d file p i card container) (hm : metrics.NonNegative) :
    container.rect.covers card.rect = true := by
  obtain ⟨count, hlt, hrect⟩ := h.fits
  rw [hrect, h.rect]
  exact hm.fileSize_covers hlt container.rect.low

theorem gap_le (h : CardIn metrics m d file p i card container) {q : PlacedNode ℚ} {j : ℕ}
    {card' container' : Box ℚ} (h' : CardIn metrics m d file q j card' container')
    (hm : metrics.NonNegative) (hij : i < j) :
    card.rect.high.y + metrics.cardGap ≤ card'.rect.low.y := by
  have hsame : container' = container := Option.some.inj (h'.fileBox.symm.trans h.fileBox)
  have hrow := hm.row_add_gap_le_row (Model.membersBefore_lt h.node h.member hij)
  rw [h.rect, h'.rect, hsame]
  simp only [Rect.ofSize_high, Rect.ofSize_low, Point.add_y, Metrics.childOffset_y,
    Metrics.cardSize_y]
  linarith

end CardIn

/-! ## Cards of a drawing -/

/-- Every card lies in the box of its file. Of two cards in one file, the one whose node is listed
first ends above the other one, with at least the gap between cards. -/
theorem cards_stacked_in_file (metrics : Metrics ℚ) (nodes : List Node) (edges : List Edge)
    (hm : metrics.NonNegative) :
    let d := draw metrics nodes edges
    (d.boxes.map (·.id) = d.nodes.map (·.node.id) ∧ (d.boxes.map (·.id)).Nodup) ∧
      (∀ p ∈ d.nodes, ∀ file, p.space = .inside file →
        ∃ card container, d.boxOf? p.node.id = some card ∧ d.boxOf? file = some container ∧
          container.kind = .file ∧ container.rect.covers card.rect = true) ∧
      (∀ p ∈ d.nodes, ∀ q ∈ d.nodes, ∀ file, p.space = .inside file → q.space = .inside file →
        firstIndex Node.id nodes p.node.id < firstIndex Node.id nodes q.node.id →
          ∃ upper lower, d.boxOf? p.node.id = some upper ∧ d.boxOf? q.node.id = some lower ∧
            upper.rect.high.y + metrics.cardGap ≤ lower.rect.low.y) := by
  intro d
  have hids := Model.distinctIds_ofNodes nodes edges
  refine ⟨⟨map_id_boxes d, nodup_ids_boxes metrics _ hids⟩, ?_, ?_⟩
  · intro p hp file hspace
    obtain ⟨i, card, container, hcard⟩ := exists_cardIn hids hp hspace
    exact ⟨card, container, hcard.cardBox, hcard.fileBox, hcard.isFile, hcard.covers hm⟩
  · intro p hp q hq file hpfile hqfile hlisted
    obtain ⟨i, upper, container, hupper⟩ := exists_cardIn hids hp hpfile
    obtain ⟨j, lower, container', hlower⟩ := exists_cardIn hids hq hqfile
    have hij : i < j := lt_of_firstIndex_lt hupper.node hlower.node hlisted
    exact ⟨upper, lower, hupper.cardBox, hlower.cardBox, hupper.gap_le hlower hm hij⟩

/-- A member listed before its file and once more at the end, and a file without members. -/
def shelvedNodes : List Node :=
  classify [RawNode.member "a.py" "g", RawNode.file "b.py", RawNode.file "a.py",
    RawNode.member "a.py" "f", RawNode.member "a.py" "g"]

def shelvedDiagram : Diagram ℚ :=
  draw Metrics.standard shelvedNodes []

theorem shelvedNodes_stacked :
    (Metrics.standard : Metrics ℚ).NonNegative ∧
      ∃ upper lower container, shelvedDiagram.boxOf? "a.py::g" = some upper ∧
        shelvedDiagram.boxOf? "a.py::f" = some lower ∧
        shelvedDiagram.boxOf? "a.py" = some container ∧
        container.rect.covers lower.rect = true ∧ upper.rect.high.y + 25 ≤ lower.rect.low.y := by
  obtain ⟨-, hcovers, hgap⟩ := cards_stacked_in_file Metrics.standard shelvedNodes []
    Metrics.standard_nonNegative
  have hdrawn : shelvedDiagram.nodes.map (fun p => (p.node.id, p.space)) =
      [("a.py::g", .inside "a.py"), ("b.py", .global), ("a.py", .global),
        ("a.py::f", .inside "a.py")] := by
    decide +kernel
  have hnode : ∀ entry ∈ shelvedDiagram.nodes.map fun p => (p.node.id, p.space),
      ∃ p ∈ shelvedDiagram.nodes, (p.node.id, p.space) = entry :=
    fun _ hentry => List.mem_map.mp hentry
  rw [hdrawn] at hnode
  obtain ⟨p, hp, hpEq⟩ := hnode ("a.py::g", .inside "a.py") (by simp)
  obtain ⟨q, hq, hqEq⟩ := hnode ("a.py::f", .inside "a.py") (by simp)
  rw [Prod.mk.injEq] at hpEq hqEq
  have hlisted : firstIndex Node.id shelvedNodes p.node.id <
      firstIndex Node.id shelvedNodes q.node.id := by
    rw [hpEq.1, hqEq.1]
    decide
  obtain ⟨upper, lower, hupper, hlower, hle⟩ :=
    hgap p hp q hq "a.py" hpEq.2 hqEq.2 hlisted
  obtain ⟨card, container, hcard, hcontainer, -, hcovered⟩ := hcovers q hq "a.py" hqEq.2
  have hsame : card = lower := Option.some.inj (hcard.symm.trans hlower)
  rw [hsame] at hcovered
  rw [hpEq.1] at hupper
  rw [hqEq.1] at hlower
  exact ⟨Metrics.standard_nonNegative, upper, lower, container, hupper, hlower, hcontainer,
    hcovered, hle⟩

end Diagram

end CodeAtlas
