import CodeAtlas.Layout.Metrics
import Mathlib.Algebra.Order.Field.Rat
import Mathlib.Tactic.Linarith

/-! # Exact drawings

Over the rationals the operations of a drawing are those of an ordered field. The
lemmas below say so component by component, so that what follows is linear
arithmetic: when rectangles are apart, when one covers another, and that a file is
large enough for its cards.
-/

namespace CodeAtlas

namespace Scalar

theorem half_eq (a : ℚ) : Scalar.half a = a / 2 := rfl

theorem larger_eq (a b : ℚ) : Scalar.larger a b = max a b := rfl

theorem smaller_eq (a b : ℚ) : Scalar.smaller a b = min a b := rfl

theorem le_foldl_min_iff (xs : List ℚ) (start b : ℚ) :
    b ≤ xs.foldl min start ↔ ∀ x ∈ start :: xs, b ≤ x := by
  induction xs generalizing start with
  | nil => simp
  | cons first rest ih => simp [ih, and_assoc]

theorem foldl_min_mem (xs : List ℚ) (start : ℚ) : xs.foldl min start ∈ start :: xs := by
  induction xs generalizing start with
  | nil => exact List.mem_cons_self
  | cons first rest ih =>
      have hmin : min start first = start ∨ min start first = first := min_choice start first
      rcases List.mem_cons.mp (ih (min start first)) with heq | hmem
      · rw [List.foldl_cons, heq]
        rcases hmin with h | h <;> simp [h]
      · exact List.mem_cons_of_mem _ (List.mem_cons_of_mem _ hmem)

theorem least_le {xs : List ℚ} {x : ℚ} (h : x ∈ xs) : Scalar.least xs ≤ x := by
  cases xs with
  | nil => cases h
  | cons first rest => exact (le_foldl_min_iff rest first _).mp (le_refl _) x h

theorem least_mem {xs : List ℚ} (h : xs ≠ []) : Scalar.least xs ∈ xs := by
  cases xs with
  | nil => exact absurd rfl h
  | cons first rest => exact foldl_min_mem rest first

/-- The least number of a list depends on its members only. -/
theorem least_congr {xs ys : List ℚ} (h : ∀ x, x ∈ xs ↔ x ∈ ys) :
    Scalar.least xs = Scalar.least ys := by
  cases xs with
  | nil =>
      cases ys with
      | nil => rfl
      | cons first' rest' => simpa using h first'
  | cons first rest =>
      cases ys with
      | nil => simpa using h first
      | cons first' rest' =>
          apply eq_of_forall_le_iff
          intro b
          refine (le_foldl_min_iff rest first b).trans ?_
          refine Iff.trans ?_ (le_foldl_min_iff rest' first' b).symm
          exact forall_congr' fun x => by rw [h x]

end Scalar

namespace Point

@[simp] theorem add_x (p q : Point ℚ) : (p + q).x = p.x + q.x := rfl

@[simp] theorem add_y (p q : Point ℚ) : (p + q).y = p.y + q.y := rfl

@[simp] theorem sub_x (p q : Point ℚ) : (p - q).x = p.x - q.x := rfl

@[simp] theorem sub_y (p q : Point ℚ) : (p - q).y = p.y - q.y := rfl

@[simp] theorem half_x (p : Point ℚ) : p.half.x = p.x / 2 := rfl

@[simp] theorem half_y (p : Point ℚ) : p.half.y = p.y / 2 := rfl

theorem ext {α : Type} {p q : Point α} (hx : p.x = q.x) (hy : p.y = q.y) : p = q := by
  cases p
  cases q
  cases hx
  cases hy
  rfl

end Point

namespace Rect

@[simp] theorem ofSize_low (position size : Point ℚ) : (ofSize position size).low = position := rfl

@[simp] theorem ofSize_high (position size : Point ℚ) :
    (ofSize position size).high = position + size := rfl

theorem around_eq_ofSize (center size : Point ℚ) :
    around center size = ofSize (center - size.half) size := rfl

theorem contains_iff (r : Rect ℚ) (p : Point ℚ) :
    r.contains p = true ↔
      (r.low.x ≤ p.x ∧ p.x < r.high.x) ∧ r.low.y ≤ p.y ∧ p.y < r.high.y := by
  simp [contains, and_assoc]

theorem covers_iff (r inner : Rect ℚ) :
    r.covers inner = true ↔
      (r.low.x ≤ inner.low.x ∧ r.low.y ≤ inner.low.y) ∧
        inner.high.x ≤ r.high.x ∧ inner.high.y ≤ r.high.y := by
  simp [covers, and_assoc]

theorem intersects_iff (r s : Rect ℚ) :
    r.intersects s = true ↔
      (r.low.x < s.high.x ∧ s.low.x < r.high.x) ∧ r.low.y < s.high.y ∧ s.low.y < r.high.y := by
  simp [intersects, and_assoc]

/-! ## Rectangles that are apart -/

/-- The rectangles lie on different sides of a line along one of the axes. -/
def Apart (r s : Rect ℚ) : Prop :=
  (r.high.x ≤ s.low.x ∨ s.high.x ≤ r.low.x) ∨ r.high.y ≤ s.low.y ∨ s.high.y ≤ r.low.y

theorem Apart.symm {r s : Rect ℚ} (h : Apart r s) : Apart s r := by
  rcases h with (h | h) | h | h
  · exact Or.inl (Or.inr h)
  · exact Or.inl (Or.inl h)
  · exact Or.inr (Or.inr h)
  · exact Or.inr (Or.inl h)

theorem Apart.not_contains {r s : Rect ℚ} (h : Apart r s) {p : Point ℚ}
    (hr : r.contains p = true) : ¬ s.contains p = true := by
  rw [contains_iff] at hr ⊢
  intro hs
  rcases h with (h | h) | h | h
  · linarith [hr.1.2, hs.1.1]
  · linarith [hr.1.1, hs.1.2]
  · linarith [hr.2.2, hs.2.1]
  · linarith [hr.2.1, hs.2.2]

theorem Apart.intersects_eq_false {r s : Rect ℚ} (h : Apart r s) : r.intersects s = false := by
  rw [← Bool.not_eq_true, intersects_iff]
  intro hs
  rcases h with (h | h) | h | h
  · linarith [hs.1.2]
  · linarith [hs.1.1]
  · linarith [hs.2.2]
  · linarith [hs.2.1]

theorem Apart.of_covers {r s a b : Rect ℚ} (h : Apart r s) (ha : r.covers a = true)
    (hb : s.covers b = true) : Apart a b := by
  rw [covers_iff] at ha hb
  rcases h with (h | h) | h | h
  · exact Or.inl (Or.inl (by linarith [ha.2.1, hb.1.1]))
  · exact Or.inl (Or.inr (by linarith [ha.1.1, hb.2.1]))
  · exact Or.inr (Or.inl (by linarith [ha.2.2, hb.1.2]))
  · exact Or.inr (Or.inr (by linarith [ha.1.2, hb.2.2]))

theorem apart_of_x_le {c d size size' : Point ℚ} (h : c.x + size.x / 2 ≤ d.x - size'.x / 2) :
    Apart (around c size) (around d size') := by
  refine Or.inl (Or.inl ?_)
  simp only [around_eq_ofSize, ofSize_low, ofSize_high, Point.add_x, Point.sub_x, Point.half_x]
  linarith

theorem apart_of_y_le {c d size size' : Point ℚ} (h : c.y + size.y / 2 ≤ d.y - size'.y / 2) :
    Apart (around c size) (around d size') := by
  refine Or.inr (Or.inl ?_)
  simp only [around_eq_ofSize, ofSize_low, ofSize_high, Point.add_y, Point.sub_y, Point.half_y]
  linarith

/-! ## The rectangle around several -/

theorem covers_refl (r : Rect ℚ) : r.covers r = true := by
  simp [covers_iff]

theorem covers_trans {r s t : Rect ℚ} (hrs : r.covers s = true) (hst : s.covers t = true) :
    r.covers t = true := by
  rw [covers_iff] at *
  exact ⟨⟨hrs.1.1.trans hst.1.1, hrs.1.2.trans hst.1.2⟩,
    hst.2.1.trans hrs.2.1, hst.2.2.trans hrs.2.2⟩

theorem covers_antisymm {r s : Rect ℚ} (hrs : r.covers s = true) (hsr : s.covers r = true) :
    r = s := by
  rw [covers_iff] at hrs hsr
  have hlow : r.low = s.low :=
    Point.ext (le_antisymm hrs.1.1 hsr.1.1) (le_antisymm hrs.1.2 hsr.1.2)
  have hhigh : r.high = s.high :=
    Point.ext (le_antisymm hsr.2.1 hrs.2.1) (le_antisymm hsr.2.2 hrs.2.2)
  cases r
  cases s
  cases hlow
  cases hhigh
  rfl

theorem covers_union_iff (outer r s : Rect ℚ) :
    outer.covers (r.union s) = true ↔ outer.covers r = true ∧ outer.covers s = true := by
  simp only [covers_iff, union, Scalar.smaller_eq, Scalar.larger_eq, le_min_iff, max_le_iff]
  tauto

/-- A rectangle covers the one around several if it covers each of them. -/
theorem covers_foldl_union_iff (outer : Rect ℚ) (rs : List (Rect ℚ)) (r : Rect ℚ) :
    outer.covers (rs.foldl union r) = true ↔ ∀ s ∈ r :: rs, outer.covers s = true := by
  induction rs generalizing r with
  | nil => simp
  | cons first rest ih => simp [ih, covers_union_iff, and_assoc]

theorem exists_unionAll?_covers {rs : List (Rect ℚ)} {r : Rect ℚ} (hr : r ∈ rs) :
    ∃ bounds, unionAll? rs = some bounds ∧ bounds.covers r = true := by
  cases rs with
  | nil => cases hr
  | cons first rest =>
      have hall := (covers_foldl_union_iff _ rest first).mp (covers_refl _)
      exact ⟨rest.foldl union first, rfl, hall r hr⟩

/-- The rectangle around several depends only on which they are. -/
theorem unionAll?_congr {rs rs' : List (Rect ℚ)} (h : ∀ r, r ∈ rs ↔ r ∈ rs') :
    unionAll? rs = unionAll? rs' := by
  cases rs with
  | nil =>
      cases rs' with
      | nil => rfl
      | cons first' rest' => simpa using h first'
  | cons first rest =>
      cases rs' with
      | nil => simpa using h first
      | cons first' rest' =>
          have hsame : ∀ outer : Rect ℚ, outer.covers (rest.foldl union first) = true ↔
              outer.covers (rest'.foldl union first') = true := by
            intro outer
            rw [covers_foldl_union_iff, covers_foldl_union_iff]
            exact forall_congr' fun s => by rw [h s]
          have heq := covers_antisymm ((hsame _).mp (covers_refl _)) ((hsame _).mpr (covers_refl _))
          exact congrArg some heq

end Rect

/-! ## Cards in a file -/

/-- No size or distance is negative. -/
structure Metrics.NonNegative (m : Metrics ℚ) : Prop where
  cardWidth : 0 ≤ m.cardWidth
  cardHeight : 0 ≤ m.cardHeight
  paddingX : 0 ≤ m.paddingX
  paddingTop : 0 ≤ m.paddingTop
  paddingBottom : 0 ≤ m.paddingBottom
  cardGap : 0 ≤ m.cardGap
  minFileHeight : 0 ≤ m.minFileHeight
  nodeSeparation : 0 ≤ m.nodeSeparation
  rankSeparation : 0 ≤ m.rankSeparation

namespace Metrics

variable {m : Metrics ℚ}

@[simp] theorem cardSize_x (m : Metrics ℚ) : m.cardSize.x = m.cardWidth := rfl

@[simp] theorem cardSize_y (m : Metrics ℚ) : m.cardSize.y = m.cardHeight := rfl

theorem rowPitch_eq (m : Metrics ℚ) : m.rowPitch = m.cardHeight + m.cardGap := rfl

theorem fileSize_x (m : Metrics ℚ) (count : ℕ) :
    (m.fileSize count).x = m.cardWidth + m.paddingX * 2 := rfl

theorem fileSize_y (m : Metrics ℚ) (count : ℕ) :
    (m.fileSize count).y =
      max (m.paddingTop + count * m.rowPitch + m.paddingBottom) m.minFileHeight := rfl

@[simp] theorem childOffset_x (m : Metrics ℚ) (index : ℕ) :
    (m.childOffset index).x = m.paddingX := rfl

theorem childOffset_y (m : Metrics ℚ) (index : ℕ) :
    (m.childOffset index).y = m.paddingTop + index * m.rowPitch := rfl

theorem standard_nonNegative : (standard : Metrics ℚ).NonNegative := by
  constructor <;> decide

theorem NonNegative.rowPitch (h : m.NonNegative) : 0 ≤ m.rowPitch := by
  rw [rowPitch_eq]
  linarith [h.cardHeight, h.cardGap]

theorem NonNegative.fileSize (h : m.NonNegative) (count : ℕ) :
    0 ≤ (m.fileSize count).x ∧ 0 ≤ (m.fileSize count).y := by
  rw [fileSize_x, fileSize_y]
  constructor
  · linarith [h.cardWidth, h.paddingX]
  · exact le_max_of_le_right h.minFileHeight

/-- Between the card of a row and the next row there is room for the gap. -/
theorem NonNegative.row_add_gap_le_row (h : m.NonNegative) {i j : ℕ} (hij : i < j) :
    (i : ℚ) * m.rowPitch + m.cardHeight + m.cardGap ≤ j * m.rowPitch := by
  have hnext : ((i : ℚ) + 1) * m.rowPitch ≤ j * m.rowPitch := by
    apply mul_le_mul_of_nonneg_right _ h.rowPitch
    exact_mod_cast hij
  have hpitch := m.rowPitch_eq
  linarith

/-- The next row starts below the card of the row before. -/
theorem NonNegative.row_le_row (h : m.NonNegative) {i j : ℕ} (hij : i < j) :
    (i : ℚ) * m.rowPitch + m.cardHeight ≤ j * m.rowPitch := by
  have hrow := h.row_add_gap_le_row hij
  linarith [h.cardGap]

/-- Every card lies in its file. -/
theorem NonNegative.fileSize_covers (h : m.NonNegative) {index count : ℕ} (hindex : index < count)
    (corner : Point ℚ) :
    (Rect.ofSize corner (m.fileSize count)).covers
      (Rect.ofSize (corner + m.childOffset index) m.cardSize) = true := by
  have hrow := h.row_le_row hindex
  have hrows : 0 ≤ (index : ℚ) * m.rowPitch := mul_nonneg (Nat.cast_nonneg _) h.rowPitch
  have hheight : m.paddingTop + count * m.rowPitch + m.paddingBottom ≤ (m.fileSize count).y := by
    rw [fileSize_y]
    exact le_max_left _ _
  simp only [Rect.covers_iff, Rect.ofSize_low, Rect.ofSize_high, Point.add_x, Point.add_y,
    childOffset_x, childOffset_y, cardSize_x, cardSize_y, fileSize_x]
  refine ⟨⟨?_, ?_⟩, ?_, ?_⟩
  · linarith [h.paddingX]
  · linarith [h.paddingTop]
  · linarith [h.paddingX]
  · linarith [h.paddingBottom]

end Metrics

end CodeAtlas
