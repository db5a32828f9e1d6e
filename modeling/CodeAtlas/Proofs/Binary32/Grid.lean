import CodeAtlas.Proofs.Binary32.Covering
import CodeAtlas.Proofs.Binary32.Gaps

/-! # The shortest decimal of a magnitude

The decimal grids are tried from the coarsest one on, and on each grid only the two points around
the magnitude. The point that is taken is covered by the magnitude. It has few digits, because no
point of the next coarser grid is covered.
-/

namespace CodeAtlas.Binary32.Magnitude

variable {m : Magnitude} {k : ℤ} {d : ℕ}

/-- The number itself. -/
def value (m : Magnitude) : ℚ :=
  m.mantissa * 2 ^ m.exponent

theorem zpow_ten_pos (k : ℤ) : (0 : ℚ) < 10 ^ k :=
  zpow_pos (by norm_num) k

theorem zpow_two_pred (e : ℤ) : (2 : ℚ) ^ e = 2 * 2 ^ (e - 1) := by
  rw [← zpow_one_add₀ (by norm_num)]
  congr 1
  ring

/-! ## Whole numbers for rational ones -/

theorem le_iff_of_scaled {c v w : ℚ} {x y : ℕ} (hc : 0 < c) (hx : (x : ℚ) = c * v)
    (hy : (y : ℚ) = c * w) : x ≤ y ↔ v ≤ w := by
  rw [← Nat.cast_le (α := ℚ), hx, hy, mul_le_mul_iff_right₀ hc]

theorem lt_iff_of_scaled {c v w : ℚ} {x y : ℕ} (hc : 0 < c) (hx : (x : ℚ) = c * v)
    (hy : (y : ℚ) = c * w) : x < y ↔ v < w := by
  rw [← Nat.cast_lt (α := ℚ), hx, hy, mul_lt_mul_iff_right₀ hc]

/-- The scales of a grid are the unit and the power of ten, multiplied by one factor. -/
theorem exists_scale (m : Magnitude) (k : ℤ) :
    ∃ c : ℚ, 0 < c ∧ (m.unitScale k : ℚ) = c * 2 ^ (m.exponent - 2) ∧
      (m.digitScale k : ℚ) = c * 10 ^ k := by
  refine ⟨2 ^ (2 - m.exponent).toNat * 10 ^ (-k).toNat, by positivity, ?_, ?_⟩
  · have hpow := pow_toNat (by norm_num : (2 : ℚ) ≠ 0) (m.exponent - 2)
    rw [neg_sub] at hpow
    unfold unitScale
    rw [Nat.pow_eq, Nat.pow_eq]
    push_cast
    rw [hpow]
    ring
  · unfold digitScale
    rw [Nat.pow_eq, Nat.pow_eq]
    push_cast
    rw [pow_toNat (by norm_num : (10 : ℚ) ≠ 0) k]
    ring

theorem lower_eq (m : Magnitude) :
    m.lower = (4 * m.mantissa - if m.narrow then 1 else 2) * 2 ^ (m.exponent - 2) := by
  unfold lower
  rw [zpow_sub₀ (by norm_num)]
  split <;> norm_num <;> ring

theorem upper_eq (m : Magnitude) :
    m.upper = (4 * m.mantissa + 2) * 2 ^ (m.exponent - 2) := by
  unfold upper
  rw [zpow_sub₀ (by norm_num)]
  norm_num
  ring

theorem value_eq (m : Magnitude) : m.value = 4 * m.mantissa * 2 ^ (m.exponent - 2) := by
  unfold value
  rw [zpow_sub₀ (by norm_num)]
  norm_num
  ring

/-- A grid point reads back exactly if the magnitude covers it. -/
theorem readsBack_iff (hpos : 0 < m.mantissa) :
    m.readsBack k d = true ↔ m.Covers (d * 10 ^ k) := by
  obtain ⟨c, hc, hunit, hdigit⟩ := m.exists_scale k
  have hbelow : (((4 * m.mantissa - if m.narrow then 1 else 2) * m.unitScale k : ℕ) : ℚ) =
      c * m.lower := by
    have hle : (if m.narrow then 1 else 2) ≤ 4 * m.mantissa := by
      split <;> omega
    rw [lower_eq]
    push_cast [Nat.cast_sub hle, hunit]
    ring
  have habove : (((4 * m.mantissa + 2) * m.unitScale k : ℕ) : ℚ) = c * m.upper := by
    rw [upper_eq]
    push_cast [hunit]
    ring
  have hvalue : ((d * m.digitScale k : ℕ) : ℚ) = c * (d * 10 ^ k) := by
    push_cast [hdigit]
    ring
  unfold readsBack Covers
  rcases Nat.mod_two_eq_zero_or_one m.mantissa with heven | hodd
  · simp [heven, le_iff_of_scaled hc hbelow hvalue, le_iff_of_scaled hc hvalue habove]
  · simp only [hodd, Nat.one_ne_zero, if_false, Bool.and_eq_true, decide_eq_true_eq,
      lt_iff_of_scaled hc hbelow hvalue, lt_iff_of_scaled hc hvalue habove, forall_const]
    exact ⟨fun h => ⟨h.1.le, h.2.le, h⟩, fun h => h.2.2⟩

/-! ## One grid -/

/-- The last grid point that is not above the magnitude. -/
def pointBelow (m : Magnitude) (k : ℤ) : ℕ :=
  4 * m.mantissa * m.unitScale k / m.digitScale k

/-- The magnitude lies between its two grid points, at the distances that are compared. -/
theorem exists_distances (m : Magnitude) (k : ℤ) :
    ∃ c : ℚ, 0 < c ∧
      ((4 * m.mantissa * m.unitScale k - m.pointBelow k * m.digitScale k : ℕ) : ℚ) =
        c * (m.value - m.pointBelow k * 10 ^ k) ∧
      (((m.pointBelow k + 1) * m.digitScale k - 4 * m.mantissa * m.unitScale k : ℕ) : ℚ) =
        c * ((m.pointBelow k + 1 : ℕ) * 10 ^ k - m.value) ∧
      m.pointBelow k * 10 ^ k ≤ m.value ∧ m.value < (m.pointBelow k + 1 : ℕ) * 10 ^ k := by
  obtain ⟨c, hc, hunit, hdigit⟩ := m.exists_scale k
  have hweight : 0 < m.digitScale k := by
    unfold digitScale
    rw [Nat.pow_eq, Nat.pow_eq]
    positivity
  have hlow : m.pointBelow k * m.digitScale k ≤ 4 * m.mantissa * m.unitScale k :=
    Nat.div_mul_le_self _ _
  have hhigh : 4 * m.mantissa * m.unitScale k < (m.pointBelow k + 1) * m.digitScale k :=
    Nat.lt_mul_of_div_lt (Nat.lt_succ_self _) hweight
  have hvalue : ((4 * m.mantissa * m.unitScale k : ℕ) : ℚ) = c * m.value := by
    push_cast [hunit]
    rw [value_eq]
    ring
  have hpoint : ∀ d : ℕ, ((d * m.digitScale k : ℕ) : ℚ) = c * (d * 10 ^ k) := by
    intro d
    push_cast [hdigit]
    ring
  refine ⟨c, hc, ?_, ?_, (le_iff_of_scaled hc (hpoint _) hvalue).mp hlow,
    (lt_iff_of_scaled hc hvalue (hpoint _)).mp hhigh⟩
  · rw [Nat.cast_sub hlow, hvalue, hpoint, mul_sub]
  · rw [Nat.cast_sub hhigh.le, hvalue, hpoint, mul_sub]

/-- A covered grid point next to the magnitude, and the nearer one if both are covered. -/
structure Nearest (m : Magnitude) (k : ℤ) (d : ℕ) : Prop where
  covers : m.Covers (d * 10 ^ k)
  le_add : d * 10 ^ k ≤ m.value + 10 ^ k
  sub_le : m.value - 10 ^ k ≤ d * 10 ^ k
  above : d * 10 ^ k ≤ m.value →
    2 * (m.value - d * 10 ^ k) ≤ 10 ^ k ∨ ¬ m.Covers (d * 10 ^ k + 10 ^ k)
  below : m.value < d * 10 ^ k →
    2 * (d * 10 ^ k - m.value) ≤ 10 ^ k ∨ ¬ m.Covers (d * 10 ^ k - 10 ^ k)

theorem lower_pos (hpos : 0 < m.mantissa) : 0 < m.lower := by
  have hone : (1 : ℚ) ≤ m.mantissa := by exact_mod_cast hpos
  refine lt_of_lt_of_le ?_ m.lower_ge
  have := zpow_two_pos m.exponent
  have : (0 : ℚ) < m.mantissa - 1 / 2 := by linarith
  positivity

theorem not_covers_zero (hpos : 0 < m.mantissa) : ¬ m.Covers 0 :=
  fun h => absurd h.1 (not_le.mpr (lower_pos hpos))

theorem onGrid?_eq (m : Magnitude) (k : ℤ) :
    m.onGrid? k =
      if (m.pointBelow k != 0 && m.readsBack k (m.pointBelow k)) &&
          (!m.readsBack k (m.pointBelow k + 1) ||
            4 * m.mantissa * m.unitScale k - m.pointBelow k * m.digitScale k <
              (m.pointBelow k + 1) * m.digitScale k - 4 * m.mantissa * m.unitScale k ||
            (4 * m.mantissa * m.unitScale k - m.pointBelow k * m.digitScale k =
              (m.pointBelow k + 1) * m.digitScale k - 4 * m.mantissa * m.unitScale k &&
              m.pointBelow k % 2 = 0)) then some ⟨m.pointBelow k, k⟩
      else if m.readsBack k (m.pointBelow k + 1) then some ⟨m.pointBelow k + 1, k⟩
      else none :=
  rfl

/-- One grid gives the covered one of its two points, the nearer one of two, or none. -/
theorem onGrid?_cases (hpos : 0 < m.mantissa) (k : ℤ) :
    (m.onGrid? k = some ⟨m.pointBelow k, k⟩ ∧ m.Covers (m.pointBelow k * 10 ^ k) ∧
      (¬ m.Covers ((m.pointBelow k + 1 : ℕ) * 10 ^ k) ∨
        m.value - m.pointBelow k * 10 ^ k ≤ (m.pointBelow k + 1 : ℕ) * 10 ^ k - m.value)) ∨
    (m.onGrid? k = some ⟨m.pointBelow k + 1, k⟩ ∧
      m.Covers ((m.pointBelow k + 1 : ℕ) * 10 ^ k) ∧
      (¬ m.Covers (m.pointBelow k * 10 ^ k) ∨
        (m.pointBelow k + 1 : ℕ) * 10 ^ k - m.value ≤ m.value - m.pointBelow k * 10 ^ k)) ∨
    (m.onGrid? k = none ∧ ¬ m.Covers (m.pointBelow k * 10 ^ k) ∧
      ¬ m.Covers ((m.pointBelow k + 1 : ℕ) * 10 ^ k)) := by
  obtain ⟨c, hc, hdown, hup, -, -⟩ := m.exists_distances k
  have hdownOk : (m.pointBelow k != 0 && m.readsBack k (m.pointBelow k)) = true ↔
      m.Covers (m.pointBelow k * 10 ^ k) := by
    rw [Bool.and_eq_true, readsBack_iff hpos, bne_iff_ne]
    refine ⟨And.right, fun h => ⟨fun hzero => ?_, h⟩⟩
    rw [hzero, Nat.cast_zero, zero_mul] at h
    exact not_covers_zero hpos h
  have hupOk := readsBack_iff (k := k) (d := m.pointBelow k + 1) hpos
  rw [← hdownOk, ← hupOk, ← le_iff_of_scaled hc hdown hup, ← le_iff_of_scaled hc hup hdown,
    onGrid?_eq]
  generalize m.pointBelow k = p
  generalize (p != 0 && m.readsBack k p) = down
  generalize m.readsBack k (p + 1) = up
  generalize 4 * m.mantissa * m.unitScale k - p * m.digitScale k = x
  generalize (p + 1) * m.digitScale k - 4 * m.mantissa * m.unitScale k = y
  cases down <;> cases up
  · simp
  · simp
  · simp
  · by_cases hxy : x < y ∨ x = y ∧ p % 2 = 0
    · simp [hxy]
      omega
    · simp [hxy]
      omega

theorem onGrid?_eq_some (hpos : 0 < m.mantissa) {r : Digits} (h : m.onGrid? k = some r) :
    r.exponent = k ∧ m.Nearest k r.digits := by
  obtain ⟨-, -, -, -, hlow, hhigh⟩ := m.exists_distances k
  have hten := zpow_ten_pos k
  have hnext : ((m.pointBelow k + 1 : ℕ) : ℚ) * 10 ^ k = m.pointBelow k * 10 ^ k + 10 ^ k := by
    push_cast
    ring
  obtain ⟨hgrid, hcovers, hother⟩ | ⟨hgrid, hcovers, hother⟩ | ⟨hgrid, -, -⟩ :=
    m.onGrid?_cases hpos k
  · obtain rfl := Option.some.inj (hgrid.symm.trans h)
    rw [hnext] at hhigh hother
    refine ⟨rfl, hcovers, by linarith, by linarith, fun _ => ?_,
      fun hlt => absurd hlt (by linarith)⟩
    exact hother.symm.imp_left fun hle => by linarith
  · obtain rfl := Option.some.inj (hgrid.symm.trans h)
    have hback : ((m.pointBelow k + 1 : ℕ) : ℚ) * 10 ^ k - 10 ^ k = m.pointBelow k * 10 ^ k := by
      rw [hnext]
      ring
    refine ⟨rfl, hcovers, by linarith, by linarith, fun hle => absurd hle (by linarith),
      fun _ => ?_⟩
    rw [hback]
    exact hother.symm.imp_left fun hle => by linarith
  · rw [hgrid] at h
    cases h

theorem value_lt_upper (m : Magnitude) : m.value < m.upper := by
  unfold value upper
  exact mul_lt_mul_of_pos_right (by linarith) (zpow_two_pos _)

theorem lower_lt_value (m : Magnitude) : m.lower < m.value := by
  unfold value lower
  refine mul_lt_mul_of_pos_right ?_ (zpow_two_pos _)
  split <;> linarith

theorem covers_of_lt {v : ℚ} (hlow : m.lower < v) (hhigh : v < m.upper) : m.Covers v :=
  ⟨hlow.le, hhigh.le, fun _ => ⟨hlow, hhigh⟩⟩

/-- A grid without a covered point is coarser than what is covered. -/
theorem onGrid?_eq_none (hpos : 0 < m.mantissa) (h : m.onGrid? k = none) :
    m.upper - m.lower ≤ 10 ^ k := by
  obtain ⟨-, -, -, -, hlow, hhigh⟩ := m.exists_distances k
  obtain ⟨hgrid, -, -⟩ | ⟨hgrid, -, -⟩ | ⟨-, hdown, hup⟩ := m.onGrid?_cases hpos k
  · rw [h] at hgrid
    cases hgrid
  · rw [h] at hgrid
    cases hgrid
  · have hlower : m.pointBelow k * 10 ^ k ≤ m.lower := by
      by_contra! hlt
      exact hdown (covers_of_lt hlt (hlow.trans_lt m.value_lt_upper))
    have hupper : m.upper ≤ (m.pointBelow k + 1 : ℕ) * 10 ^ k := by
      by_contra! hlt
      exact hup (covers_of_lt (m.lower_lt_value.trans hhigh) hlt)
    push_cast at hupper
    linarith

/-! ## All grids -/

theorem width_ge (m : Magnitude) : 3 / 4 * 2 ^ m.exponent ≤ m.upper - m.lower := by
  have := zpow_two_pos m.exponent
  unfold upper lower
  rw [← sub_mul]
  gcongr
  split <;> linarith

/-- The finest grid always has a covered point. -/
theorem onGrid?_finest (hm : m.Regular) : m.onGrid? (-46) ≠ none := by
  intro h
  have hwidth := (m.width_ge).trans (onGrid?_eq_none hm.pos h)
  have hexp : (2 : ℚ) ^ (-149 : ℤ) ≤ 2 ^ m.exponent := zpow_two_le_iff.mpr hm.minExponent_le
  have hfine : (10 : ℚ) ^ (-46 : ℤ) < 3 / 4 * 2 ^ (-149 : ℤ) := by norm_num
  exact absurd hwidth (not_le.mpr
    (hfine.trans_le (mul_le_mul_of_nonneg_left hexp (by norm_num))))

theorem findSome?_range {α : Type} {f : ℕ → Option α} {n : ℕ} {r : α}
    (h : (List.range n).findSome? f = some r) :
    ∃ i < n, f i = some r ∧ ∀ j < i, f j = none := by
  induction n with
  | zero => cases h
  | succ n ih =>
      rw [List.range_succ, List.findSome?_append] at h
      cases hfirst : (List.range n).findSome? f with
      | some r' =>
          rw [hfirst] at h
          obtain ⟨i, hi, hfound, hnone⟩ := ih (hfirst.trans h)
          exact ⟨i, by omega, hfound, hnone⟩
      | none =>
          rw [hfirst, Option.none_or] at h
          rw [List.findSome?_eq_none_iff] at hfirst
          have hlast : f n = some r := by simpa using h
          exact ⟨n, by omega, hlast, fun j hj => hfirst j (List.mem_range.mpr hj)⟩

/-- The shortest decimal is the best point of its grid; the next coarser grid has none. -/
theorem shortest_spec (hm : m.Regular) :
    -46 ≤ m.shortest.exponent ∧ m.shortest.exponent ≤ 39 ∧
      m.Nearest m.shortest.exponent m.shortest.digits ∧
      (m.shortest.exponent < 39 → m.onGrid? (m.shortest.exponent + 1) = none) := by
  obtain ⟨r, hr⟩ : ∃ r, (List.range gridCount).findSome?
      (fun i : ℕ => m.onGrid? ((highestPower : ℤ) - (i : ℤ))) = some r := by
    refine Option.isSome_iff_exists.mp (List.findSome?_isSome_iff.mpr ⟨85, by decide, ?_⟩)
    exact Option.isSome_iff_ne_none.mpr (onGrid?_finest hm)
  have hshortest : m.shortest = r := by
    unfold shortest
    rw [if_neg hm.pos.ne']
    show (((List.range gridCount).map _).findSome? m.onGrid?).getD _ = r
    rw [List.findSome?_map]
    show ((List.range gridCount).findSome?
      (fun i : ℕ => m.onGrid? ((highestPower : ℤ) - (i : ℤ)))).getD _ = r
    rw [hr, Option.getD_some]
  obtain ⟨i, hi, hfound, hnone⟩ := findSome?_range hr
  obtain ⟨hexponent, hnearest⟩ := onGrid?_eq_some hm.pos hfound
  unfold highestPower at *
  unfold gridCount at hi
  rw [hshortest]
  refine ⟨by omega, by omega, by rwa [hexponent], fun hlt => ?_⟩
  have := hnone (i - 1) (by omega)
  rwa [show ((39 : ℕ) : ℤ) - ((i - 1 : ℕ) : ℤ) = r.exponent + 1 by omega] at this

theorem Nearest.digits_pos (h : m.Nearest k d) (hpos : 0 < m.mantissa) : 0 < d := by
  rcases Nat.eq_zero_or_pos d with rfl | hd
  · have hcovers := h.covers
    rw [Nat.cast_zero, zero_mul] at hcovers
    exact absurd hcovers (not_covers_zero hpos)
  · exact hd

/-- The shortest decimal has at most nine digits. -/
theorem shortest_digits_lt (hm : m.Regular) : m.shortest.digits < 268435456 := by
  obtain ⟨-, hhigh, hnearest, hnone⟩ := shortest_spec hm
  have hten := zpow_ten_pos m.shortest.exponent
  have htop := hnearest.covers.2.1.trans_lt hm.upper_lt
  rw [show (2 : ℚ) ^ (24 + m.exponent) = 2 ^ 24 * 2 ^ m.exponent from zpow_two_split 24 _] at htop
  have hunit : 2 ^ m.exponent ≤ 40 / 3 * (10 : ℚ) ^ m.shortest.exponent := by
    rcases eq_or_lt_of_le hhigh with heq | hlt
    · rw [heq]
      calc (2 : ℚ) ^ m.exponent ≤ 2 ^ (104 : ℤ) := zpow_two_le_iff.mpr hm.exponent_le
        _ ≤ 40 / 3 * 10 ^ (39 : ℤ) := by norm_num
    · have hwidth := m.width_ge.trans (onGrid?_eq_none hm.pos (hnone hlt))
      rw [zpow_add_one₀ (by norm_num)] at hwidth
      linarith
  have hlt : (m.shortest.digits : ℚ) * 10 ^ m.shortest.exponent <
      268435456 * 10 ^ m.shortest.exponent := by
    linarith
  have := lt_of_mul_lt_mul_right hlt hten.le
  exact_mod_cast this

/-! ## Near a midpoint -/

/-- `b` is the midpoint `n * 2 ^ f`. -/
structure IsMidpoint (b : ℚ) (n : ℕ) (f : ℤ) : Prop where
  pos : 0 < n
  lt : n < midpointBound
  low : -150 ≤ f
  high : f ≤ 103
  eq : b = n * 2 ^ f

theorem IsMidpoint.distance_le {b v : ℚ} {n : ℕ} {f : ℤ} (hb : IsMidpoint b n f)
    (hclose : |b - v| * 72057594037927936 ≤ 17 * b) : |b - v| ≤ 2 ^ f / 1000 := by
  have hlt : (n : ℚ) < 33554432 := by exact_mod_cast hb.lt
  have hunit := zpow_two_pos f
  have hsize : b ≤ 33554432 * 2 ^ f := by
    rw [hb.eq]
    exact mul_le_mul_of_nonneg_right hlt.le hunit.le
  linarith

theorem Regular.isMidpoint_upper (hm : m.Regular) :
    IsMidpoint m.upper (2 * m.mantissa + 1) (m.exponent - 1) := by
  have hlt := hm.mantissa_lt
  have hmin := hm.minExponent_le
  have hmax := hm.exponent_le
  refine ⟨by omega, by unfold midpointBound; omega, by omega, by omega, ?_⟩
  unfold upper
  rw [zpow_sub_one₀ (by norm_num)]
  push_cast
  ring

theorem Regular.exists_isMidpoint_lower (hm : m.Regular) :
    ∃ n f, IsMidpoint m.lower n f ∧ m.value - m.lower = 2 ^ f ∧ 2 ^ f ≤ m.upper - m.value ∧
      (n = 2 * m.mantissa - 1 ∧ f = m.exponent - 1 ∨ n = 33554431) := by
  have hpos := hm.pos
  have hlt := hm.mantissa_lt
  have hmin := hm.minExponent_le
  have hmax := hm.exponent_le
  have hunit := zpow_two_pos (m.exponent - 2)
  rw [lower_eq, upper_eq, value_eq]
  by_cases hnarrow : m.narrow = true
  · obtain ⟨hmantissa, hexponent⟩ := hm.narrow_iff.mp hnarrow
    rw [if_pos hnarrow, hmantissa]
    refine ⟨33554431, m.exponent - 2, ⟨by decide, by decide, by omega, by omega, ?_⟩, ?_, ?_,
      .inr rfl⟩
    · norm_num
    · ring
    · linarith
  · have hdouble : (2 : ℚ) ^ (m.exponent - 1) = 2 * 2 ^ (m.exponent - 2) := by
      rw [zpow_two_pred, sub_sub]
      norm_num
    have hsub : ((2 * m.mantissa - 1 : ℕ) : ℚ) = 2 * m.mantissa - 1 := by
      rw [Nat.cast_sub (by omega)]
      push_cast
      ring
    rw [if_neg hnarrow]
    refine ⟨2 * m.mantissa - 1, m.exponent - 1,
      ⟨by omega, by unfold midpointBound; omega, by omega, by omega, ?_⟩, ?_, ?_, .inl ⟨rfl, rfl⟩⟩
    · rw [hsub, hdouble]
      ring
    · rw [hdouble]
      ring
    · rw [hdouble]
      linarith

/-- Two pairs of neighbours of the format have a midpoint with a decimal all but on it. -/
def Exceptional (m : Magnitude) : Prop :=
  (m.mantissa = 11420669 ∨ m.mantissa = 11420670) ∧ (m.exponent = -107 ∨ m.exponent = -106)

/-- A grid with its best point near the upper midpoint is coarse. -/
theorem Nearest.coarse_of_upper (h : m.Nearest k d)
    (hclose : |m.upper - d * 10 ^ k| ≤ 2 ^ (m.exponent - 1) / 1000) :
    4 * (2 : ℚ) ^ (m.exponent - 1) ≤ 3 * 10 ^ k := by
  have hhalf := zpow_two_pred m.exponent
  have hupper : m.upper - m.value = 2 ^ (m.exponent - 1) := by
    unfold upper value
    rw [hhalf]
    ring
  have hwidth := m.width_ge
  have hunit := zpow_two_pos (m.exponent - 1)
  obtain ⟨hfar, -⟩ := abs_le.mp hclose
  have hfar' := (abs_le.mp hclose).2
  rcases h.below (by linarith) with hnear | hcovers
  · linarith
  · have hlower : d * 10 ^ k - 10 ^ k ≤ m.lower := by
      by_contra! hlt
      exact hcovers (covers_of_lt hlt (by linarith [h.le_add, m.value_lt_upper]))
    linarith

/-- A grid with its best point near the lower midpoint is coarse. -/
theorem Nearest.coarse_of_lower {f : ℤ} (h : m.Nearest k d) (hlower : m.value - m.lower = 2 ^ f)
    (hupper : 2 ^ f ≤ m.upper - m.value) (hclose : |m.lower - d * 10 ^ k| ≤ 2 ^ f / 1000) :
    4 * (2 : ℚ) ^ f ≤ 3 * 10 ^ k := by
  have hunit := zpow_two_pos f
  obtain ⟨hfar, hfar'⟩ := abs_le.mp hclose
  rcases h.above (by linarith) with hnear | hcovers
  · linarith
  · have hlower : m.upper ≤ d * 10 ^ k + 10 ^ k := by
      by_contra! hlt
      exact hcovers (covers_of_lt (by linarith [h.sub_le, m.lower_lt_value]) hlt)
    linarith

theorem Nearest.eq_upper_of_close (hm : m.Regular) (h : m.Nearest k d)
    (hclose : |m.upper - d * 10 ^ k| * 72057594037927936 ≤ 17 * m.upper) :
    m.upper = d * 10 ^ k ∨ m.Exceptional := by
  have hmid := hm.isMidpoint_upper
  have hcoarse := h.coarse_of_upper (hmid.distance_le hclose)
  rw [hmid.eq] at hclose ⊢
  refine (eq_of_near hmid.low hmid.high hmid.pos hmid.lt hcoarse hclose).imp_right ?_
  rintro ⟨hn, hf⟩
  exact ⟨by omega, by omega⟩

theorem Nearest.eq_lower_of_close (hm : m.Regular) (h : m.Nearest k d)
    (hclose : |m.lower - d * 10 ^ k| * 72057594037927936 ≤ 17 * m.lower) :
    m.lower = d * 10 ^ k ∨ m.Exceptional := by
  obtain ⟨n, f, hmid, hbelow, habove, hform⟩ := hm.exists_isMidpoint_lower
  have hcoarse := h.coarse_of_lower hbelow habove (hmid.distance_le hclose)
  rw [hmid.eq] at hclose ⊢
  refine (eq_of_near hmid.low hmid.high hmid.pos hmid.lt hcoarse hclose).imp_right ?_
  rintro ⟨hn, hf⟩
  exact ⟨by omega, by omega⟩

end CodeAtlas.Binary32.Magnitude
