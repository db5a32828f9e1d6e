import CodeAtlas.Proofs.Binary32.Arithmetic

/-! # The numbers that round to a magnitude

A magnitude covers the numbers between the midpoints to its two neighbours. The midpoints belong
to it when its significand is even. Rounding a covered number gives the magnitude.
-/

namespace CodeAtlas.Binary32

open Float.Model Float.Model.UnpackedFloat

theorem nearestEven_of_between {num den q : ℕ} {t : ℤ} (hden : 0 < den)
    (hlow : (q - 1 / 2 : ℚ) * 2 ^ t ≤ num / den * 2 ^ t)
    (hhigh : (num / den : ℚ) * 2 ^ t ≤ (q + 1 / 2) * 2 ^ t)
    (hodd : q % 2 = 1 → (q - 1 / 2 : ℚ) * 2 ^ t < num / den * 2 ^ t ∧
      (num / den : ℚ) * 2 ^ t < (q + 1 / 2) * 2 ^ t) : nearestEven num den = q := by
  have hden' : (0 : ℚ) < den := by exact_mod_cast hden
  simp only [mul_le_mul_iff_left₀ (zpow_two_pos t), mul_lt_mul_iff_left₀ (zpow_two_pos t),
    le_div_iff₀ hden', div_le_iff₀ hden', lt_div_iff₀ hden', div_lt_iff₀ hden'] at hlow hhigh hodd
  refine nearestEven_eq hden ?_ ?_ fun h => ⟨?_, ?_⟩
  · have : (2 * q * den : ℚ) ≤ 2 * num + den := by linarith
    exact_mod_cast this
  · have : (2 * num : ℚ) ≤ (2 * q + 1) * den := by linarith
    exact_mod_cast this
  · have : (2 * q * den : ℚ) < 2 * num + den := by linarith [(hodd h).1]
    exact_mod_cast this
  · have : (2 * num : ℚ) < (2 * q + 1) * den := by linarith [(hodd h).2]
    exact_mod_cast this

namespace Magnitude

/-- A magnitude other than zero, as a number of the format has it. -/
structure Regular (m : Magnitude) : Prop where
  pos : 0 < m.mantissa
  canonical : Canonical .binary32 m.mantissa m.exponent
  narrow_iff : m.narrow = true ↔ m.mantissa = 8388608 ∧ m.exponent ≠ -149

theorem regular_of_magnitude? {x : Float32} {m : Magnitude} (h : magnitude? x = some m)
    (hpos : 0 < m.mantissa) : m.Regular :=
  ⟨hpos, canonical_of_magnitude? h, narrow_iff_of_magnitude? h⟩

/-- The midpoint to the next smaller number. -/
def lower (m : Magnitude) : ℚ :=
  (m.mantissa - if m.narrow then 1 / 4 else 1 / 2) * 2 ^ m.exponent

/-- The midpoint to the next larger number. -/
def upper (m : Magnitude) : ℚ :=
  (m.mantissa + 1 / 2) * 2 ^ m.exponent

/-- Does `v` lie nearer to this magnitude than to its neighbours, or does it at a tie count so? -/
def Covers (m : Magnitude) (v : ℚ) : Prop :=
  m.lower ≤ v ∧ v ≤ m.upper ∧ (m.mantissa % 2 = 1 → m.lower < v ∧ v < m.upper)

namespace Regular

variable {m : Magnitude}

theorem mantissa_lt (h : m.Regular) : m.mantissa < 16777216 :=
  h.canonical.lt

theorem minExponent_le (h : m.Regular) : -149 ≤ m.exponent :=
  h.canonical.minExponent_le

theorem exponent_le (h : m.Regular) : m.exponent ≤ 104 := by
  have : m.exponent + 23 ≤ 127 := h.canonical.le_bias
  omega

theorem low (h : m.Regular) : 8388608 ≤ m.mantissa ∨ m.exponent = -149 :=
  h.canonical.low

end Regular

variable {m : Magnitude} {s : Sign} {v : ℚ} {u : UnpackedFloat}

theorem lower_ge (m : Magnitude) : (m.mantissa - 1 / 2 : ℚ) * 2 ^ m.exponent ≤ m.lower := by
  unfold lower
  have := zpow_two_pos m.exponent
  gcongr
  split <;> norm_num

theorem zpow_two_split (k : ℕ) (e : ℤ) : (2 : ℚ) ^ (k + e) = 2 ^ k * 2 ^ e := by
  rw [zpow_add₀ (by norm_num), zpow_natCast]

theorem Regular.upper_lt (hm : m.Regular) : m.upper < 2 ^ (24 + m.exponent) := by
  have hlt : (m.mantissa : ℚ) + 1 ≤ 16777216 := by exact_mod_cast hm.mantissa_lt
  unfold upper
  rw [show (2 : ℚ) ^ (24 + m.exponent) = 2 ^ 24 * 2 ^ m.exponent from zpow_two_split 24 _]
  refine mul_lt_mul_of_pos_right ?_ (zpow_two_pos _)
  norm_num
  linarith

/-- Only at a power of two does a covered number have a lower exponent. -/
theorem Regular.narrow_of_lt (hm : m.Regular) (hexp : m.exponent ≠ -149)
    (hlt : m.lower < 2 ^ (23 + m.exponent)) : m.narrow = true := by
  rw [show (2 : ℚ) ^ (23 + m.exponent) = 2 ^ 23 * 2 ^ m.exponent from zpow_two_split 23 _] at hlt
  have hbelow := lt_of_mul_lt_mul_right (m.lower_ge.trans_lt hlt) (zpow_two_pos _).le
  have hle : m.mantissa < 8388609 := by
    have : (m.mantissa : ℚ) < 8388609 := by linarith
    exact_mod_cast this
  have hlow := hm.low.resolve_right hexp
  exact hm.narrow_iff.mpr ⟨by omega, hexp⟩

/-- Midway below a power of two, in units of half the size. -/
theorem Regular.lower_of_narrow (hm : m.Regular) (hnarrow : m.narrow = true) :
    m.lower = ((16777216 : ℕ) - 1 / 2) * 2 ^ (m.exponent - 1) := by
  unfold lower
  rw [if_pos hnarrow, (hm.narrow_iff.mp hnarrow).1, zpow_sub_one₀ (by norm_num)]
  push_cast
  ring

/--
A covered number is rounded at the exponent of the magnitude, or one lower if it lies below the
power of two that the magnitude is.
-/
theorem Covers.roundingExponent_cases {num den : ℕ} {e : ℤ} (hm : m.Regular)
    (hc : m.Covers (num / den * 2 ^ e)) (hden : 0 < den)
    (he : e ≤ roundingExponent .binary32 num den e) :
    roundingExponent .binary32 num den e = m.exponent ∨
      (m.narrow = true ∧ (num / den : ℚ) * 2 ^ e < 2 ^ (23 + m.exponent) ∧
        roundingExponent .binary32 num den e = m.exponent - 1) := by
  obtain ⟨hlower, hupper, -⟩ := hc
  by_cases hlow : (2 : ℚ) ^ (23 + m.exponent) ≤ num / den * 2 ^ e ∨ m.exponent = -149
  · left
    exact roundingExponent_eq hden he hm.minExponent_le (hupper.trans_lt hm.upper_lt) hlow
  · right
    push Not at hlow
    obtain ⟨hbelow, hexp⟩ := hlow
    have hnarrow := hm.narrow_of_lt hexp (hlower.trans_lt hbelow)
    have hmin := hm.minExponent_le
    refine ⟨hnarrow, hbelow, roundingExponent_eq hden he ?_ ?_ (.inl ?_)⟩
    · show -149 ≤ m.exponent - 1
      omega
    · show _ < (2 : ℚ) ^ (24 + (m.exponent - 1))
      rwa [show 24 + (m.exponent - 1) = 23 + m.exponent by ring]
    · show (2 : ℚ) ^ (23 + (m.exponent - 1)) ≤ _
      rw [hm.lower_of_narrow hnarrow] at hlower
      refine le_trans ?_ hlower
      rw [show (2 : ℚ) ^ (23 + (m.exponent - 1)) = 2 ^ 23 * 2 ^ (m.exponent - 1) from
        zpow_two_split 23 _]
      have := zpow_two_pos (m.exponent - 1)
      gcongr
      norm_num

/-- Rounding a covered number gives the magnitude. -/
theorem Covers.eq_finite (hc : m.Covers v) (hm : m.Regular)
    (hu : IsRounded .binary32 s v u) : u = .finite s m.mantissa m.exponent hm.pos := by
  obtain ⟨num, den, e, hden, he, rfl, rfl⟩ := hu
  obtain hexp | ⟨hnarrow, hbelow, hexp⟩ := hc.roundingExponent_cases hm hden he
  · rw [hexp] at he
    have hunits : 0 < den * 2 ^ (m.exponent - e).toNat := Nat.mul_pos hden (Nat.two_pow_pos _)
    obtain ⟨hlower, hupper, hodd⟩ := hc
    rw [fraction_eq hden he] at hlower hupper hodd
    refine roundFraction_fits hden hexp he ?_ hm.pos hm.mantissa_lt
    exact nearestEven_of_between hunits (m.lower_ge.trans hlower) hupper
      fun h => ⟨m.lower_ge.trans_lt (hodd h).1, (hodd h).2⟩
  · -- The significand is carried over to the power of two.
    rw [hexp] at he
    have hunits : 0 < den * 2 ^ (m.exponent - 1 - e).toNat :=
      Nat.mul_pos hden (Nat.two_pow_pos _)
    have hlower := hc.1
    rw [fraction_eq hden he, hm.lower_of_narrow hnarrow] at hlower
    rw [fraction_eq hden he, show 23 + m.exponent = (24 : ℕ) + (m.exponent - 1) by ring,
      zpow_two_split] at hbelow
    have hround : nearestEven num (den * 2 ^ (m.exponent - 1 - e).toNat) = 16777216 := by
      refine nearestEven_of_between hunits hlower (hbelow.le.trans ?_) fun h => absurd h (by decide)
      have := zpow_two_pos (m.exponent - 1)
      gcongr
      norm_num
    rw [roundFraction_carry hden hexp he hround]
    have hmantissa := (hm.narrow_iff.mp hnarrow).1
    congr 1
    · rw [hmantissa]
      rfl
    · omega

end Magnitude

end CodeAtlas.Binary32
