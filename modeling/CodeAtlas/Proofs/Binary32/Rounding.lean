import Mathlib.Algebra.Order.Field.Basic
import Mathlib.Algebra.Order.Field.Power
import Mathlib.Algebra.Order.Field.Rat
import Mathlib.Tactic.FieldSimp
import Mathlib.Tactic.Linarith
import Mathlib.Tactic.Ring

/-! # Rounding to the nearest number, ties to even

Products and quotients are rounded by shifting a significand to the right, with one bit for the
last bit shifted out and one for all others. What is shifted stands for a fraction, and a shift
doubles its denominator. So rounding is rounding of a fraction to the nearest whole number.
-/

namespace CodeAtlas.Binary32

open Float.Model Float.Model.UnpackedFloat

/-- The whole number nearest to `num / den`; of two equally near ones the even one. -/
def nearestEven (num den : ℕ) : ℕ :=
  if 2 * (num % den) < den then num / den
  else if den < 2 * (num % den) then num / den + 1
  else num / den + num / den % 2

section NearestEven

variable {num den q : ℕ}

theorem nearestEven_eq (hden : 0 < den) (hlow : 2 * q * den ≤ 2 * num + den)
    (hhigh : 2 * num ≤ (2 * q + 1) * den)
    (hodd : q % 2 = 1 → 2 * q * den < 2 * num + den ∧ 2 * num < (2 * q + 1) * den) :
    nearestEven num den = q := by
  have hsplit := Nat.div_add_mod num den
  have hmod := Nat.mod_lt num hden
  unfold nearestEven
  generalize num / den = n at *
  generalize num % den = r at *
  have hfloor : n ≤ q := by
    by_contra! hlt
    have : den * (q + 1) ≤ den * n := Nat.mul_le_mul_left den hlt
    nlinarith
  have hceil : q ≤ n + 1 := by
    by_contra! hlt
    have : den * (n + 2) ≤ den * q := Nat.mul_le_mul_left den hlt
    nlinarith
  obtain rfl | rfl : q = n ∨ q = n + 1 := by omega
  · have hdown : 2 * r ≤ den := by nlinarith
    rcases Nat.lt_or_eq_of_le hdown with hlt | heq
    · rw [if_pos hlt]
    · have heven : q % 2 = 0 := by
        by_contra hne
        have := (hodd (by omega)).2
        nlinarith
      rw [if_neg (by omega), if_neg (by omega), heven, Nat.add_zero]
  · have hup : den ≤ 2 * r := by nlinarith
    rcases Nat.lt_or_eq_of_le hup with hlt | heq
    · rw [if_neg (by omega), if_pos hlt]
    · have heven : (n + 1) % 2 = 0 := by
        by_contra hne
        have := (hodd (by omega)).1
        nlinarith
      rw [if_neg (by omega), if_neg (by omega)]
      omega

theorem nearestEven_spec (num : ℕ) (hden : 0 < den) :
    2 * nearestEven num den * den ≤ 2 * num + den ∧
      2 * num ≤ (2 * nearestEven num den + 1) * den := by
  have hsplit := Nat.div_add_mod num den
  have hmod := Nat.mod_lt num hden
  unfold nearestEven
  generalize num / den = n at *
  generalize num % den = r at *
  subst hsplit
  split_ifs with hdown hup
  · constructor <;> nlinarith
  · constructor <;> nlinarith
  · have htie : 2 * r = den := by omega
    rcases Nat.mod_two_eq_zero_or_one n with h | h <;> rw [h] <;> constructor <;> nlinarith

end NearestEven

/-- What is kept of the fraction `num / den` while it is shifted. -/
def extended (num den : ℕ) : ExtendedMantissa :=
  .ofMantissaAndAccuracy (num / den) (accuracyOfFraction (num % den) den)

theorem shiftRightOne_extended {num den : ℕ} (hden : 0 < den) :
    (extended num den).shiftRightOne = extended num (den * 2) := by
  have hmod : num % (den * 2) = num % den + den * (num / den % 2) := Nat.mod_mul
  have hdiv : num / (den * 2) = num / den / 2 := (Nat.div_div_eq_div_mul num den 2).symm
  have hlt := Nat.mod_lt num hden
  unfold extended
  rw [hmod, hdiv]
  generalize num / den = n at *
  generalize num % den = r at *
  rcases Nat.mod_two_eq_zero_or_one n with hbit | hbit
  · -- Nothing or less than half is shifted out.
    rw [hbit, Nat.mul_zero, Nat.add_zero]
    by_cases hr : r = 0
    · simp [hr, accuracyOfFraction, ExtendedMantissa.ofMantissaAndAccuracy,
        ExtendedMantissa.shiftRightOne, hbit]
    · have hless : compare (2 * r) (den * 2) = .lt := Nat.compare_eq_lt.mpr (by omega)
      cases hcmp : compare (2 * r) den <;>
        simp [hr, hless, hcmp, accuracyOfFraction, ExtendedMantissa.ofMantissaAndAccuracy,
          ExtendedMantissa.shiftRightOne, hbit]
  · -- Half or more is shifted out.
    rw [hbit, Nat.mul_one]
    by_cases hr : r = 0
    · have hhalf : compare (2 * den) (den * 2) = .eq := Nat.compare_eq_eq.mpr (by omega)
      simp [hr, hhalf, Nat.ne_of_gt hden, accuracyOfFraction,
        ExtendedMantissa.ofMantissaAndAccuracy, ExtendedMantissa.shiftRightOne, hbit]
    · have hmore : compare (2 * (r + den)) (den * 2) = .gt := Nat.compare_eq_gt.mpr (by omega)
      cases hcmp : compare (2 * r) den <;>
        simp [hr, hmore, hcmp, accuracyOfFraction, ExtendedMantissa.ofMantissaAndAccuracy,
          ExtendedMantissa.shiftRightOne, hbit]

theorem shiftRight_extended (num : ℕ) {den : ℕ} (hden : 0 < den) (n : ℕ) :
    extended num den >>> n = extended num (den * 2 ^ n) := by
  induction n with
  | zero => simp [HShiftRight.hShiftRight, Nat.repeat]
  | succ n ih =>
      show ((extended num den) >>> n).shiftRightOne = _
      rw [ih, shiftRightOne_extended (Nat.mul_pos hden (Nat.two_pow_pos n)), Nat.pow_succ,
        Nat.mul_assoc]

theorem roundedMantissa_extended (num den : ℕ) :
    (extended num den).roundedMantissa = nearestEven num den := by
  unfold extended nearestEven accuracyOfFraction
  by_cases hr : num % den = 0
  · rcases Nat.eq_zero_or_pos den with rfl | hden
    · rw [Nat.mod_zero] at hr
      subst hr
      rfl
    · simp [hr, hden, ExtendedMantissa.roundedMantissa, ExtendedMantissa.accuracy,
        ExtendedMantissa.ofMantissaAndAccuracy, Accuracy.roundToNearestEven]
  · rw [if_neg hr]
    rcases Nat.lt_trichotomy (2 * (num % den)) den with hlt | heq | hgt
    · rw [if_pos hlt, Nat.compare_eq_lt.mpr hlt]
      rfl
    · rw [if_neg (by omega), if_neg (by omega), Nat.compare_eq_eq.mpr heq]
      rfl
    · rw [if_neg (by omega), if_pos hgt, Nat.compare_eq_gt.mpr hgt]
      rfl

/-! ## Rounding to a format -/

/-- The exponent at which `num / den * 2 ^ e` is rounded. -/
def roundingExponent (spec : Float.Model.Format) (num den : ℕ) (e : ℤ) : ℤ :=
  spec.targetExponent (totalExponent (num / den) e)

/-- The fraction `num / den`, multiplied by `2 ^ e` and rounded to a format. -/
def roundFraction (spec : Float.Model.Format) (s : Sign) (num den : ℕ) (e : ℤ) : UnpackedFloat :=
  roundWithAccuracy spec s (num / den) e (accuracyOfFraction (num % den) den)

section Round

variable {spec : Float.Model.Format} {s : Sign} {num den q : ℕ} {e t : ℤ}

theorem shiftToTargetExponent_extended (hden : 0 < den) (ht : roundingExponent spec num den e = t)
    (he : e ≤ t) :
    shiftToTargetExponent spec (num / den) e (accuracyOfFraction (num % den) den) =
      (extended num (den * 2 ^ (t - e).toNat), t) := by
  have hshift := shiftRight_extended num hden (t - e).toNat
  unfold roundingExponent at ht
  unfold shiftToTargetExponent shiftToExponent
  rw [ht, ← hshift]
  refine Prod.ext rfl ?_
  show e + ((t - e).toNat : ℤ) = t
  omega

/-- Nothing is left to shift after rounding, unless the significand has become too large. -/
theorem shiftToTargetExponent_fits (hq : 0 < q) (hlt : q < 2 ^ spec.mantissaBits)
    (ht : spec.minExponent ≤ t) :
    shiftToTargetExponent spec q t .exact = (⟨q, false, false⟩, t) := by
  have hlog : q.log2 < spec.mantissaBits := (Nat.log2_lt hq.ne').mpr hlt
  have htarget : spec.targetExponent (totalExponent q t) ≤ t := by
    unfold Float.Model.Format.targetExponent totalExponent
    omega
  have hshift : (spec.targetExponent (totalExponent q t) - t).toNat = 0 := by omega
  unfold shiftToTargetExponent shiftToExponent
  simp only [hshift]
  exact Prod.ext rfl (by simp)

theorem shiftToTargetExponent_carry (ht : spec.minExponent ≤ t) :
    shiftToTargetExponent spec (2 ^ spec.mantissaBits) t .exact =
      (⟨2 ^ (spec.mantissaBits - 1), false, false⟩, t + 1) := by
  have htarget : spec.targetExponent (totalExponent (2 ^ spec.mantissaBits) t) = t + 1 := by
    unfold Float.Model.Format.targetExponent totalExponent
    rw [Nat.log2_two_pow]
    omega
  have hshift : (t + 1 - t).toNat = 1 := by omega
  have hhalf : 2 ^ spec.mantissaBits / 2 = 2 ^ (spec.mantissaBits - 1) := by
    unfold Float.Model.Format.mantissaBits
    rw [Nat.add_sub_cancel_left, Nat.pow_add, Nat.pow_one, Nat.mul_div_cancel_left _ (by decide)]
  have heven : 2 ^ spec.mantissaBits % 2 = 0 := by
    unfold Float.Model.Format.mantissaBits
    rw [Nat.pow_add, Nat.pow_one, Nat.mul_mod_right]
  unfold shiftToTargetExponent shiftToExponent
  simp only [htarget, hshift]
  refine Prod.ext ?_ rfl
  show (ExtendedMantissa.ofMantissaAndAccuracy (2 ^ spec.mantissaBits) .exact).shiftRightOne = _
  simp [ExtendedMantissa.shiftRightOne, ExtendedMantissa.ofMantissaAndAccuracy, hhalf, heven]

theorem minExponent_le_roundingExponent (spec : Float.Model.Format) (num den : ℕ) (e : ℤ) :
    spec.minExponent ≤ roundingExponent spec num den e :=
  le_max_right _ _

/-- The two shifts of a rounding, before and after the significand is rounded. -/
theorem roundFraction_eq_finite {t' : ℤ} (hden : 0 < den)
    (ht : roundingExponent spec num den e = t) (he : e ≤ t) (hq : 0 < q)
    (hshift : shiftToTargetExponent spec (nearestEven num (den * 2 ^ (t - e).toNat)) t .exact =
      (⟨q, false, false⟩, t')) :
    roundFraction spec s num den e = .finite s q t' hq := by
  rw [← roundedMantissa_extended] at hshift
  unfold roundFraction roundWithAccuracy
  rw [shiftToTargetExponent_extended hden ht he]
  dsimp only
  rw [hshift]
  exact dif_neg hq.ne'

theorem roundFraction_fits (hden : 0 < den) (ht : roundingExponent spec num den e = t)
    (he : e ≤ t) (hround : nearestEven num (den * 2 ^ (t - e).toNat) = q) (hq : 0 < q)
    (hlt : q < 2 ^ spec.mantissaBits) : roundFraction spec s num den e = .finite s q t hq := by
  have hmin : spec.minExponent ≤ t := ht ▸ minExponent_le_roundingExponent spec num den e
  refine roundFraction_eq_finite hden ht he hq ?_
  rw [hround, shiftToTargetExponent_fits hq hlt hmin]

theorem roundFraction_carry (hden : 0 < den) (ht : roundingExponent spec num den e = t)
    (he : e ≤ t) (hround : nearestEven num (den * 2 ^ (t - e).toNat) = 2 ^ spec.mantissaBits) :
    roundFraction spec s num den e =
      .finite s (2 ^ (spec.mantissaBits - 1)) (t + 1) (Nat.two_pow_pos _) := by
  have hmin : spec.minExponent ≤ t := ht ▸ minExponent_le_roundingExponent spec num den e
  refine roundFraction_eq_finite hden ht he (Nat.two_pow_pos _) ?_
  rw [hround, shiftToTargetExponent_carry hmin]

/-! ### Where a number is rounded -/

theorem zpow_two_pos (a : ℤ) : (0 : ℚ) < 2 ^ a :=
  zpow_pos (by norm_num) a

theorem zpow_two_lt_iff {a b : ℤ} : (2 : ℚ) ^ a < 2 ^ b ↔ a < b :=
  zpow_lt_zpow_iff_right₀ (by norm_num)

theorem zpow_two_le_iff {a b : ℤ} : (2 : ℚ) ^ a ≤ 2 ^ b ↔ a ≤ b :=
  zpow_le_zpow_iff_right₀ (by norm_num)

/-- A fraction in units of `2 ^ e`, given in units of `2 ^ t`. -/
theorem fraction_eq (hden : 0 < den) (he : e ≤ t) :
    (num / den : ℚ) * 2 ^ e = num / (den * 2 ^ (t - e).toNat : ℕ) * 2 ^ t := by
  have ht : (2 : ℚ) ^ t = 2 ^ (t - e).toNat * 2 ^ e := by
    rw [← zpow_natCast, ← zpow_add₀ (by norm_num)]
    congr 1
    omega
  have hne : (den : ℚ) ≠ 0 := by exact_mod_cast hden.ne'
  rw [ht]
  push_cast
  field_simp

/-- The total exponent tells between which powers of two a number lies. -/
theorem totalExponent_bracket (hden : 0 < den) (hpos : 0 < num / den) (e : ℤ) :
    (2 : ℚ) ^ (totalExponent (num / den) e - 1) ≤ num / den * 2 ^ e ∧
      (num / den : ℚ) * 2 ^ e < 2 ^ totalExponent (num / den) e := by
  have hden' : (0 : ℚ) < den := by exact_mod_cast hden
  have hlog : 2 ^ (num / den).log2 * den ≤ num :=
    (Nat.mul_le_mul_right den (Nat.log2_self_le hpos.ne')).trans (Nat.div_mul_le_self num den)
  have hlog' : num < 2 ^ ((num / den).log2 + 1) * den :=
    (Nat.div_lt_iff_lt_mul hden).mp Nat.lt_log2_self
  have hlow : (2 : ℚ) ^ ((num / den).log2 : ℤ) ≤ num / den := by
    rw [zpow_natCast, le_div_iff₀ hden']
    exact_mod_cast hlog
  have hhigh : (num / den : ℚ) < 2 ^ (((num / den).log2 : ℤ) + 1) := by
    rw [show (((num / den).log2 : ℤ) + 1) = (((num / den).log2 + 1 : ℕ) : ℤ) from by push_cast; rfl,
      zpow_natCast, div_lt_iff₀ hden']
    exact_mod_cast hlog'
  unfold totalExponent
  rw [show ((num / den).log2 : ℤ) + 1 + e - 1 = ((num / den).log2 : ℤ) + e from by ring,
    zpow_add₀ (by norm_num), zpow_add₀ (by norm_num)]
  exact ⟨mul_le_mul_of_nonneg_right hlow (zpow_two_pos e).le,
    mul_lt_mul_of_pos_right hhigh (zpow_two_pos e)⟩

theorem fraction_lt (hden : 0 < den) (hzero : num / den = 0) (e : ℤ) :
    (num / den : ℚ) * 2 ^ e < 2 ^ e := by
  have hlt : (num : ℚ) < den := by exact_mod_cast (Nat.div_eq_zero_iff_lt hden).mp hzero
  have hden' : (0 : ℚ) < den := by exact_mod_cast hden
  have hone : (num / den : ℚ) < 1 := by rwa [div_lt_one₀ hden']
  simpa using mul_lt_mul_of_pos_right hone (zpow_two_pos e)

theorem one_lt_mantissaBits (spec : Float.Model.Format) : 1 < spec.mantissaBits := by
  have := spec.hm
  unfold Float.Model.Format.mantissaBits
  omega

/-- A number is rounded at the exponent at which its significand just fits the format. -/
theorem roundingExponent_eq {E : ℤ} (hden : 0 < den) (he : e ≤ roundingExponent spec num den e)
    (hmin : spec.minExponent ≤ E)
    (hhigh : (num / den : ℚ) * 2 ^ e < 2 ^ (spec.mantissaBits + E))
    (hlow : (2 : ℚ) ^ (spec.mantissaBits - 1 + E) ≤ num / den * 2 ^ e ∨ E = spec.minExponent) :
    roundingExponent spec num den e = E := by
  have hbits := one_lt_mantissaBits spec
  unfold roundingExponent Float.Model.Format.targetExponent at *
  rcases Nat.eq_zero_or_pos (num / den) with hzero | hpos
  · -- Only a number below the unit is cut to nothing, and it is rounded at the least exponent.
    have hlt := fraction_lt hden hzero e
    have htotal : totalExponent (num / den) e = 1 + e := by
      rw [hzero]
      unfold totalExponent
      simp
    rw [htotal] at he ⊢
    rcases hlow with hlow | hlow
    · have := zpow_two_lt_iff.mp (hlow.trans_lt hlt)
      omega
    · omega
  · obtain ⟨hbelow, habove⟩ := totalExponent_bracket hden hpos e
    have htop := zpow_two_lt_iff.mp (hbelow.trans_lt hhigh)
    rcases hlow with hlow | hlow
    · have hbottom := zpow_two_lt_iff.mp (hlow.trans_lt habove)
      omega
    · omega

/-- The bounds of the nearest whole number, for the number itself. -/
theorem nearestEven_error {t : ℤ} (hden : 0 < den) :
    |(nearestEven num den : ℚ) * 2 ^ t - num / den * 2 ^ t| ≤ 2 ^ t / 2 := by
  obtain ⟨hlow, hhigh⟩ := nearestEven_spec num hden
  have hden' : (0 : ℚ) < den := by exact_mod_cast hden
  have hlow' : (2 : ℚ) * nearestEven num den * den ≤ 2 * num + den := by exact_mod_cast hlow
  have hhigh' : (2 : ℚ) * num ≤ (2 * nearestEven num den + 1) * den := by exact_mod_cast hhigh
  have hquot : |(nearestEven num den : ℚ) - num / den| ≤ 1 / 2 := by
    rw [abs_le]
    constructor
    · rw [neg_le_sub_iff_le_add, div_le_iff₀ hden']
      linarith
    · rw [sub_le_iff_le_add, ← sub_le_iff_le_add', le_div_iff₀ hden']
      linarith
  rw [← sub_mul, abs_mul, abs_of_pos (zpow_two_pos t)]
  calc |(nearestEven num den : ℚ) - num / den| * 2 ^ t ≤ 1 / 2 * 2 ^ t :=
        mul_le_mul_of_nonneg_right hquot (zpow_two_pos t).le
    _ = 2 ^ t / 2 := by ring

/-! ### Rounded numbers -/

/-- `u` is the number `v` rounded to a format, no bit of the fraction being cut off too early. -/
def IsRounded (spec : Float.Model.Format) (s : Sign) (v : ℚ) (u : UnpackedFloat) : Prop :=
  ∃ (num den : ℕ) (e : ℤ), 0 < den ∧ e ≤ roundingExponent spec num den e ∧
    (num / den : ℚ) * 2 ^ e = v ∧ roundFraction spec s num den e = u

/-- A normal number is rounded at the exponent that leaves it all bits of the format. -/
theorem roundingExponent_bracket (hden : 0 < den) (he : e ≤ roundingExponent spec num den e)
    (hlow : (2 : ℚ) ^ (spec.mantissaBits - 1 + spec.minExponent) ≤ num / den * 2 ^ e) :
    (2 : ℚ) ^ (spec.mantissaBits - 1 + roundingExponent spec num den e) ≤ num / den * 2 ^ e ∧
      (num / den : ℚ) * 2 ^ e < 2 ^ (spec.mantissaBits + roundingExponent spec num den e) := by
  have hbits := one_lt_mantissaBits spec
  unfold roundingExponent Float.Model.Format.targetExponent at *
  rcases Nat.eq_zero_or_pos (num / den) with hzero | hpos
  · have hlt := zpow_two_lt_iff.mp (hlow.trans_lt (fraction_lt hden hzero e))
    rw [hzero] at he
    unfold totalExponent at he
    simp only [Nat.log2_zero] at he
    omega
  · obtain ⟨hbelow, habove⟩ := totalExponent_bracket hden hpos e
    have htop := zpow_two_lt_iff.mp (hlow.trans_lt habove)
    have hmax : max (totalExponent (num / den) e - spec.mantissaBits) spec.minExponent =
        totalExponent (num / den) e - spec.mantissaBits := by
      omega
    rw [hmax, show (spec.mantissaBits : ℤ) - 1 + (totalExponent (num / den) e - spec.mantissaBits) =
      totalExponent (num / den) e - 1 from by ring, show (spec.mantissaBits : ℤ) +
      (totalExponent (num / den) e - spec.mantissaBits) = totalExponent (num / den) e from by ring]
    exact ⟨hbelow, habove⟩

/-! ### Normal numbers

In units of its last place a normal number lies between `2 ^ p` and `2 ^ (p + 1)`.
-/

theorem units_bracket {p : ℕ} (hden : 0 < den) (hlow : (2 : ℚ) ^ (p + t) ≤ num / den * 2 ^ t)
    (hhigh : (num / den : ℚ) * 2 ^ t < 2 ^ ((p + 1 : ℕ) + t)) :
    2 ^ p * den ≤ num ∧ num < 2 ^ (p + 1) * den := by
  have hden' : (0 : ℚ) < den := by exact_mod_cast hden
  rw [zpow_add₀ (by norm_num), zpow_natCast] at hlow hhigh
  have hbelow := le_of_mul_le_mul_right hlow (zpow_two_pos t)
  have habove := lt_of_mul_lt_mul_right hhigh (zpow_two_pos t).le
  rw [le_div_iff₀ hden'] at hbelow
  rw [div_lt_iff₀ hden'] at habove
  exact ⟨by exact_mod_cast hbelow, by exact_mod_cast habove⟩

theorem nearestEven_bracket {p : ℕ} (hden : 0 < den) (hlow : 2 ^ p * den ≤ num)
    (hhigh : num < 2 ^ (p + 1) * den) :
    2 ^ p ≤ nearestEven num den ∧ nearestEven num den ≤ 2 ^ (p + 1) := by
  obtain ⟨hbelow, habove⟩ := nearestEven_spec num hden
  generalize nearestEven num den = q at *
  constructor
  · have : 2 * 2 ^ p * den ≤ (2 * q + 1) * den := by linarith
    have := Nat.le_of_mul_le_mul_right this hden
    omega
  · have : 2 * q * den < (2 * 2 ^ (p + 1) + 1) * den := by linarith
    have := Nat.lt_of_mul_lt_mul_right this
    omega

theorem nearestEven_relative_error {p : ℕ} (hden : 0 < den) (hlow : 2 ^ p * den ≤ num) :
    |(nearestEven num den : ℚ) * 2 ^ t - num / den * 2 ^ t| ≤
      num / den * 2 ^ t / 2 ^ (p + 1) := by
  have hden' : (0 : ℚ) < den := by exact_mod_cast hden
  have hquot : (2 : ℚ) ^ p ≤ num / den := by
    rw [le_div_iff₀ hden']
    exact_mod_cast hlow
  calc |(nearestEven num den : ℚ) * 2 ^ t - num / den * 2 ^ t| ≤ 2 ^ t / 2 :=
        nearestEven_error hden
    _ = 2 ^ p * 2 ^ t / 2 ^ (p + 1) := by
        rw [pow_succ]
        field_simp
    _ ≤ num / den * 2 ^ t / 2 ^ (p + 1) := by
        have := mul_le_mul_of_nonneg_right hquot (zpow_two_pos t).le
        gcongr

/-- A multiple of the unit at which it is rounded stays as it is. -/
theorem nearestEven_multiple {k : ℕ} (hden : 0 < den)
    (hmul : (num / den : ℚ) * 2 ^ t = k * 2 ^ t) : nearestEven num den = k := by
  have hden' : (den : ℚ) ≠ 0 := by exact_mod_cast hden.ne'
  have hquot : (num / den : ℚ) = k := mul_right_cancel₀ (zpow_two_pos t).ne' hmul
  have hnum : num = k * den := by
    rw [div_eq_iff hden'] at hquot
    exact_mod_cast hquot
  subst hnum
  exact nearestEven_eq hden (by linarith) (by linarith) fun _ => ⟨by linarith, by linarith⟩

/-- A number with few enough bits stays as it is. -/
theorem nearestEven_exact {p m : ℕ} {f : ℤ} (hden : 0 < den)
    (hlow : (2 : ℚ) ^ (p + t) ≤ num / den * 2 ^ t) (hm : m < 2 ^ (p + 1))
    (hv : (num / den : ℚ) * 2 ^ t = m * 2 ^ f) :
    (nearestEven num den : ℚ) * 2 ^ t = num / den * 2 ^ t := by
  have hlt : (m : ℚ) * 2 ^ f < 2 ^ ((p + 1 : ℕ) + f) := by
    rw [zpow_add₀ (by norm_num), zpow_natCast]
    exact mul_lt_mul_of_pos_right (by exact_mod_cast hm) (zpow_two_pos f)
  have htf := zpow_two_lt_iff.mp ((hlow.trans_eq hv).trans_lt hlt)
  have hunit : (m : ℚ) * 2 ^ f = (m * 2 ^ (f - t).toNat : ℕ) * 2 ^ t := by
    push_cast
    rw [mul_assoc, ← zpow_natCast, ← zpow_add₀ (by norm_num)]
    congr 2
    omega
  rw [hv, hunit, nearestEven_multiple hden (hv.trans hunit)]

/--
A normal number `n * 2 ^ e` close to `v`: it has all bits of the format, its relative error is
small, and there is no error if `v` has few enough bits.
-/
structure NearNormal (spec : Float.Model.Format) (v : ℚ) (n : ℕ) (e : ℤ) : Prop where
  low : 2 ^ (spec.mantissaBits - 1) ≤ n
  high : n < 2 ^ spec.mantissaBits
  minExponent_le : spec.minExponent ≤ e
  error : |(n : ℚ) * 2 ^ e - v| ≤ v / 2 ^ spec.mantissaBits
  exact : ∀ (m : ℕ) (f : ℤ), m < 2 ^ spec.mantissaBits → v = m * 2 ^ f → (n : ℚ) * 2 ^ e = v

theorem IsRounded.exists_nearNormal {v : ℚ} {u : UnpackedFloat} (h : IsRounded spec s v u)
    (hlow : (2 : ℚ) ^ (spec.mantissaBits - 1 + spec.minExponent) ≤ v) :
    ∃ (n : ℕ) (e : ℤ) (hn : 0 < n), u = .finite s n e hn ∧ NearNormal spec v n e := by
  obtain ⟨num, den, e, hden, he, rfl, rfl⟩ := h
  obtain ⟨hbelow, habove⟩ := roundingExponent_bracket hden he hlow
  have hmin := minExponent_le_roundingExponent spec num den e
  generalize ht : roundingExponent spec num den e = t at *
  obtain ⟨p, hp⟩ : ∃ p, spec.mantissaBits = p + 1 :=
    ⟨spec.mantissaBits - 1, by have := one_lt_mantissaBits spec; omega⟩
  have hp' : (spec.mantissaBits : ℤ) - 1 + t = p + t := by omega
  have hunits : 0 < den * 2 ^ (t - e).toNat := Nat.mul_pos hden (Nat.two_pow_pos _)
  rw [fraction_eq hden he, hp'] at hbelow
  rw [fraction_eq hden he, hp] at habove
  obtain ⟨hfull, hfits⟩ := units_bracket hunits hbelow habove
  obtain ⟨hlow', htop⟩ := nearestEven_bracket hunits hfull hfits
  have herror := nearestEven_relative_error (t := t) hunits hfull
  have hexact := fun (m : ℕ) (f : ℤ) => nearestEven_exact (m := m) (f := f) hunits hbelow
  rw [fraction_eq hden he]
  rcases Nat.lt_or_eq_of_le htop with hlt | hcarry
  · have hpos : 0 < nearestEven num (den * 2 ^ (t - e).toNat) :=
      (Nat.two_pow_pos p).trans_le hlow'
    refine ⟨_, t, hpos, roundFraction_fits hden ht he rfl hpos (hp ▸ hlt), ?_⟩
    exact ⟨by rwa [hp], by rwa [hp], hmin, by rwa [hp], by rwa [hp]⟩
  · -- The carry leaves a power of two, the same number with the next exponent.
    have hsame : ((2 ^ (spec.mantissaBits - 1) : ℕ) : ℚ) * 2 ^ (t + 1) =
        (nearestEven num (den * 2 ^ (t - e).toNat) : ℚ) * 2 ^ t := by
      rw [hcarry, hp, zpow_add_one₀ (by norm_num), Nat.add_sub_cancel]
      push_cast
      ring
    refine ⟨_, t + 1, _, roundFraction_carry hden ht he (hp ▸ hcarry), ?_⟩
    refine ⟨le_rfl, ?_, by omega, by rwa [hsame, hp], by rwa [hsame, hp]⟩
    exact Nat.pow_lt_pow_right (by decide) (by omega)

end Round

end CodeAtlas.Binary32
