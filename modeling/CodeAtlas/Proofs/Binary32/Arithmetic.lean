import CodeAtlas.Json.Literal
import CodeAtlas.Proofs.Binary32.Rounding
import CodeAtlas.Proofs.Binary32.Words

/-! # Products, quotients and decimal literals

Each operation gives the exact result, rounded once.
-/

namespace CodeAtlas.Binary32

open Float.Model Float.Model.UnpackedFloat

section Operations

variable {spec : Float.Model.Format} {s : Sign} {n m₁ m₂ : ℕ} {e : ℤ}

theorem roundFraction_one (n : ℕ) (e : ℤ) :
    roundFraction spec s n 1 e = roundWithAccuracy spec s n e .exact := by
  unfold roundFraction accuracyOfFraction
  rw [Nat.div_one, Nat.mod_one, if_pos rfl]

/-- A whole number with all bits of the format is rounded at its unit or above. -/
theorem le_roundingExponent_one (hn : 2 ^ (spec.mantissaBits - 1) ≤ n) :
    e ≤ roundingExponent spec n 1 e := by
  have hbits := one_lt_mantissaBits spec
  have hpos : n ≠ 0 := (Nat.two_pow_pos _).trans_le hn |>.ne'
  have hlog := (Nat.le_log2 hpos).mpr hn
  unfold roundingExponent Float.Model.Format.targetExponent totalExponent
  rw [Nat.div_one]
  omega

theorem isRounded_mul (s₁ s₂ : Sign) (h₁ : 0 < m₁) (e₁ : ℤ) (h₂ : 0 < m₂) (e₂ : ℤ)
    (hlarge : 2 ^ (spec.mantissaBits - 1) ≤ m₁ * m₂) :
    IsRounded spec (s₁ * s₂) (m₁ * 2 ^ e₁ * (m₂ * 2 ^ e₂))
      (UnpackedFloat.mul spec (.finite s₁ m₁ e₁ h₁) (.finite s₂ m₂ e₂ h₂)) := by
  refine ⟨m₁ * m₂, 1, e₁ + e₂, Nat.one_pos, le_roundingExponent_one hlarge, ?_,
    roundFraction_one _ _⟩
  push_cast
  rw [zpow_add₀ (by norm_num)]
  ring

theorem log2_shiftLeft (hn : n ≠ 0) (k : ℕ) : (n <<< k).log2 = n.log2 + k := by
  induction k with
  | zero => rfl
  | succ k ih =>
      have hne : n <<< k ≠ 0 := by
        rw [Nat.shiftLeft_eq]
        positivity
      rw [Nat.shiftLeft_succ, Nat.log2_two_mul hne, ih, Nat.add_assoc]

theorem log2_le_of_div (hn : n ≠ 0) (hm : 0 < m₂) : n.log2 ≤ (n / m₂).log2 + 1 + m₂.log2 := by
  have hquot : n < 2 ^ ((n / m₂).log2 + 1) * m₂ :=
    (Nat.div_lt_iff_lt_mul hm).mp Nat.lt_log2_self
  have hlt : n < 2 ^ ((n / m₂).log2 + 1 + (m₂.log2 + 1)) :=
    hquot.trans (by
      rw [Nat.pow_add 2 _ (m₂.log2 + 1)]
      exact Nat.mul_lt_mul_of_pos_left Nat.lt_log2_self (Nat.two_pow_pos _))
  have := (Nat.log2_lt hn).mpr hlt
  omega

theorem isRounded_div (s₁ s₂ : Sign) (h₁ : 0 < m₁) (e₁ : ℤ) (h₂ : 0 < m₂) (e₂ : ℤ) :
    IsRounded spec (s₁ / s₂) (m₁ * 2 ^ e₁ / (m₂ * 2 ^ e₂))
      (UnpackedFloat.div spec (.finite s₁ m₁ e₁ h₁) (.finite s₂ m₂ e₂ h₂)) := by
  set t := min (e₁ - e₂) (spec.targetExponent (totalExponent m₁ e₁ - totalExponent m₂ e₂)) with ht
  refine ⟨m₁ <<< (e₁ - e₂ - t).toNat, m₂, t, h₂, ?_, ?_, rfl⟩
  · -- The quotient has at least the bits that its operands promise.
    have hlog := log2_shiftLeft h₁.ne' (e₁ - e₂ - t).toNat
    have hbits := log2_le_of_div (n := m₁ <<< (e₁ - e₂ - t).toNat)
      (by rw [Nat.shiftLeft_eq]; positivity) h₂
    unfold roundingExponent Float.Model.Format.targetExponent totalExponent at *
    omega
  · have hshift : (2 : ℚ) ^ (e₁ - e₂ - t).toNat * 2 ^ t = 2 ^ e₁ / 2 ^ e₂ := by
      rw [← zpow_natCast, ← zpow_add₀ (by norm_num), ← zpow_sub₀ (by norm_num)]
      congr 1
      omega
    rw [Nat.shiftLeft_eq]
    push_cast
    rw [mul_div_mul_comm, ← hshift]
    ring

theorem isRounded_ofNat (hn : 0 < n) :
    IsRounded spec .positive n (UnpackedFloat.ofNat spec n) := by
  set t := spec.targetExponent (totalExponent n 0) with ht
  have hnormal : UnpackedFloat.ofNat spec n =
      roundWithAccuracy spec .positive (n <<< (0 - t).toNat) (0 - (0 - t).toNat) .exact := by
    have hcmp : compare (n : ℤ) 0 = .gt := Int.compare_eq_gt.mpr (by omega)
    unfold UnpackedFloat.ofNat UnpackedFloat.ofInt UnpackedFloat.normalize
    rw [hcmp]
    rfl
  rw [hnormal, ← roundFraction_one]
  refine ⟨n <<< (0 - t).toNat, 1, 0 - (0 - t).toNat, Nat.one_pos, ?_, ?_, rfl⟩
  · have hlog := log2_shiftLeft hn.ne' (0 - t).toNat
    unfold roundingExponent Float.Model.Format.targetExponent totalExponent at *
    rw [Nat.div_one]
    omega
  · rw [Nat.shiftLeft_eq, zero_sub (((0 - t).toNat : ℕ) : ℤ), zpow_neg, zpow_natCast]
    push_cast
    field_simp

end Operations

/-! ## Positive normal numbers of 64 bits -/

/-- `x` is the positive normal number `w`. -/
def Stores (x : Float) (w : ℚ) : Prop :=
  ∃ (n : ℕ) (e : ℤ) (hn : 0 < n), Canonical .binary64 n e ∧ 4503599627370496 ≤ n ∧
    (n : ℚ) * 2 ^ e = w ∧ wide (.finite .positive n e hn) = x

/-- `w` is close to `v`, and it is `v` if that has no more than 53 bits. -/
structure Close (v w : ℚ) : Prop where
  error : |w - v| ≤ v / 2 ^ 53
  exact : ∀ (m : ℕ) (f : ℤ), m < 2 ^ 53 → v = m * 2 ^ f → w = v

section Stores

variable {x y : Float} {v w : ℚ} {u : UnpackedFloat}

theorem IsRounded.exists_stores (h : IsRounded .binary64 .positive v u)
    (hlow : (2 : ℚ) ^ (-200 : ℤ) ≤ v) (hhigh : v < 2 ^ (200 : ℤ)) :
    ∃ w, Stores (wide u) w ∧ Close v w := by
  have hnormal : (2 : ℚ) ^ ((Float.Model.Format.binary64.mantissaBits : ℤ) - 1 +
      Float.Model.Format.binary64.minExponent) ≤ v :=
    (zpow_two_le_iff.mpr (by decide)).trans hlow
  obtain ⟨n, e, hn, rfl, hnear⟩ := h.exists_nearNormal hnormal
  have hfull : 4503599627370496 ≤ n := hnear.low
  refine ⟨n * 2 ^ e, ⟨n, e, hn, ?_, hfull, rfl, rfl⟩, hnear.error, hnear.exact⟩
  refine canonical_binary64 hfull hnear.high hnear.minExponent_le ?_
  -- The exponent is bounded because the rounded number is below twice the exact one.
  have herror : |(n : ℚ) * 2 ^ e - v| ≤ v / 2 ^ 53 := hnear.error
  have hdouble : (n : ℚ) * 2 ^ e < 2 ^ (201 : ℤ) := by
    have hpos : 0 < v := (zpow_two_pos _).trans_le hlow
    have habove := (abs_le.mp herror).2
    have hsmall : v / 2 ^ 53 ≤ v := div_le_self hpos.le (by norm_num)
    calc (n : ℚ) * 2 ^ e ≤ v * 2 := by linarith only [habove, hsmall]
      _ < 2 ^ (200 : ℤ) * 2 := mul_lt_mul_of_pos_right hhigh (by norm_num)
      _ = 2 ^ (201 : ℤ) := (zpow_add_one₀ (by norm_num) 200).symm
  have hfull' : (2 : ℚ) ^ (52 : ℤ) ≤ n := by
    norm_num
    exact_mod_cast hfull
  have hle : (2 : ℚ) ^ (52 + e) ≤ n * 2 ^ e := by
    rw [zpow_add₀ (by norm_num)]
    exact mul_le_mul_of_nonneg_right hfull' (zpow_two_pos e).le
  have := zpow_two_lt_iff.mp (hle.trans_lt hdouble)
  omega

theorem Stores.mul (hx : Stores x v) (hy : Stores y w) (hlow : (2 : ℚ) ^ (-200 : ℤ) ≤ v * w)
    (hhigh : v * w < 2 ^ (200 : ℤ)) : ∃ z, Stores (x * y) z ∧ Close (v * w) z := by
  obtain ⟨n₁, e₁, hn₁, hc₁, hf₁, rfl, rfl⟩ := hx
  obtain ⟨n₂, e₂, hn₂, hc₂, hf₂, rfl, rfl⟩ := hy
  have hop : wide (.finite .positive n₁ e₁ hn₁) * wide (.finite .positive n₂ e₂ hn₂) =
      wide (UnpackedFloat.mul .binary64 (.finite .positive n₁ e₁ hn₁)
        (.finite .positive n₂ e₂ hn₂)) := by
    show wide (UnpackedFloat.mul .binary64
      (UnpackedFloat.unpack .binary64 (UnpackedFloat.pack .binary64 _))
      (UnpackedFloat.unpack .binary64 (UnpackedFloat.pack .binary64 _))) = _
    rw [hc₁.unpack_pack, hc₂.unpack_pack]
  have hlarge : 2 ^ (Float.Model.Format.binary64.mantissaBits - 1) ≤ n₁ * n₂ :=
    hf₁.trans (Nat.le_mul_of_pos_right n₁ hn₂)
  rw [hop]
  exact (isRounded_mul .positive .positive hn₁ e₁ hn₂ e₂ hlarge).exists_stores hlow hhigh

theorem Stores.div (hx : Stores x v) (hy : Stores y w) (hlow : (2 : ℚ) ^ (-200 : ℤ) ≤ v / w)
    (hhigh : v / w < 2 ^ (200 : ℤ)) : ∃ z, Stores (x / y) z ∧ Close (v / w) z := by
  obtain ⟨n₁, e₁, hn₁, hc₁, hf₁, rfl, rfl⟩ := hx
  obtain ⟨n₂, e₂, hn₂, hc₂, hf₂, rfl, rfl⟩ := hy
  have hop : wide (.finite .positive n₁ e₁ hn₁) / wide (.finite .positive n₂ e₂ hn₂) =
      wide (UnpackedFloat.div .binary64 (.finite .positive n₁ e₁ hn₁)
        (.finite .positive n₂ e₂ hn₂)) := by
    show wide (UnpackedFloat.div .binary64
      (UnpackedFloat.unpack .binary64 (UnpackedFloat.pack .binary64 _))
      (UnpackedFloat.unpack .binary64 (UnpackedFloat.pack .binary64 _))) = _
    rw [hc₁.unpack_pack, hc₂.unpack_pack]
  rw [hop]
  exact (isRounded_div .positive .positive hn₁ e₁ hn₂ e₂).exists_stores hlow hhigh

/-- A whole number of at most 53 bits is stored as it is. -/
theorem stores_toFloat {n : ℕ} (hpos : 0 < n) (hlt : n < 2 ^ 53) :
    Stores n.toUInt64.toFloat n := by
  have hlow : (2 : ℚ) ^ (-200 : ℤ) ≤ n := by
    have : (1 : ℚ) ≤ n := by exact_mod_cast hpos
    exact (zpow_le_one_of_nonpos₀ (by norm_num) (by norm_num)).trans this
  have hhigh : (n : ℚ) < 2 ^ (200 : ℤ) := by
    have : (n : ℚ) < 2 ^ (53 : ℤ) := by exact_mod_cast hlt
    exact this.trans (zpow_two_lt_iff.mpr (by norm_num))
  have hsame : n.toUInt64.toNat = n := by
    show n % 18446744073709551616 = n
    exact Nat.mod_eq_of_lt (hlt.trans (by norm_num))
  obtain ⟨w, hstores, hclose⟩ := (isRounded_ofNat hpos).exists_stores hlow hhigh
  rw [hclose.exact n 0 hlt (by norm_num)] at hstores
  have hop : n.toUInt64.toFloat = wide (UnpackedFloat.ofNat .binary64 n.toUInt64.toNat) := rfl
  rwa [hop, hsame]

end Stores

/-! ## Powers of ten -/

theorem stores_of_toBits {x : Float} {bits : ℕ} (h : x.toBits.toNat = bits)
    (hlow : 4503599627370496 ≤ bits) (hhigh : bits < 2047 * 4503599627370496) :
    Stores x ((4503599627370496 + bits % 4503599627370496 : ℕ) *
      2 ^ ((bits / 4503599627370496 : ℕ) - 1075 : ℤ)) := by
  have hmod := Nat.mod_lt bits (show 0 < 4503599627370496 by decide)
  have hcanonical : Canonical .binary64 (4503599627370496 + bits % 4503599627370496)
      ((bits / 4503599627370496 : ℕ) - 1075) := by
    apply canonical_binary64 <;> omega
  refine ⟨_, _, by omega, hcanonical, by omega, rfl, wide_ext ?_⟩
  rw [toNat_toBits_wide hcanonical (by omega), h]
  show (0 * 2048 + _) * _ + _ = _
  omega

/-- Is this power of ten stored with a small error, and without one as long as it fits? -/
def powerFits (k : ℕ) : Bool :=
  let bits := (Json.Literal.powerOfTen k).toBits.toNat
  let stored := (4503599627370496 + bits % 4503599627370496) *
    Nat.pow 2 (bits / 4503599627370496 - 1023)
  let power := Nat.pow 10 k * Nat.pow 2 52
  1023 * 4503599627370496 ≤ bits && bits < 2047 * 4503599627370496 &&
    stored * Nat.pow 2 53 ≤ power * (Nat.pow 2 53 + 1) &&
    power * Nat.pow 2 53 ≤ stored * Nat.pow 2 53 + power && (22 < k || stored == power)

theorem powerFits_of_lt : ∀ k < 47, powerFits k = true := by
  decide +kernel

theorem stores_powerOfTen {k : ℕ} (hk : k < 47) :
    ∃ w : ℚ, Stores (Json.Literal.powerOfTen k) w ∧ |w - 10 ^ k| ≤ 10 ^ k / 2 ^ 53 ∧
      (k ≤ 22 → w = 10 ^ k) := by
  have hfits := powerFits_of_lt k hk
  unfold powerFits at hfits
  simp only [Bool.and_eq_true, Bool.or_eq_true, decide_eq_true_eq, beq_iff_eq] at hfits
  obtain ⟨⟨⟨⟨hlow, hhigh⟩, habove⟩, hbelow⟩, hexact⟩ := hfits
  refine ⟨_, stores_of_toBits rfl (by omega) hhigh, ?_⟩
  generalize (Json.Literal.powerOfTen k).toBits.toNat = bits at *
  have hfield : 1023 ≤ bits / 4503599627370496 := by omega
  generalize 4503599627370496 + bits % 4503599627370496 = n at *
  generalize bits / 4503599627370496 = field at *
  have hunit : (n : ℚ) * 2 ^ (field - 1023) = n * 2 ^ ((field : ℤ) - 1075) * 2 ^ 52 := by
    rw [mul_assoc, ← zpow_natCast, ← zpow_natCast, ← zpow_add₀ (by norm_num)]
    congr 2
    omega
  have habove' : (n : ℚ) * 2 ^ (field - 1023) * 2 ^ 53 ≤ 10 ^ k * 2 ^ 52 * (2 ^ 53 + 1) := by
    exact_mod_cast habove
  have hbelow' : (10 : ℚ) ^ k * 2 ^ 52 * 2 ^ 53 ≤
      n * 2 ^ (field - 1023) * 2 ^ 53 + 10 ^ k * 2 ^ 52 := by
    exact_mod_cast hbelow
  have hexact' : k ≤ 22 → (n : ℚ) * 2 ^ (field - 1023) = 10 ^ k * 2 ^ 52 := by
    intro hle
    exact_mod_cast hexact.resolve_left (by omega)
  rw [hunit] at habove' hbelow' hexact'
  refine ⟨?_, fun hle => mul_right_cancel₀ (by positivity) (hexact' hle)⟩
  rw [abs_le]
  constructor <;> linarith

/-! ## Narrowing -/

/-- The number `n * 2 ^ e` as it is handed over for narrowing, a decimal fraction. -/
def narrowed (n : ℕ) (e : ℤ) : Float32 :=
  if e < 0 then Float32.ofScientific (n * 5 ^ (-e).toNat) true (-e).toNat
  else Float32.ofScientific (n * 2 ^ e.toNat) false 0

section Narrowing

variable {negative : Bool} {n : ℕ} {e : ℤ} {hn : 0 < n}

theorem ofWide_wide (h : Canonical .binary64 n e) (hlow : 4503599627370496 ≤ n) :
    ofWide (wide (.finite (signOf negative) n e hn)) =
      if negative then -narrowed n e else narrowed n e := by
  have hhigh : n < 9007199254740992 := h.lt
  have hmin : -1074 ≤ e := h.minExponent_le
  have hmax : e + 52 ≤ 1023 := h.le_bias
  have hbits := @toNat_toBits_wide (signOf negative) n e hn h hlow
  have hsign : (signOf negative).toBitVec.toNat = if negative then 1 else 0 := by
    cases negative <;> rfl
  rw [hsign] at hbits
  have hbit : (if negative then 1 else 0) < 2 ∧
      ((if negative then 1 else 0) = 1 ↔ negative = true) := by
    cases negative <;> decide
  generalize wide (.finite (signOf negative) n e hn) = x at *
  generalize (if negative = true then 1 else 0) = bit at *
  have hfield : wideField x = (e + 1075).toNat := by
    show x.toBits.toNat / 4503599627370496 % 2048 = _
    omega
  have hmantissa : wideMantissa x = n := by
    unfold wideMantissa
    rw [hfield, if_neg (by omega)]
    show 4503599627370496 + x.toBits.toNat % 4503599627370496 = _
    omega
  have htop : x.toBits.toNat / Nat.pow 2 63 = bit := by
    show x.toBits.toNat / 9223372036854775808 = _
    omega
  have hmaxField : max (e + 1075).toNat 1 = (e + 1075).toNat := by omega
  unfold ofWide narrowed
  simp only [hfield, hmantissa, htop, hmaxField, hbit.2]
  by_cases hneg : e < 0
  · rw [if_pos (show (e + 1075).toNat < 1075 by omega), if_pos hneg,
      show 1075 - (e + 1075).toNat = (-e).toNat by omega]
    rfl
  · rw [if_neg (show ¬ (e + 1075).toNat < 1075 by omega), if_neg hneg,
      show (e + 1075).toNat - 1075 = e.toNat by omega]
    rfl

theorem ofScientific_large {m : ℕ} (hm : 2 ^ 23 ≤ m) (below : Bool) (k : ℕ) :
    Float32.ofScientific m below k =
      single (UnpackedFloat.ofScientific .binary32 m (if below then -(k : ℤ) else k)) := by
  unfold Float32.ofScientific
  rw [dif_neg (by omega)]
  cases below
  · rfl
  · show single (UnpackedFloat.ofScientific .binary32 m (Int.negOfNat k)) = _
    rw [Int.negOfNat_eq]
    rfl

/-- A whole number divided by a power of ten. -/
theorem isRounded_ofScientific_neg {m k : ℕ} (hm : 0 < m) (hk : 0 < k) (hlarge : 2 ^ k ≤ m) :
    IsRounded .binary32 .positive (m / 10 ^ k)
      (UnpackedFloat.ofScientific .binary32 m (-(k : ℤ))) := by
  have hlog : k ≤ m.log2 := (Nat.le_log2 hm.ne').mpr hlarge
  have hten : 0 < 10 ^ (-(-(k : ℤ))).toNat := Nat.pow_pos (by decide)
  have hvalue : (m * 2 ^ (0 : ℤ) / ((10 ^ (-(-(k : ℤ))).toNat : ℕ) * 2 ^ (0 : ℤ)) : ℚ) =
      m / 10 ^ k := by
    simp
  rw [← hvalue]
  unfold UnpackedFloat.ofScientific
  rw [dif_neg hm.ne', if_neg (by norm_num), if_neg (by norm_num; omega), if_neg (by omega)]
  exact isRounded_div .positive .positive hm 0 hten 0

theorem isRounded_ofScientific_zero {m : ℕ} (hm : 0 < m) :
    IsRounded .binary32 .positive m (UnpackedFloat.ofScientific .binary32 m 0) := by
  have hshifted : 0 < m <<< 24 := by
    rw [Nat.shiftLeft_eq]
    positivity
  have hlarge : 2 ^ 23 ≤ m <<< 24 * 1 := by
    rw [Nat.shiftLeft_eq]
    omega
  have hvalue : ((m <<< 24 : ℕ) : ℚ) * 2 ^ (-24 : ℤ) * ((1 : ℕ) * 2 ^ (0 : ℤ)) = m := by
    rw [Nat.shiftLeft_eq]
    norm_num
    ring
  rw [← hvalue]
  unfold UnpackedFloat.ofScientific
  rw [dif_neg hm.ne', if_neg (by norm_num), if_neg (by norm_num), if_pos le_rfl]
  exact isRounded_mul .positive .positive hshifted (-24) Nat.one_pos 0 hlarge

theorem exists_isRounded_narrowed (e : ℤ) (hlow : 4503599627370496 ≤ n) :
    ∃ u, IsRounded .binary32 .positive (n * 2 ^ e) u ∧ narrowed n e = single u := by
  have hn : 0 < n := by omega
  unfold narrowed
  by_cases hneg : e < 0
  · obtain ⟨k, rfl⟩ : ∃ k : ℕ, e = -k := ⟨(-e).toNat, by omega⟩
    have hk : (-(-(k : ℤ))).toNat = k := by omega
    have hpos : 0 < n * 5 ^ k := by positivity
    have hlarge : 2 ^ k ≤ n * 5 ^ k :=
      (Nat.pow_le_pow_left (by decide) k).trans (Nat.le_mul_of_pos_left _ hn)
    have hmantissa : 2 ^ 23 ≤ n * 5 ^ k :=
      (show 2 ^ 23 ≤ n by omega).trans (Nat.le_mul_of_pos_right n (by positivity))
    have hvalue : (n : ℚ) * 2 ^ (-(k : ℤ)) = (n * 5 ^ k : ℕ) / 10 ^ k := by
      rw [zpow_neg, zpow_natCast, show (10 : ℚ) = 2 * 5 by norm_num, mul_pow]
      push_cast
      field_simp
    rw [if_pos hneg, hk, ofScientific_large hmantissa]
    refine ⟨_, ?_, rfl⟩
    rw [hvalue]
    exact isRounded_ofScientific_neg hpos (by omega) hlarge
  · obtain ⟨k, rfl⟩ : ∃ k : ℕ, e = k := ⟨e.toNat, by omega⟩
    have hmantissa : 2 ^ 23 ≤ n * 2 ^ k :=
      (show 2 ^ 23 ≤ n by omega).trans (Nat.le_mul_of_pos_right n (by positivity))
    rw [if_neg hneg, Int.toNat_natCast, ofScientific_large hmantissa]
    refine ⟨_, ?_, rfl⟩
    have hrounded := isRounded_ofScientific_zero (m := n * 2 ^ k) (by positivity)
    push_cast at hrounded
    rw [zpow_natCast]
    exact hrounded

end Narrowing

/-- Narrowing rounds once more. -/
theorem Stores.exists_ofWide {x : Float} {w : ℚ} (h : Stores x w) :
    ∃ u, IsRounded .binary32 .positive w u ∧
      ∀ negative : Bool, ofWide (if negative then -x else x) =
        if negative then -single u else single u := by
  obtain ⟨n, e, hn, hcanonical, hlow, rfl, rfl⟩ := h
  obtain ⟨u, hrounded, hsingle⟩ := exists_isRounded_narrowed e hlow
  refine ⟨u, hrounded, fun negative => ?_⟩
  have hsigned : (if negative then -wide (.finite .positive n e hn)
      else wide (.finite .positive n e hn)) = wide (.finite (signOf negative) n e hn) := by
    cases negative
    · rfl
    · exact neg_wide hcanonical
  rw [hsigned, ofWide_wide hcanonical hlow, hsingle]

end CodeAtlas.Binary32
