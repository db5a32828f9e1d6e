import Mathlib.Tactic.Ring
import CodeAtlas.Binary32

/-! # Numbers and their bits

A finite number is stored as its sign, an exponent field and the low bits of its significand,
and the same number can be read off the bits again.
-/

namespace CodeAtlas.Binary32

open Float.Model Float.Model.UnpackedFloat

/-- The significand and the exponent under which a format stores a number. -/
structure Canonical (spec : Float.Model.Format) (n : ℕ) (e : ℤ) : Prop where
  lt : n < 2 ^ spec.mantissaBits
  minExponent_le : spec.minExponent ≤ e
  le_bias : e + spec.mantissaBitsWithoutImplicit ≤ spec.exponentBias
  low : 2 ^ spec.mantissaBitsWithoutImplicit ≤ n ∨ e = spec.minExponent

/-- The exponent field; it is zero below the normal numbers. -/
def exponentField (spec : Float.Model.Format) (n : ℕ) (e : ℤ) : ℕ :=
  if n < 2 ^ spec.mantissaBitsWithoutImplicit then 0
  else (e + spec.exponentBias + spec.mantissaBitsWithoutImplicit).toNat

section Pack

variable {spec : Float.Model.Format} {s : Sign} {n : ℕ} {e : ℤ} {hn : 0 < n}

theorem toNat_packComponents (spec : Float.Model.Format) (s : Sign)
    (exponent : BitVec spec.exponentBits)
    (mantissa : BitVec spec.mantissaBitsWithoutImplicit) :
    (packComponents spec s exponent mantissa).toNat =
      (s.toBitVec.toNat * 2 ^ spec.exponentBits + exponent.toNat) *
        2 ^ spec.mantissaBitsWithoutImplicit + mantissa.toNat := by
  unfold packComponents
  rw [BitVec.toNat_append, ← Nat.shiftLeft_add_eq_or_of_lt mantissa.isLt, BitVec.toNat_append,
    ← Nat.shiftLeft_add_eq_or_of_lt exponent.isLt, Nat.shiftLeft_eq, Nat.shiftLeft_eq]

theorem ofBitVec_unpackSign_packComponents (exponent : BitVec spec.exponentBits)
    (mantissa : BitVec spec.mantissaBitsWithoutImplicit) :
    Sign.ofBitVec (unpackSign (packComponents spec s exponent mantissa)) = s := by
  have hsign : unpackSign (packComponents spec s exponent mantissa) = s.toBitVec := by
    apply BitVec.eq_of_getLsbD_eq
    intro i hi
    obtain rfl : i = 0 := by omega
    unfold unpackSign packComponents
    simp [BitVec.getLsbD_append, BitVec.getElem_append]
  rw [hsign]
  cases s <;> rfl

theorem two_pow_exponentBits (spec : Float.Model.Format) :
    2 ^ spec.exponentBits = 2 * spec.exponentBias + 2 := by
  have hpos : 0 < 2 ^ (spec.exponentBits - 1) := Nat.two_pow_pos _
  have hsplit : 2 ^ spec.exponentBits = 2 ^ (spec.exponentBits - 1) * 2 := by
    rw [← Nat.pow_succ, Nat.succ_eq_add_one, Nat.sub_add_cancel spec.he]
  unfold Float.Model.Format.exponentBias
  omega

theorem minExponent_eq (spec : Float.Model.Format) :
    spec.minExponent + spec.exponentBias + spec.mantissaBitsWithoutImplicit = 1 := by
  have hpos : 0 < 2 ^ (spec.exponentBits - 1) := Nat.two_pow_pos _
  unfold Float.Model.Format.minExponent Float.Model.Format.exponentBias
    Float.Model.Format.mantissaBits
  push_cast [Nat.cast_sub hpos]
  ring

theorem two_pow_mantissaBits (spec : Float.Model.Format) :
    2 ^ spec.mantissaBits = 2 * 2 ^ spec.mantissaBitsWithoutImplicit := by
  unfold Float.Model.Format.mantissaBits
  rw [Nat.pow_add, Nat.pow_one]

theorem Canonical.log2_eq_iff (h : Canonical spec n e) (hn : 0 < n) :
    n.log2 + 1 = spec.mantissaBits ↔ ¬ n < 2 ^ spec.mantissaBitsWithoutImplicit := by
  have hhigh : n.log2 < spec.mantissaBits := (Nat.log2_lt hn.ne').mpr h.lt
  have hlow := Nat.log2_lt (k := spec.mantissaBitsWithoutImplicit) hn.ne'
  unfold Float.Model.Format.mantissaBits at *
  omega

theorem Canonical.exponentField_lt (h : Canonical spec n e) :
    exponentField spec n e + 1 < 2 ^ spec.exponentBits := by
  have hbias := two_pow_exponentBits spec
  have := h.le_bias
  unfold exponentField
  split <;> omega

theorem Canonical.pack_finite (h : Canonical spec n e) :
    UnpackedFloat.pack spec (.finite s n e hn) =
      packComponents spec s (BitVec.ofNat spec.exponentBits (exponentField spec n e))
        (BitVec.ofNat spec.mantissaBitsWithoutImplicit n) := by
  have hbias := two_pow_exponentBits spec
  have hle := h.le_bias
  have hfits : ¬ 2 ^ spec.exponentBits ≤
      (e + spec.exponentBias + spec.mantissaBitsWithoutImplicit).toNat + 1 := by
    omega
  unfold UnpackedFloat.pack exponentField
  simp only [if_neg hfits, h.log2_eq_iff hn]
  by_cases hlow : n < 2 ^ spec.mantissaBitsWithoutImplicit
  · simp [hlow]
  · simp [hlow]

theorem toNat_implicit {f : ℕ} (m : BitVec f) : (1#1 ++ m).toNat = 2 ^ f + m.toNat := by
  rw [BitVec.toNat_append, ← Nat.shiftLeft_add_eq_or_of_lt m.isLt]
  simp [Nat.shiftLeft_eq]

theorem eq_neg_one_iff {w : ℕ} (b : BitVec w) : b = -1#_ ↔ b.toNat + 1 = 2 ^ w := by
  have hpos := Nat.two_pow_pos w
  rw [BitVec.neg_one_eq_allOnes, ← BitVec.toNat_inj, BitVec.toNat_allOnes]
  omega

theorem unpack_of_subnormal {b : BitVec spec.numBits} (hzero : unpackExponent b = 0#_)
    (hpos : 0 < (unpackMantissa b).toNat) :
    UnpackedFloat.unpack spec b =
      .finite (.ofBitVec (unpackSign b)) (unpackMantissa b).toNat spec.minExponent hpos := by
  have hmin := minExponent_eq spec
  have hbits := two_pow_exponentBits spec
  have hfinite : unpackExponent b ≠ -1#_ := by
    rw [ne_eq, eq_neg_one_iff, hzero, BitVec.toNat_zero]
    omega
  have hmantissa : unpackMantissa b ≠ 0#_ := by
    intro heq
    rw [heq, BitVec.toNat_zero] at hpos
    exact hpos.false
  have hexponent : ((unpackExponent b).toNat : ℤ) -
      (spec.exponentBias + spec.mantissaBitsWithoutImplicit) + 1 = spec.minExponent := by
    rw [hzero, BitVec.toNat_zero]
    omega
  unfold UnpackedFloat.unpack
  rw [if_neg hfinite, if_pos hzero, dif_neg hmantissa, UnpackedFloat.finite.injEq]
  exact ⟨rfl, rfl, hexponent⟩

theorem unpack_of_normal {b : BitVec spec.numBits} (hzero : unpackExponent b ≠ 0#_)
    (hfinite : unpackExponent b ≠ -1#_) (hpos : 0 < (1#1 ++ unpackMantissa b).toNat) :
    UnpackedFloat.unpack spec b =
      .finite (.ofBitVec (unpackSign b)) (1#1 ++ unpackMantissa b).toNat
        ((unpackExponent b).toNat - (spec.exponentBias + spec.mantissaBitsWithoutImplicit))
        hpos := by
  unfold UnpackedFloat.unpack
  rw [if_neg hfinite, if_neg hzero]

theorem Canonical.toNat_exponentField (h : Canonical spec n e) :
    (BitVec.ofNat spec.exponentBits (exponentField spec n e)).toNat = exponentField spec n e := by
  have hfield := h.exponentField_lt
  rw [BitVec.toNat_ofNat, Nat.mod_eq_of_lt (by omega)]

/-- Below the normal numbers the significand stands in the word as it is. -/
theorem Canonical.unpack_pack_of_lt (h : Canonical spec n e)
    (hlow : n < 2 ^ spec.mantissaBitsWithoutImplicit) :
    UnpackedFloat.unpack spec (UnpackedFloat.pack spec (.finite s n e hn)) =
      .finite s n e hn := by
  have he : e = spec.minExponent := h.low.resolve_left (by omega)
  have hzero : exponentField spec n e = 0 := if_pos hlow
  have hmantissa : (BitVec.ofNat spec.mantissaBitsWithoutImplicit n).toNat = n := by
    rw [BitVec.toNat_ofNat, Nat.mod_eq_of_lt hlow]
  rw [h.pack_finite, unpack_of_subnormal (by rw [unpackExponent_packComponents, hzero])
    (by rwa [unpackMantissa_packComponents, hmantissa]), UnpackedFloat.finite.injEq,
    ofBitVec_unpackSign_packComponents, unpackMantissa_packComponents]
  exact ⟨rfl, hmantissa, he.symm⟩

/-- A normal number leaves out its first bit. -/
theorem Canonical.unpack_pack_of_le (h : Canonical spec n e)
    (hlow : 2 ^ spec.mantissaBitsWithoutImplicit ≤ n) :
    UnpackedFloat.unpack spec (UnpackedFloat.pack spec (.finite s n e hn)) =
      .finite s n e hn := by
  have hmin := minExponent_eq spec
  have hle := h.minExponent_le
  have hlt := h.lt
  have hfield := h.exponentField_lt
  have hvalue : exponentField spec n e =
      (e + spec.exponentBias + spec.mantissaBitsWithoutImplicit).toNat := if_neg hlow.not_gt
  have hne : BitVec.ofNat spec.exponentBits (exponentField spec n e) ≠ 0#_ := by
    rw [ne_eq, ← BitVec.toNat_inj, h.toNat_exponentField, BitVec.toNat_zero]
    omega
  have hfinite : BitVec.ofNat spec.exponentBits (exponentField spec n e) ≠ -1#_ := by
    rw [ne_eq, eq_neg_one_iff, h.toNat_exponentField]
    omega
  have hmantissa : (1#1 ++ BitVec.ofNat spec.mantissaBitsWithoutImplicit n).toNat = n := by
    rw [two_pow_mantissaBits] at hlt
    rw [toNat_implicit, BitVec.toNat_ofNat, Nat.mod_eq_sub_mod hlow,
      Nat.mod_eq_of_lt (by omega)]
    omega
  rw [h.pack_finite, unpack_of_normal (by rwa [unpackExponent_packComponents])
    (by rwa [unpackExponent_packComponents])
    (by rwa [unpackMantissa_packComponents, hmantissa]), UnpackedFloat.finite.injEq,
    ofBitVec_unpackSign_packComponents, unpackMantissa_packComponents,
    unpackExponent_packComponents, h.toNat_exponentField]
  exact ⟨rfl, hmantissa, by omega⟩

/-- A stored number can be read again. -/
theorem Canonical.unpack_pack (h : Canonical spec n e) :
    UnpackedFloat.unpack spec (UnpackedFloat.pack spec (.finite s n e hn)) =
      .finite s n e hn :=
  (Nat.lt_or_ge n (2 ^ spec.mantissaBitsWithoutImplicit)).elim h.unpack_pack_of_lt
    h.unpack_pack_of_le

theorem Canonical.toNat_pack (h : Canonical spec n e) :
    (UnpackedFloat.pack spec (.finite s n e hn)).toNat =
      (s.toBitVec.toNat * 2 ^ spec.exponentBits + exponentField spec n e) *
        2 ^ spec.mantissaBitsWithoutImplicit + n % 2 ^ spec.mantissaBitsWithoutImplicit := by
  rw [h.pack_finite, toNat_packComponents, h.toNat_exponentField, BitVec.toNat_ofNat]

end Pack

/-! ## Numbers of 32 bits -/

/-- The 32-bit number that stores an unpacked one. -/
def single (u : UnpackedFloat) : Float32 :=
  .ofModel (Float32.Model.pack u)

theorem single_ext {x y : Float32} (h : x.toBits.toNat = y.toBits.toNat) : x = y := by
  obtain ⟨⟨bits, _⟩⟩ := x
  obtain ⟨⟨bits', _⟩⟩ := y
  obtain rfl : bits = bits' := UInt32.toNat_inj.mp h
  rfl

/-- The sign of a number. -/
def signOf (negative : Bool) : Sign :=
  if negative then .negative else .positive

theorem canonical_binary32 {n : ℕ} {e : ℤ} (hlt : n < 16777216) (hmin : -149 ≤ e) (hmax : e ≤ 104)
    (hlow : 8388608 ≤ n ∨ e = -149) : Canonical .binary32 n e :=
  ⟨hlt, hmin, by show e + (23 : ℤ) ≤ 127; omega, hlow⟩

section Single

variable {x : Float32} {m : Magnitude}

/-- A finite number lies below the normal numbers, or it is a normal number. -/
theorem magnitude?_cases (h : magnitude? x = some m) :
    (x.toBits.toNat / 8388608 % 256 = 0 ∧ m = ⟨x.toBits.toNat % 8388608, -149, false⟩) ∨
    (x.toBits.toNat / 8388608 % 256 ≠ 0 ∧ x.toBits.toNat / 8388608 % 256 < 255 ∧
      m = ⟨8388608 + x.toBits.toNat % 8388608, (x.toBits.toNat / 8388608 % 256 : ℕ) - 150,
        x.toBits.toNat % 8388608 == 0 && x.toBits.toNat / 8388608 % 256 != 1⟩) := by
  unfold magnitude? at h
  simp only [show Nat.pow 2 23 = 8388608 from rfl, show Nat.pow 2 8 = 256 from rfl] at h
  have hlt := Nat.mod_lt (x.toBits.toNat / 8388608) (show 0 < 256 by decide)
  split_ifs at h with hinf hzero
  · exact .inl ⟨hzero, (Option.some.inj h).symm⟩
  · exact .inr ⟨hzero, by omega, (Option.some.inj h).symm⟩

theorem canonical_of_magnitude? (h : magnitude? x = some m) :
    Canonical .binary32 m.mantissa m.exponent := by
  have hmod := Nat.mod_lt x.toBits.toNat (show 0 < 8388608 by decide)
  obtain ⟨-, rfl⟩ | ⟨hzero, hinf, rfl⟩ := magnitude?_cases h
  · apply canonical_binary32 <;> dsimp only <;> omega
  · apply canonical_binary32 <;> dsimp only <;> omega

theorem narrow_iff_of_magnitude? (h : magnitude? x = some m) :
    m.narrow = true ↔ m.mantissa = 8388608 ∧ m.exponent ≠ -149 := by
  have hmod := Nat.mod_lt x.toBits.toNat (show 0 < 8388608 by decide)
  obtain ⟨-, rfl⟩ | ⟨hzero, hinf, rfl⟩ := magnitude?_cases h
  · simp
  · simp only [Bool.and_eq_true, beq_iff_eq, bne_iff_ne]
    omega

theorem eq_single_of_magnitude? (h : magnitude? x = some m) (hpos : 0 < m.mantissa) :
    x = single (.finite (signOf (isNegative x)) m.mantissa m.exponent hpos) := by
  have hlt : x.toBits.toNat < 4294967296 := x.toBits.toNat_lt
  have hsign : (signOf (isNegative x)).toBitVec.toNat = x.toBits.toNat / 2147483648 := by
    unfold isNegative signOf
    simp only [show Nat.pow 2 31 = 2147483648 from rfl, beq_iff_eq]
    split_ifs with hbit
    · rw [hbit]
      rfl
    · show 0 = _
      omega
  apply single_ext
  show _ = (UnpackedFloat.pack .binary32 _).toNat
  rw [(canonical_of_magnitude? h).toNat_pack, hsign]
  unfold exponentField
  simp only [show 2 ^ Float.Model.Format.binary32.mantissaBitsWithoutImplicit = 8388608 from rfl,
    show 2 ^ Float.Model.Format.binary32.exponentBits = 256 from rfl,
    show Float.Model.Format.binary32.exponentBias = 127 from rfl]
  obtain ⟨hzero, rfl⟩ | ⟨hzero, hinf, rfl⟩ := magnitude?_cases h
  · rw [if_pos (show x.toBits.toNat % 8388608 < 8388608 by omega)]
    show x.toBits.toNat = (x.toBits.toNat / 2147483648 * 256 + 0) * 8388608 +
      x.toBits.toNat % 8388608 % 8388608
    omega
  · rw [if_neg (show ¬ 8388608 + x.toBits.toNat % 8388608 < 8388608 by omega)]
    show x.toBits.toNat = (x.toBits.toNat / 2147483648 * 256 +
      ((x.toBits.toNat / 8388608 % 256 : ℕ) - 150 + (127 : ℕ) + (23 : ℕ) : ℤ).toNat) * 8388608 +
        (8388608 + x.toBits.toNat % 8388608) % 8388608
    omega

theorem toNat_unpackExponent (b : BitVec Float.Model.Format.binary32.numBits) :
    (unpackExponent b).toNat = b.toNat / 8388608 % 256 := by
  unfold unpackExponent
  rw [BitVec.toNat_cast, BitVec.extractLsb_toNat, Nat.shiftRight_eq_div_pow]
  rfl

theorem isFinite_unpack_iff {b : BitVec spec.numBits} :
    (UnpackedFloat.unpack spec b).isFinite = true ↔ unpackExponent b ≠ -1#_ := by
  unfold UnpackedFloat.unpack
  by_cases hinf : unpackExponent b = -1#_
  · rw [if_pos hinf]
    refine iff_of_false ?_ (not_not_intro hinf)
    by_cases hmantissa : unpackMantissa b = 0#_
    · rw [if_pos hmantissa]
      exact Bool.false_ne_true
    · rw [if_neg hmantissa]
      exact Bool.false_ne_true
  · rw [if_neg hinf]
    refine iff_of_true ?_ hinf
    by_cases hzero : unpackExponent b = 0#_
    · rw [if_pos hzero]
      by_cases hmantissa : unpackMantissa b = 0#_
      · rw [dif_pos hmantissa]
        rfl
      · rw [dif_neg hmantissa]
        rfl
    · rw [if_neg hzero]
      rfl

/-- Exactly the finite numbers have a magnitude. -/
theorem isSome_magnitude? (x : Float32) : (magnitude? x).isSome = x.isFinite := by
  have hfield : @unpackExponent .binary32 x.toBits.toBitVec = -1#_ ↔
      x.toBits.toNat / 8388608 % 256 = 255 := by
    rw [eq_neg_one_iff, toNat_unpackExponent]
    exact Nat.succ_inj
  have hmagnitude : (magnitude? x).isSome = true ↔ x.toBits.toNat / 8388608 % 256 ≠ 255 := by
    unfold magnitude?
    simp only [show Nat.pow 2 23 = 8388608 from rfl, show Nat.pow 2 8 = 256 from rfl]
    split_ifs with hinf hzero
    · exact iff_of_false Bool.false_ne_true (not_not_intro hinf)
    · exact iff_of_true rfl hinf
    · exact iff_of_true rfl hinf
  rw [Bool.eq_iff_iff, hmagnitude, ne_eq, ← hfield]
  exact isFinite_unpack_iff.symm

theorem beq_self_of_isFinite (h : x.isFinite = true) : (x == x) = true := by
  show (x.toModel.unpack.compare x.toModel.unpack == some .eq) = true
  change x.toModel.unpack.isFinite = true at h
  generalize x.toModel.unpack = u at h
  cases u with
  | notANumber => exact absurd h Bool.false_ne_true
  | infinity s => exact absurd h Bool.false_ne_true
  | zero s => rfl
  | finite s n e hn =>
      have hsame : (Ord.compare e e).then (Ord.compare n n) = .eq := by
        rw [Int.compare_eq_eq.mpr rfl, Nat.compare_eq_eq.mpr rfl]
        rfl
      cases s with
      | positive => exact beq_iff_eq.2 (congrArg some hsame)
      | negative => exact beq_iff_eq.2 (congrArg (some ∘ Ordering.swap) hsame)

theorem neg_single {n : ℕ} {e : ℤ} {hn : 0 < n} (s : Sign) (h : Canonical .binary32 n e) :
    -single (.finite s n e hn) = single (.finite (-s) n e hn) := by
  show Float32.ofModel (Float32.Model.pack (UnpackedFloat.unpack .binary32
    (UnpackedFloat.pack .binary32 _)).neg) = _
  rw [h.unpack_pack]
  rfl

end Single

/-! ## Numbers of 64 bits -/

/-- The 64-bit number that stores an unpacked one. -/
def wide (u : UnpackedFloat) : Float :=
  .ofModel (Float.Model.pack u)

theorem wide_ext {x y : Float} (h : x.toBits.toNat = y.toBits.toNat) : x = y := by
  obtain ⟨⟨bits, _⟩⟩ := x
  obtain ⟨⟨bits', _⟩⟩ := y
  obtain rfl : bits = bits' := UInt64.toNat_inj.mp h
  rfl

section Wide

variable {s : Sign} {n : ℕ} {e : ℤ} {hn : 0 < n}

theorem canonical_binary64 (hlow : 4503599627370496 ≤ n) (hhigh : n < 9007199254740992)
    (hmin : -1074 ≤ e) (hmax : e ≤ 971) : Canonical .binary64 n e :=
  ⟨hhigh, hmin, by show e + (52 : ℤ) ≤ 1023; omega, .inl hlow⟩

theorem toNat_toBits_wide (h : Canonical .binary64 n e) (hlow : 4503599627370496 ≤ n) :
    (wide (.finite s n e hn)).toBits.toNat =
      (s.toBitVec.toNat * 2048 + (e + 1075).toNat) * 4503599627370496 +
        (n - 4503599627370496) := by
  have hhigh : n < 9007199254740992 := h.lt
  have hfield : exponentField .binary64 n e = (e + (1023 : ℕ) + (52 : ℕ)).toNat :=
    if_neg (Nat.not_lt.mpr hlow)
  have hfraction : n % 4503599627370496 = n - 4503599627370496 := by omega
  have hbias : e + (1023 : ℕ) + (52 : ℕ) = e + 1075 := by omega
  show (UnpackedFloat.pack .binary64 _).toNat = _
  rw [h.toNat_pack, hfield, hbias]
  show (_ * 2048 + _) * 4503599627370496 + n % 4503599627370496 = _
  rw [hfraction]

theorem neg_wide (h : Canonical .binary64 n e) :
    -wide (.finite s n e hn) = wide (.finite (-s) n e hn) := by
  show Float.ofModel (Float.Model.pack (UnpackedFloat.unpack .binary64
    (UnpackedFloat.pack .binary64 _)).neg) = _
  rw [h.unpack_pack]
  rfl

end Wide

end CodeAtlas.Binary32
