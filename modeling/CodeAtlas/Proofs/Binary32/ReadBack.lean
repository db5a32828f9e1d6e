import CodeAtlas.Proofs.Binary32.Grid

/-! # A shortest decimal reads back

A shortest decimal is read in 64-bit arithmetic, with two rounding errors, and then narrowed.
The errors are too small to carry it over a midpoint, so that the same number comes back.
-/

namespace CodeAtlas.Binary32

open Float.Model Float.Model.UnpackedFloat
open Json.Literal (scale? powerOfTen)

/-! ## Errors of reading -/

/-- `w` is `v` up to two rounding errors. -/
def TwiceRounded (v w : ℚ) : Prop :=
  |w - v| * 144115188075855872 ≤ 33 * v

theorem twiceRounded_mul {d p t w : ℚ} (hd : 0 ≤ d) (ht : 0 ≤ t) (hp : |p - t| ≤ t / 2 ^ 53)
    (hw : |w - d * p| ≤ d * p / 2 ^ 53) : TwiceRounded (d * t) w := by
  obtain ⟨hp₁, hp₂⟩ := abs_le.mp hp
  obtain ⟨hw₁, hw₂⟩ := abs_le.mp hw
  have hlow := mul_le_mul_of_nonneg_left hp₁ hd
  have hhigh := mul_le_mul_of_nonneg_left hp₂ hd
  have hdt := mul_nonneg hd ht
  unfold TwiceRounded
  rw [← le_div_iff₀ (by norm_num), abs_le]
  norm_num at *
  constructor <;> linarith

theorem twiceRounded_div {d p t w : ℚ} (hd : 0 ≤ d) (ht : 0 < t) (hp : |p - t| ≤ t / 2 ^ 53)
    (hw : |w - d / p| ≤ d / p / 2 ^ 53) : TwiceRounded (d / t) w := by
  obtain ⟨hp₁, hp₂⟩ := abs_le.mp hp
  obtain ⟨hw₁, hw₂⟩ := abs_le.mp hw
  norm_num at hp₁ hp₂ hw₁ hw₂
  have hpos : 0 < p := by linarith
  -- The quotient by `p` in place of `t`.
  have hlow : d / t * (1 - 1 / 9007199254740992) ≤ d / p := by
    rw [le_div_iff₀ hpos, div_mul_eq_mul_div, div_mul_eq_mul_div, div_le_iff₀ ht]
    nlinarith
  have hhigh : d / p ≤ d / t * (1 + 1 / 9007199254740000) := by
    rw [div_le_iff₀ hpos, div_mul_eq_mul_div, div_mul_eq_mul_div, le_div_iff₀ ht]
    nlinarith
  have hdt : 0 ≤ d / t := by positivity
  generalize d / p = v at *
  generalize d / t = u at *
  unfold TwiceRounded
  rw [← le_div_iff₀ (by norm_num), abs_le]
  constructor <;> linarith

/-- Between a number and its twice rounded value there are only numbers close to it. -/
theorem TwiceRounded.close {b v w : ℚ} (h : TwiceRounded v w) (hv : 0 < v)
    (hb : v ≤ b ∧ b ≤ w ∨ w ≤ b ∧ b ≤ v) : |b - v| * 72057594037927936 ≤ 17 * b := by
  have hle : |b - v| ≤ |w - v| := by
    rcases hb with ⟨hb₁, hb₂⟩ | ⟨hb₁, hb₂⟩
    · rw [abs_of_nonneg (by linarith), abs_of_nonneg (by linarith)]
      linarith
    · rw [abs_of_nonpos (by linarith), abs_of_nonpos (by linarith)]
      linarith
  unfold TwiceRounded at h
  have hfar := neg_abs_le (b - v)
  linarith

/-! ## Exact reading -/

theorem five_pow_dvd {a b k : ℕ} {f : ℤ} (h : (a : ℚ) * 10 ^ k = b * 2 ^ f) : 5 ^ k ∣ b := by
  have hwhole : a * 10 ^ k * 2 ^ (-f).toNat = b * 2 ^ f.toNat := by
    have : (a : ℚ) * 10 ^ k * 2 ^ (-f).toNat = b * 2 ^ f.toNat := by
      rw [h, pow_toNat (by norm_num : (2 : ℚ) ≠ 0) f]
      ring
    exact_mod_cast this
  have hdvd : 5 ^ k ∣ b * 2 ^ f.toNat := by
    rw [← hwhole, show 10 = 5 * 2 by norm_num, Nat.mul_pow]
    exact ⟨a * 2 ^ k * 2 ^ (-f).toNat, by ring⟩
  exact (Nat.Coprime.pow k f.toNat (by decide : Nat.Coprime 5 2)).dvd_of_dvd_mul_right hdvd

theorem le_of_five_pow_dvd {b k : ℕ} (hpos : 0 < b) (hlt : b < 2 ^ 28) (h : 5 ^ k ∣ b) :
    k ≤ 22 := by
  have hle : 5 ^ k < 5 ^ 23 := (Nat.le_of_dvd hpos h).trans_lt (hlt.trans (by norm_num))
  have := (Nat.pow_lt_pow_iff_right (by decide)).mp hle
  omega

/-- A decimal is read with two rounding errors, and with none if it is a midpoint. -/
structure Reads (x : Float) (v w : ℚ) : Prop where
  stores : Stores x w
  rounded : TwiceRounded v w
  exact : ∀ (n : ℕ) (f : ℤ), 0 < n → n < 2 ^ 28 → v = n * 2 ^ f → w = v

theorem Stores.isInf {x : Float} {w : ℚ} (h : Stores x w) : x.isInf = false := by
  obtain ⟨n, e, hn, hcanonical, -, -, rfl⟩ := h
  show UnpackedFloat.isInf (UnpackedFloat.unpack .binary64 (UnpackedFloat.pack .binary64 _)) = _
  rw [hcanonical.unpack_pack]
  rfl

theorem power_bounds {k : ℕ} {p : ℚ} (hk : k < 47) (h : |p - 10 ^ k| ≤ 10 ^ k / 2 ^ 53) :
    1 / 2 ≤ p ∧ p ≤ 2 * 10 ^ 46 := by
  have hten : (1 : ℚ) ≤ 10 ^ k := one_le_pow₀ (by norm_num)
  have hten' : (10 : ℚ) ^ k ≤ 10 ^ 46 := pow_le_pow_right₀ (by norm_num) (by omega)
  obtain ⟨hlow, hhigh⟩ := abs_le.mp h
  norm_num at *
  constructor <;> linarith

theorem natAbs_le_largestPower {k : ℤ} (h : k.natAbs < 47) :
    k.natAbs ≤ Json.Literal.largestPower :=
  h.le.trans (by decide)

theorem exists_reads_mul {d k : ℕ} (hd : 0 < d) (hlt : d < 2 ^ 28) (hk : k < 47) :
    ∃ x w, scale? d.toUInt64.toFloat k = some x ∧ Reads x (d * 10 ^ k) w := by
  have hd' : (1 : ℚ) ≤ d := by exact_mod_cast hd
  have hlt' : (d : ℚ) < 2 ^ 28 := by exact_mod_cast hlt
  have hten : (0 : ℚ) ≤ 10 ^ k := by positivity
  obtain ⟨p, hpower, herror, hexact⟩ := stores_powerOfTen hk
  obtain ⟨hp₁, hp₂⟩ := power_bounds hk herror
  have hlow : (2 : ℚ) ^ (-200 : ℤ) ≤ d * p :=
    calc (2 : ℚ) ^ (-200 : ℤ) ≤ 1 * (1 / 2) := by norm_num
      _ ≤ d * p := by gcongr
  have hhigh : d * p < 2 ^ (200 : ℤ) :=
    calc d * p ≤ 2 ^ 28 * (2 * 10 ^ 46) := by gcongr
      _ < 2 ^ (200 : ℤ) := by norm_num
  obtain ⟨w, hstores, hclose⟩ :=
    (stores_toFloat hd (hlt.trans (by norm_num))).mul hpower hlow hhigh
  refine ⟨_, w, ?_, hstores, twiceRounded_mul (by linarith) hten herror hclose.error, ?_⟩
  · unfold scale?
    rw [if_pos (natAbs_le_largestPower (by omega)), if_pos (by omega)]
    simp only [Int.natAbs_natCast, hstores.isInf]
    rfl
  · intro n f hn hn' hv
    have hsmall := le_of_five_pow_dvd hn hn' (five_pow_dvd hv)
    rw [hexact hsmall] at hclose
    exact hclose.exact n f (hn'.trans (by norm_num)) hv

theorem exists_reads_div {d k : ℕ} (hd : 0 < d) (hlt : d < 2 ^ 28) (hpos : 0 < k) (hk : k < 47) :
    ∃ x w, scale? d.toUInt64.toFloat (-k) = some x ∧ Reads x (d / 10 ^ k) w := by
  have hd' : (1 : ℚ) ≤ d := by exact_mod_cast hd
  have hlt' : (d : ℚ) < 2 ^ 28 := by exact_mod_cast hlt
  have hten : (0 : ℚ) < 10 ^ k := by positivity
  obtain ⟨p, hpower, herror, hexact⟩ := stores_powerOfTen hk
  obtain ⟨hp₁, hp₂⟩ := power_bounds hk herror
  have hlow : (2 : ℚ) ^ (-200 : ℤ) ≤ d / p :=
    calc (2 : ℚ) ^ (-200 : ℤ) ≤ 1 / (2 * 10 ^ 46) := by norm_num
      _ ≤ d / p := by gcongr
  have hhigh : d / p < 2 ^ (200 : ℤ) :=
    calc d / p ≤ 2 ^ 28 / (1 / 2) := by gcongr
      _ < 2 ^ (200 : ℤ) := by norm_num
  obtain ⟨w, hstores, hclose⟩ :=
    (stores_toFloat hd (hlt.trans (by norm_num))).div hpower hlow hhigh
  refine ⟨_, w, ?_, hstores, twiceRounded_div (by linarith) hten herror hclose.error, ?_⟩
  · unfold scale?
    rw [if_pos (natAbs_le_largestPower (by omega)), if_neg (by omega)]
    simp only [Int.natAbs_neg, Int.natAbs_natCast]
  · intro n f hn hn' hv
    have hflip : (n : ℚ) * 10 ^ k = d * 2 ^ (-f) := by
      rw [div_eq_iff hten.ne'] at hv
      rw [hv, zpow_neg]
      field_simp
    have hsmall := le_of_five_pow_dvd hd hlt (five_pow_dvd hflip)
    rw [hexact hsmall] at hclose
    exact hclose.exact n f (hn'.trans (by norm_num)) hv

namespace Magnitude

variable {m : Magnitude}

/-- The errors do not carry the decimal over a midpoint. -/
theorem Nearest.covers_of_reads {k : ℤ} {d : ℕ} {x : Float} {w : ℚ} (hm : m.Regular)
    (h : m.Nearest k d) (hordinary : ¬ m.Exceptional) (hreads : Reads x (d * 10 ^ k) w) :
    m.Covers w := by
  have hpos : (0 : ℚ) < d * 10 ^ k := (lower_pos hm.pos).trans_le h.covers.1
  obtain ⟨n, f, hmid, -, -, -⟩ := hm.exists_isMidpoint_lower
  have hmid' := hm.isMidpoint_upper
  have hbound : midpointBound < 2 ^ 28 := by decide
  by_cases hlower : m.lower = d * 10 ^ k
  · rw [hreads.exact n f hmid.pos (hmid.lt.trans hbound) (hlower.symm.trans hmid.eq)]
    exact h.covers
  by_cases hupper : m.upper = d * 10 ^ k
  · rw [hreads.exact _ _ hmid'.pos (hmid'.lt.trans hbound) (hupper.symm.trans hmid'.eq)]
    exact h.covers
  · refine covers_of_lt ?_ ?_
    · by_contra! hle
      have hclose := hreads.rounded.close hpos (.inr ⟨hle, h.covers.1⟩)
      exact (h.eq_lower_of_close hm hclose).elim hlower hordinary
    · by_contra! hle
      have hclose := hreads.rounded.close hpos (.inl ⟨h.covers.2.1, hle⟩)
      exact (h.eq_upper_of_close hm hclose).elim hupper hordinary

/-- A decimal is read as a 64-bit number that the magnitude covers. -/
def RecoveredFrom (m : Magnitude) (r : Digits) : Prop :=
  ∃ x w, scale? r.digits.toUInt64.toFloat r.exponent = some x ∧ Stores x w ∧ m.Covers w

theorem recoveredFrom_of_bits (d bits : ℕ) (k : ℤ) (hshortest : m.shortest = ⟨d, k⟩)
    (hbits : (scale? d.toUInt64.toFloat k).map (fun x => x.toBits.toNat) = some bits)
    (hlow : 4503599627370496 ≤ bits) (hhigh : bits < 2047 * 4503599627370496)
    (hcovers : m.Covers ((4503599627370496 + bits % 4503599627370496 : ℕ) *
      2 ^ ((bits / 4503599627370496 : ℕ) - 1075 : ℤ))) : m.RecoveredFrom m.shortest := by
  obtain ⟨x, hx, hx'⟩ := Option.map_eq_some_iff.mp hbits
  rw [hshortest]
  exact ⟨x, _, hx, stores_of_toBits hx' hlow hhigh, hcovers⟩

theorem Exceptional.recoveredFrom_shortest (hm : m.Regular) (h : m.Exceptional) :
    m.RecoveredFrom m.shortest := by
  obtain ⟨mantissa, exponent, narrow⟩ := m
  have hnarrow : narrow = false := by
    have hiff := hm.narrow_iff
    have hmantissa := h.1
    dsimp only at hiff hmantissa
    cases narrow
    · rfl
    · have := (hiff.mp rfl).1
      omega
  subst hnarrow
  obtain ⟨rfl | rfl, rfl | rfl⟩ := h
  · refine recoveredFrom_of_bits 7038531 4230507875723640831 (-32)
      (by decide +kernel) (by decide +kernel) (by norm_num) (by norm_num) ?_
    norm_num [Covers, lower, upper]
  · refine recoveredFrom_of_bits 14077061 4235011474915449898 (-32)
      (by decide +kernel) (by decide +kernel) (by norm_num) (by norm_num) ?_
    norm_num [Covers, lower, upper]
  · refine recoveredFrom_of_bits 70385313 4230507875984977690 (-33)
      (by decide +kernel) (by decide +kernel) (by norm_num) (by norm_num) ?_
    norm_num [Covers, lower, upper]
  · refine recoveredFrom_of_bits 14077063 4235011475786572757 (-32)
      (by decide +kernel) (by decide +kernel) (by norm_num) (by norm_num) ?_
    norm_num [Covers, lower, upper]

/-- The shortest decimal is read as a number that the magnitude covers. -/
theorem recoveredFrom_shortest (hm : m.Regular) : m.RecoveredFrom m.shortest := by
  by_cases hexceptional : m.Exceptional
  · exact hexceptional.recoveredFrom_shortest hm
  unfold RecoveredFrom
  obtain ⟨hlow, hhigh, hnearest, -⟩ := shortest_spec hm
  have hpos := hnearest.digits_pos hm.pos
  have hlt : m.shortest.digits < 2 ^ 28 := shortest_digits_lt hm
  generalize m.shortest.digits = d at *
  generalize m.shortest.exponent = k at *
  rcases lt_or_ge k 0 with hneg | hnonneg
  · obtain ⟨j, rfl⟩ : ∃ j : ℕ, k = -j := ⟨(-k).toNat, by omega⟩
    obtain ⟨x, w, hscale, hreads⟩ := exists_reads_div hpos hlt (by omega : 0 < j) (by omega)
    rw [div_eq_mul_inv, ← zpow_natCast, ← zpow_neg] at hreads
    exact ⟨x, w, hscale, hreads.stores, hnearest.covers_of_reads hm hexceptional hreads⟩
  · obtain ⟨j, rfl⟩ : ∃ j : ℕ, k = j := ⟨k.toNat, by omega⟩
    obtain ⟨x, w, hscale, hreads⟩ := exists_reads_mul hpos hlt (by omega : j < 47)
    rw [← zpow_natCast] at hreads
    exact ⟨x, w, hscale, hreads.stores, hnearest.covers_of_reads hm hexceptional hreads⟩

end Magnitude

/-! ## The number that is read -/

section

variable {x : Float32} {m : Magnitude}

theorem ofWide_of_covers {size : Float} {w : ℚ} (h : magnitude? x = some m)
    (hpos : 0 < m.mantissa) (hstores : Stores size w) (hcovers : m.Covers w) :
    ofWide (if isNegative x then -size else size) = x := by
  have hm := Magnitude.regular_of_magnitude? h hpos
  have hx := eq_single_of_magnitude? h hpos
  obtain ⟨u, hrounded, hwide⟩ := hstores.exists_ofWide
  rw [hwide, hcovers.eq_finite hm hrounded]
  refine Eq.trans ?_ hx.symm
  cases isNegative x
  · rfl
  · exact neg_single _ hm.canonical

/-- The shortest decimal of a number reads back as the number. -/
theorem exists_scale_shortest (h : magnitude? x = some m) (hpos : 0 < m.mantissa) :
    ∃ size, scale? m.shortest.digits.toUInt64.toFloat m.shortest.exponent = some size ∧
      ofWide (if isNegative x then -size else size) = x := by
  obtain ⟨size, w, hscale, hstores, hcovers⟩ :=
    Magnitude.recoveredFrom_shortest (Magnitude.regular_of_magnitude? h hpos)
  exact ⟨size, hscale, ofWide_of_covers h hpos hstores hcovers⟩

/-- So does a whole decimal with one zero after the point. -/
theorem exists_scale_tenths {n : ℕ} (h : magnitude? x = some m) (hpos : 0 < m.mantissa)
    (hcovers : m.Covers n) (hn : 0 < n) (hlt : n * 10 < 2 ^ 53) :
    ∃ size, scale? (n * 10).toUInt64.toFloat (-1) = some size ∧
      ofWide (if isNegative x then -size else size) = x := by
  have hn' : (1 : ℚ) ≤ n := by exact_mod_cast hn
  have hlt' : (n : ℚ) < 2 ^ 53 := by exact_mod_cast (show n < 2 ^ 53 by omega)
  obtain ⟨p, hpower, -, hexact⟩ := stores_powerOfTen (k := 1) (by norm_num)
  rw [hexact (by norm_num), pow_one] at hpower
  have hquotient : ((n * 10 : ℕ) : ℚ) / 10 = n := by
    push_cast
    ring
  obtain ⟨w, hstores, hclose⟩ := (stores_toFloat (by omega) hlt).div hpower
    (by rw [hquotient]; exact le_trans (by norm_num) hn')
    (by rw [hquotient]; exact hlt'.trans (by norm_num))
  rw [hquotient] at hclose
  rw [hclose.exact n 0 (by omega) (by norm_num)] at hstores
  refine ⟨_, ?_, ofWide_of_covers h hpos hstores hcovers⟩
  unfold scale?
  rw [if_pos (natAbs_le_largestPower (by norm_num)), if_neg (by norm_num)]
  rfl

end

end CodeAtlas.Binary32
