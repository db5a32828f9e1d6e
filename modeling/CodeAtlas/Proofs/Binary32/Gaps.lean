import Mathlib.Tactic.LinearCombination
import Mathlib.Tactic.MkIffOfInductiveProp
import CodeAtlas.Proofs.Binary32.Rounding

/-! # How near a decimal comes to a midpoint

The midpoint between two neighbouring numbers of 32 bits is `n * 2 ^ f` with `n < 2 ^ 25`. A
decimal `d * 10 ^ k` of at least its unit is far from it, on the scale of the errors of 64-bit
arithmetic, or it is the midpoint; there is one exception. For each `f` this is seen from two
fractions that enclose `2 ^ f / 10 ^ k`, next to each other among those of small denominator.
-/

namespace CodeAtlas.Binary32

/-- Midpoints are whole multiples, below this bound, of a power of two. -/
def midpointBound : ℕ := 33554432

/-- Two fractions, the first not above and the second above some number. -/
structure Enclosure where
  lowNum : ℕ
  lowDen : ℕ
  highNum : ℕ
  highDen : ℕ

namespace Enclosure

/-- The fractions enclose `a / b`, and no fraction of smaller denominator lies between them. -/
@[mk_iff] structure Encloses (c : Enclosure) (a b : ℤ) : Prop where
  adjacent : (c.highNum * c.lowDen : ℤ) = c.lowNum * c.highDen + 1
  low : (c.lowNum * b : ℤ) ≤ c.lowDen * a
  high : (c.highDen * a : ℤ) < c.highNum * b

instance (c : Enclosure) (a b : ℤ) : Decidable (c.Encloses a b) :=
  decidable_of_iff _ (encloses_iff c a b).symm

/-- `n * a` and `d * b` differ by less than 17 parts in `2 ^ 56`. -/
def Near (a b n d : ℤ) : Prop :=
  |n * a - d * b| * 72057594037927936 ≤ 17 * (n * a)

section

variable {c : Enclosure} {a b n d : ℤ}

/-- Every pair is a combination of the two fractions; below the bound its weights differ in sign. -/
theorem Encloses.exists_weights (h : c.Encloses a b) (hpos : 0 < n)
    (hlt : n < c.lowDen + c.highDen) :
    ∃ u v : ℤ, n = u * c.lowDen + v * c.highDen ∧ d = u * c.lowNum + v * c.highNum ∧
      (0 < u ∧ v ≤ 0 ∨ u ≤ 0 ∧ 0 < v) := by
  have hone := h.adjacent
  refine ⟨n * c.highNum - d * c.highDen, d * c.lowDen - n * c.lowNum, ?_, ?_, ?_⟩
  · linear_combination (-n) * hone
  · linear_combination (-d) * hone
  · have hn : n = (n * c.highNum - d * c.highDen) * c.lowDen +
        (d * c.lowDen - n * c.lowNum) * c.highDen := by
      linear_combination (-n) * hone
    generalize n * c.highNum - d * c.highDen = u at *
    generalize d * c.lowDen - n * c.lowNum = v at *
    have hlow : (0 : ℤ) ≤ c.lowDen := by positivity
    have hhigh : (0 : ℤ) ≤ c.highDen := by positivity
    rcases lt_or_ge 0 u with hu | hu <;> rcases lt_or_ge 0 v with hv | hv
    · nlinarith
    · exact .inl ⟨hu, hv⟩
    · exact .inr ⟨hu, hv⟩
    · nlinarith

/-- By how much the lower fraction misses, in the same units. -/
def lowMiss (c : Enclosure) (a b : ℤ) : ℤ :=
  c.lowDen * a - c.lowNum * b

def highMiss (c : Enclosure) (a b : ℤ) : ℤ :=
  c.highNum * b - c.highDen * a

theorem difference_eq {u v : ℤ} (hn : n = u * c.lowDen + v * c.highDen)
    (hd : d = u * c.lowNum + v * c.highNum) :
    n * a - d * b = u * c.lowMiss a b - v * c.highMiss a b := by
  subst hn hd
  unfold lowMiss highMiss
  ring

/-- Both fractions miss by much, and so does every other one. -/
theorem Encloses.not_near (h : c.Encloses a b) (ha : 0 < a) (hpos : 0 < n)
    (hlt : n < c.lowDen + c.highDen)
    (hlow : 17 * (c.lowDen * a) < c.lowMiss a b * 72057594037927936)
    (hhigh : 17 * (c.highDen * a) < c.highMiss a b * 72057594037927936) : ¬ Near a b n d := by
  obtain ⟨u, v, hn, hd, hsigns⟩ := h.exists_weights (d := d) hpos hlt
  have hlowMiss : 0 ≤ c.lowMiss a b := sub_nonneg.mpr h.low
  have hhighMiss : 0 < c.highMiss a b := sub_pos.mpr h.high
  have hlowDen : (0 : ℤ) ≤ c.lowDen * a := by positivity
  have hhighDen : (0 : ℤ) ≤ c.highDen * a := by positivity
  have hna : n * a = u * (c.lowDen * a) + v * (c.highDen * a) := by
    rw [hn]
    ring
  intro hnear
  unfold Near at hnear
  rw [difference_eq hn hd, hna] at hnear
  rcases hsigns with ⟨hu, hv⟩ | ⟨hu, hv⟩
  · have habs := le_abs_self (u * c.lowMiss a b - v * c.highMiss a b)
    have hother := mul_nonneg (neg_nonneg.mpr hv) hhighMiss.le
    have hother' := mul_nonneg (neg_nonneg.mpr hv) hhighDen
    have hstrict := mul_lt_mul_of_pos_left hlow hu
    linarith
  · have habs := neg_abs_le (u * c.lowMiss a b - v * c.highMiss a b)
    have hother := mul_nonneg (neg_nonneg.mpr hu) hlowMiss
    have hother' := mul_nonneg (neg_nonneg.mpr hu) hlowDen
    have hstrict := mul_lt_mul_of_pos_left hhigh hv
    linarith

/-- The upper fraction misses by so much that only the lower one can come near. -/
theorem Encloses.eq_multiple_of_near (h : c.Encloses a b) (ha : 0 < a) (hpos : 0 < n)
    (hlt : n < c.lowDen + c.highDen) (hbound : n < midpointBound)
    (hhigh : 17 * (midpointBound * a) < c.highMiss a b * 72057594037927936)
    (hnear : Near a b n d) : ∃ u : ℤ, 0 < u ∧ n = u * c.lowDen ∧ d = u * c.lowNum := by
  obtain ⟨u, v, hn, hd, hsigns⟩ := h.exists_weights (d := d) hpos hlt
  have hlowMiss : 0 ≤ c.lowMiss a b := sub_nonneg.mpr h.low
  have hhighMiss : 0 < c.highMiss a b := sub_pos.mpr h.high
  have hna : n * a < midpointBound * a := mul_lt_mul_of_pos_right hbound ha
  unfold Near at hnear
  rw [difference_eq hn hd] at hnear
  rcases hsigns with ⟨hu, hv⟩ | ⟨hu, hv⟩
  · rcases eq_or_lt_of_le hv with rfl | hv
    · exact ⟨u, hu, by simpa using hn, by simpa using hd⟩
    · have habs := le_abs_self (u * c.lowMiss a b - v * c.highMiss a b)
      have hother := mul_nonneg hu.le hlowMiss
      have hmiss : c.highMiss a b ≤ -v * c.highMiss a b :=
        le_mul_of_one_le_left hhighMiss.le (by omega)
      linarith
  · have habs := neg_abs_le (u * c.lowMiss a b - v * c.highMiss a b)
    have hother := mul_nonneg (neg_nonneg.mpr hu) hlowMiss
    have hmiss : c.highMiss a b ≤ v * c.highMiss a b :=
      le_mul_of_one_le_left hhighMiss.le (by omega)
    linarith

end

/-- Narrow the fractions down until every smaller denominator is decided. -/
def narrowDown (a b : ℕ) : ℕ → Enclosure → Enclosure
  | 0, c => c
  | fuel + 1, c =>
    let lowMiss := c.lowDen * a - c.lowNum * b
    let highMiss := c.highNum * b - c.highDen * a
    -- How many steps in one direction are still needed.
    let steps (den : ℕ) : ℕ := (midpointBound - c.lowDen - c.highDen + den - 1) / den
    if midpointBound ≤ c.lowDen + c.highDen then c
    else if lowMiss < highMiss then
      let t := if lowMiss = 0 then steps c.lowDen
        else min ((highMiss - 1) / lowMiss) (steps c.lowDen)
      narrowDown a b fuel { c with
        highNum := c.highNum + t * c.lowNum
        highDen := c.highDen + t * c.lowDen }
    else
      let t := if c.highDen = 0 then lowMiss / highMiss
        else min (lowMiss / highMiss) (steps c.highDen)
      narrowDown a b fuel { c with
        lowNum := c.lowNum + t * c.highNum
        lowDen := c.lowDen + t * c.highDen }

end Enclosure

/-- The least power of ten that is not small beside `2 ^ f`. -/
def leastPower (f : ℤ) : ℤ :=
  (f * 30103 + 12494) / 100000 + 1

/-- `2 ^ f` and the least power of ten, brought to whole numbers by one factor. -/
def binaryUnit (f : ℤ) : ℕ :=
  2 ^ f.toNat * 10 ^ (-leastPower f).toNat

def decimalUnit (f : ℤ) : ℕ :=
  10 ^ (leastPower f).toNat * 2 ^ (-f).toNat

/-- The enclosure of `2 ^ f`, divided by the least power of ten. -/
def enclosure (f : ℤ) : Enclosure :=
  .narrowDown (binaryUnit f) (decimalUnit f) 23 ⟨0, 1, 1, 0⟩

/--
Near `2 ^ f` no multiple of the least power of ten comes near a midpoint, only the lower fraction
of the enclosure does and is equal to it, or it is the one exception.
-/
@[mk_iff] structure Settled (f : ℤ) : Prop where
  least : 3 * (decimalUnit f : ℤ) < 40 * binaryUnit f
  encloses : (enclosure f).Encloses (binaryUnit f) (decimalUnit f)
  bound : midpointBound ≤ (enclosure f).lowDen + (enclosure f).highDen
  misses :
    (17 * ((enclosure f).lowDen * (binaryUnit f : ℤ)) <
        (enclosure f).lowMiss (binaryUnit f) (decimalUnit f) * 72057594037927936 ∧
      17 * ((enclosure f).highDen * (binaryUnit f : ℤ)) <
        (enclosure f).highMiss (binaryUnit f) (decimalUnit f) * 72057594037927936) ∨
    (17 * (midpointBound * (binaryUnit f : ℤ)) <
        (enclosure f).highMiss (binaryUnit f) (decimalUnit f) * 72057594037927936 ∧
      ((enclosure f).lowMiss (binaryUnit f) (decimalUnit f) = 0 ∨
        (enclosure f).lowDen = 22841339 ∧ (f = -108 ∨ f = -107)))

instance (f : ℤ) : Decidable (Settled f) :=
  decidable_of_iff _ (settled_iff f).symm

theorem settled_of_lt : ∀ i : ℕ, i < 254 → Settled (i - 150 : ℤ) := by
  decide +kernel

theorem pow_toNat {r : ℚ} (hr : r ≠ 0) (z : ℤ) : r ^ z.toNat = r ^ (-z).toNat * r ^ z := by
  rw [← zpow_natCast, ← zpow_natCast, ← zpow_add₀ hr]
  congr 1
  omega

theorem exists_factor (f : ℤ) :
    ∃ c : ℚ, 0 < c ∧ (binaryUnit f : ℚ) = c * 2 ^ f ∧
      (decimalUnit f : ℚ) = c * 10 ^ leastPower f := by
  refine ⟨2 ^ (-f).toNat * 10 ^ (-leastPower f).toNat, by positivity, ?_, ?_⟩
  · unfold binaryUnit
    push_cast
    rw [pow_toNat (by norm_num : (2 : ℚ) ≠ 0) f]
    ring
  · unfold decimalUnit
    push_cast
    rw [pow_toNat (by norm_num : (10 : ℚ) ≠ 0) (leastPower f)]
    ring

section

variable {n d : ℕ} {f k : ℤ}

theorem Settled.leastPower_le (h : Settled f) (hcoarse : 4 * (2 : ℚ) ^ f ≤ 3 * 10 ^ k) :
    leastPower f ≤ k := by
  obtain ⟨c, hc, hbinary, hdecimal⟩ := exists_factor f
  have hleast : 3 * (decimalUnit f : ℚ) < 40 * binaryUnit f := by exact_mod_cast h.least
  rw [hbinary, hdecimal] at hleast
  have hpower : (10 : ℚ) ^ leastPower f < 10 ^ (k + 1) := by
    rw [zpow_add_one₀ (by norm_num)]
    nlinarith
  have := (zpow_lt_zpow_iff_right₀ (by norm_num : (1 : ℚ) < 10)).mp hpower
  omega

/-- The distance from a midpoint to a decimal, in whole numbers. -/
theorem exists_scaled (n d j : ℕ) (f : ℤ) :
    ∃ c : ℚ, 0 < c ∧ (n : ℚ) * binaryUnit f = c * (n * 2 ^ f) ∧
      (n : ℚ) * binaryUnit f - (d * 10 ^ j : ℕ) * decimalUnit f =
        c * (n * 2 ^ f - d * 10 ^ (leastPower f + j)) := by
  obtain ⟨c, hc, hbinary, hdecimal⟩ := exists_factor f
  refine ⟨c, hc, by rw [hbinary]; ring, ?_⟩
  rw [hbinary, hdecimal, zpow_add₀ (by norm_num), zpow_natCast]
  push_cast
  ring

theorem near_units (j : ℕ)
    (hnear : |(n : ℚ) * 2 ^ f - d * 10 ^ (leastPower f + j)| * 72057594037927936 ≤
      17 * (n * 2 ^ f)) :
    Enclosure.Near (binaryUnit f) (decimalUnit f) n (d * 10 ^ j : ℕ) := by
  obtain ⟨c, hc, hsize, hscaled⟩ := exists_scaled n d j f
  have hunits : |(n : ℚ) * binaryUnit f - (d * 10 ^ j : ℕ) * decimalUnit f| *
      72057594037927936 ≤ 17 * (n * binaryUnit f) := by
    rw [hscaled, abs_mul, abs_of_pos hc, hsize]
    linarith [mul_le_mul_of_nonneg_left hnear hc.le]
  unfold Enclosure.Near
  exact_mod_cast hunits

theorem eq_of_units (j : ℕ) (h : (n : ℤ) * binaryUnit f = (d * 10 ^ j : ℕ) * decimalUnit f) :
    (n : ℚ) * 2 ^ f = d * 10 ^ (leastPower f + j) := by
  obtain ⟨c, hc, -, hscaled⟩ := exists_scaled n d j f
  have hzero : (n : ℚ) * binaryUnit f - (d * 10 ^ j : ℕ) * decimalUnit f = 0 :=
    sub_eq_zero.mpr (by exact_mod_cast h)
  rw [hzero, eq_comm, mul_eq_zero] at hscaled
  exact sub_eq_zero.mp (hscaled.resolve_left hc.ne')

/-- A decimal near a midpoint is equal to it, but for one exception. -/
theorem eq_of_near (hlow : -150 ≤ f) (hhigh : f ≤ 103) (hpos : 0 < n) (hbound : n < midpointBound)
    (hcoarse : 4 * (2 : ℚ) ^ f ≤ 3 * 10 ^ k)
    (hnear : |(n : ℚ) * 2 ^ f - d * 10 ^ k| * 72057594037927936 ≤ 17 * (n * 2 ^ f)) :
    (n : ℚ) * 2 ^ f = d * 10 ^ k ∨ n = 22841339 ∧ (f = -108 ∨ f = -107) := by
  have hsettled : Settled f := by
    have := settled_of_lt (f + 150).toNat (by omega)
    rwa [show (((f + 150).toNat : ℕ) : ℤ) - 150 = f by omega] at this
  have hleast := hsettled.leastPower_le hcoarse
  obtain ⟨j, rfl⟩ : ∃ j : ℕ, k = leastPower f + j := ⟨(k - leastPower f).toNat, by omega⟩
  have hunits := near_units j hnear
  have hpositive : (0 : ℤ) < binaryUnit f := by
    unfold binaryUnit
    positivity
  have hbound' : (n : ℤ) < midpointBound := by exact_mod_cast hbound
  have hlt : (n : ℤ) < (enclosure f).lowDen + (enclosure f).highDen := by
    exact_mod_cast hbound.trans_le hsettled.bound
  have hn : (0 : ℤ) < n := by exact_mod_cast hpos
  rcases hsettled.misses with ⟨hlow, hhigh⟩ | ⟨hhigh, hexact⟩
  · exact absurd hunits (hsettled.encloses.not_near hpositive hn hlt hlow hhigh)
  · obtain ⟨u, hu, hnu, hdu⟩ := hsettled.encloses.eq_multiple_of_near hpositive hn hlt hbound'
      hhigh hunits
    rcases hexact with hzero | ⟨hden, hf⟩
    · left
      unfold Enclosure.lowMiss at hzero
      refine eq_of_units j ?_
      rw [hnu, hdu]
      linear_combination u * hzero
    · right
      refine ⟨?_, hf⟩
      rw [hden] at hnu
      unfold midpointBound at hbound'
      push_cast at hnu hbound'
      omega

end

end CodeAtlas.Binary32
