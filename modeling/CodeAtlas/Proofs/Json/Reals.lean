import Mathlib.Data.List.Induction
import CodeAtlas.Proofs.Binary32.ReadBack
import CodeAtlas.Proofs.Json.Numerals

/-! # Floating point numbers in documents

A finite number is written as its shortest decimal, positional or with a power of ten. Reading the
text gives the digits and the power again, and with them the same number.
-/

namespace CodeAtlas.Json

open Token (ofDigits Spells)
open Binary32 (magnitude? isNegative Magnitude)

/-! ## Digits -/

theorem ofDigits_lt {ds : List ℕ} (h : ∀ d ∈ ds, d < 10) : ofDigits ds < 10 ^ ds.length := by
  induction ds using List.reverseRecOn with
  | nil => decide
  | append_singleton ds d ih =>
      have hlast := h d (by simp)
      have hrest := ih fun x hx => h x (by simp [hx])
      rw [Token.ofDigits_concat, List.length_append, List.length_singleton, pow_succ]
      omega

theorem ofDigits_zeros_append (n : ℕ) (ds : List ℕ) :
    ofDigits (List.replicate n 0 ++ ds) = ofDigits ds := by
  induction n with
  | zero => rfl
  | succ n ih => exact ih

theorem ofDigits_append_zeros (ds : List ℕ) (n : ℕ) :
    ofDigits (ds ++ List.replicate n 0) = ofDigits ds * 10 ^ n := by
  induction n with
  | zero => simp
  | succ n ih =>
      rw [List.replicate_succ', ← List.append_assoc, Token.ofDigits_concat, ih, pow_succ]
      ring

/-! ## The layout of a decimal -/

/-- The literal that a decimal with the given digits is written as. -/
def decimalLiteral (negative : Bool) (digits : List ℕ) (exponent : ℤ) : Literal :=
  let count := digits.length + exponent
  if -6 < count ∧ count ≤ 13 then
    if count ≤ 0 then ⟨negative, [0], List.replicate (-count).toNat 0 ++ digits, none⟩
    else if digits.length ≤ count.toNat then
      ⟨negative, digits ++ List.replicate (count.toNat - digits.length) 0, [0], none⟩
    else ⟨negative, digits.take count.toNat, digits.drop count.toNat, none⟩
  else ⟨negative, digits.take 1, digits.drop 1, some (count - 1)⟩

section Layout

variable {negative : Bool} {lead : ℕ} {tail : List ℕ} {exponent : ℤ}

theorem negative_decimalLiteral (negative : Bool) (digits : List ℕ) (exponent : ℤ) :
    (decimalLiteral negative digits exponent).negative = negative := by
  unfold decimalLiteral
  simp only
  split_ifs <;> rfl

theorem unsigned_eq_unsignedText (negative : Bool) (exponent : ℤ) {d : ℕ} (hd : d ≠ 0)
    (htext : Nat.toDigits 10 d = (lead :: tail).map Nat.digitChar) :
    realFormat.unsigned ⟨d, exponent⟩ =
      (decimalLiteral negative (lead :: tail) exponent).unsignedText := by
  have hzero : Nat.digitChar 0 = '0' := rfl
  unfold Binary32.Format.unsigned decimalLiteral Literal.unsignedText Literal.fractionText
  simp only [htext, List.length_map, if_neg hd, realFormat, Bool.and_eq_true, decide_eq_true_eq]
  generalize hdigits : lead :: tail = digits
  have hne : digits ≠ [] := hdigits ▸ List.cons_ne_nil lead tail
  by_cases hrange : -6 < digits.length + exponent ∧ digits.length + exponent ≤ 13
  · rw [if_pos hrange, if_pos hrange]
    unfold Binary32.Format.positional
    simp only [List.length_map]
    by_cases hpoint : digits.length + exponent ≤ 0
    · simp [hpoint, hne, hzero, Literal.powerText]
    by_cases hwhole : digits.length ≤ (digits.length + exponent).toNat
    · simp [hpoint, hwhole, hzero, Literal.powerText]
    · have hdrop : digits.drop (digits.length + exponent).toNat ≠ [] := by
        rw [ne_eq, List.drop_eq_nil_iff]
        exact hwhole
      simp only [if_neg hpoint, if_neg hwhole, if_neg hdrop, Literal.powerText, List.append_nil,
        List.map_take, List.map_drop]
  · rw [if_neg hrange, if_neg hrange]
    subst hdigits
    unfold Binary32.Format.scientific
    cases tail <;> simp [Literal.powerText]

theorem wellFormed_decimalLiteral (hlead : lead ≠ 0) (hsmall : ∀ x ∈ lead :: tail, x < 10) :
    (decimalLiteral negative (lead :: tail) exponent).WellFormed := by
  have hzeros : ∀ n, ∀ x ∈ List.replicate n 0, x < 10 := by
    intro n x hx
    rw [List.eq_of_mem_replicate hx]
    decide
  have hhead : ∀ {zs : List ℕ}, zs.head? = some lead → zs.head? = some 0 → zs = [0] := by
    intro zs hzs hzero
    exact absurd (Option.some.inj (hzs.symm.trans hzero)) hlead
  unfold decimalLiteral
  simp only
  split_ifs with hrange hpoint hwhole
  · refine ⟨by simp, by simp, fun x hx => ?_, fun _ => rfl⟩
    exact (List.mem_append.mp hx).elim (hzeros _ x) (hsmall x)
  · refine ⟨by simp, fun x hx => ?_, by simp, hhead rfl⟩
    exact (List.mem_append.mp hx).elim (hsmall x) (hzeros _ x)
  · obtain ⟨n, hn⟩ : ∃ n, ((lead :: tail).length + exponent).toNat = n + 1 :=
      ⟨((lead :: tail).length + exponent).toNat - 1, by omega⟩
    rw [hn]
    exact ⟨by simp, fun x hx => hsmall x (List.mem_of_mem_take hx),
      fun x hx => hsmall x (List.mem_of_mem_drop hx), hhead rfl⟩
  · exact ⟨by simp, fun x hx => hsmall x (List.mem_of_mem_take hx),
      fun x hx => hsmall x (List.mem_of_mem_drop hx), hhead rfl⟩

/-- The digits and the power are those of the decimal, but for a zero after the point. -/
theorem value_decimalLiteral (negative : Bool) (exponent : ℤ)
    (hsmall : ∀ x ∈ lead :: tail, x < 10) :
    let l := decimalLiteral negative (lead :: tail) exponent
    let d := ofDigits (lead :: tail)
    (l.fraction ≠ [] ∨ l.power ≠ none) ∧
      (ofDigits (l.whole ++ l.fraction) = d ∧ l.power.getD 0 - l.fraction.length = exponent ∨
        ofDigits (l.whole ++ l.fraction) = d * 10 ^ exponent.toNat * 10 ∧
          l.power.getD 0 - l.fraction.length = -1 ∧ 0 ≤ exponent ∧
          d * 10 ^ exponent.toNat * 10 < 2 ^ 53) := by
  have hlt := ofDigits_lt hsmall
  unfold decimalLiteral
  simp only
  split_ifs with hrange hpoint hwhole
  · refine ⟨.inl (by simp), .inl ⟨?_, ?_⟩⟩
    · exact ofDigits_zeros_append (_ + 1) _
    · simp only [Option.getD_none, List.length_append, List.length_replicate]
      push_cast
      omega
  · refine ⟨.inl (by simp), .inr ⟨?_, by simp, by omega, ?_⟩⟩
    · rw [Token.ofDigits_concat, ofDigits_append_zeros, Nat.add_zero,
        show ((lead :: tail).length + exponent).toNat - (lead :: tail).length = exponent.toNat by
          omega]
    · calc ofDigits (lead :: tail) * 10 ^ exponent.toNat * 10 <
            10 ^ (lead :: tail).length * 10 ^ exponent.toNat * 10 := by gcongr
        _ = 10 ^ ((lead :: tail).length + exponent.toNat + 1) := by rw [pow_succ, pow_add]
        _ ≤ 10 ^ 14 := Nat.pow_le_pow_right (by norm_num) (by omega)
        _ < 2 ^ 53 := by norm_num
  · refine ⟨.inl ?_, .inl ⟨by rw [List.take_append_drop], ?_⟩⟩
    · rw [ne_eq, List.drop_eq_nil_iff]
      exact hwhole
    · simp only [Option.getD_none, List.length_drop]
      omega
  · refine ⟨.inr (by simp), .inl ⟨by rw [List.take_append_drop], ?_⟩⟩
    simp only [Option.getD_some, List.length_drop, List.length_cons]
    push_cast
    omega

end Layout

/-! ## Numbers -/

section

variable {x : Float32} {m : Magnitude}

theorem text_real (h : magnitude? x = some m) :
    Number.text (.real x) =
      (if isNegative x then ['-'] else []) ++ realFormat.unsigned m.shortest := by
  show ((magnitude? x).map _).getD _ = _
  rw [h, Option.map_some, Option.getD_some]

/-- The text of a number is a literal that means the number. -/
structure Literal.Writes (l : Literal) (n : Number) : Prop where
  wellFormed : l.WellFormed
  text_eq : n.text = l.text
  number_eq : l.number? = some n

theorem exists_writes_of_pos (h : magnitude? x = some m) (hpos : 0 < m.mantissa) :
    ∃ l : Literal, l.Writes (.real x) := by
  have hm := Magnitude.regular_of_magnitude? h hpos
  obtain ⟨-, -, hnearest, -⟩ := Magnitude.shortest_spec hm
  have hdpos := hnearest.digits_pos hpos
  have hdlt := Magnitude.shortest_digits_lt hm
  obtain ⟨lead, tail, htext, hsmall, hvalue, hzero⟩ := Token.exists_digits m.shortest.digits
  have hlead : lead ≠ 0 := by
    rintro rfl
    rw [hzero rfl] at hvalue
    exact hdpos.ne hvalue
  refine ⟨decimalLiteral (isNegative x) (lead :: tail) m.shortest.exponent,
    wellFormed_decimalLiteral hlead hsmall, ?_, ?_⟩
  · rw [text_real h, Literal.text, negative_decimalLiteral,
      ← unsigned_eq_unsignedText _ _ hdpos.ne' htext]
  · obtain ⟨hpart, hsame | ⟨hdigits, hpower, hwhole, hlt⟩⟩ :=
      value_decimalLiteral (isNegative x) m.shortest.exponent hsmall
    · obtain ⟨size, hscale, hread⟩ := Binary32.exists_scale_shortest h hpos
      rw [hvalue] at hsame
      rw [Literal.number?_eq_scale hpart (by rw [hsame.1]; exact hdlt.trans (by decide)),
        hsame.1, hsame.2, hscale, negative_decimalLiteral, Option.map_some, hread]
    · have hcovers := hnearest.covers
      rw [hvalue] at hdigits hlt
      obtain ⟨k, hk⟩ : ∃ k : ℕ, m.shortest.exponent = k :=
        ⟨m.shortest.exponent.toNat, by omega⟩
      rw [hk, Int.toNat_natCast] at hdigits hlt
      rw [hk, zpow_natCast] at hcovers
      obtain ⟨size, hscale, hread⟩ := Binary32.exists_scale_tenths h hpos
        (by exact_mod_cast hcovers) (by positivity) hlt
      rw [hk] at hpart hpower ⊢
      rw [Literal.number?_eq_scale hpart (by rw [hdigits]; exact hlt.trans (by decide)), hdigits,
        hpower, hscale, negative_decimalLiteral, Option.map_some, hread]

theorem scale?_zero : Literal.scale? (0 : ℕ).toUInt64.toFloat (-1) =
    some ((0 : ℕ).toUInt64.toFloat / Literal.powerOfTen 1) := by
  unfold Literal.scale?
  rw [if_pos (by decide), if_neg (by decide)]
  rfl

theorem exists_writes_of_zero (h : magnitude? x = some m) (hzero : m.mantissa = 0) :
    ∃ l : Literal, l.Writes (.real x) := by
  have hshortest : m.shortest = ⟨0, 0⟩ := if_pos hzero
  have hbits : x.toBits.toNat = 0 ∨ x.toBits.toNat = 2147483648 := by
    have hlt : x.toBits.toNat < 4294967296 := x.toBits.toNat_lt
    obtain ⟨hfield, rfl⟩ | ⟨-, -, rfl⟩ := Binary32.magnitude?_cases h <;> dsimp only at hzero <;>
      omega
  refine ⟨⟨isNegative x, [0], [0], none⟩, ⟨by simp, by simp, by simp, fun _ => rfl⟩, ?_, ?_⟩
  · rw [text_real h, hshortest]
    rfl
  · rw [Literal.number?_eq_scale (l := ⟨isNegative x, [0], [0], none⟩) (.inl (by simp))
      (show 0 < Literal.significandBound by decide)]
    show (Literal.scale? (0 : ℕ).toUInt64.toFloat (-1)).map _ = _
    rw [scale?_zero, Option.map_some]
    congr 2
    apply Binary32.single_ext
    rcases hbits with hbits | hbits
    · have hsign : isNegative x = false := by
        unfold isNegative
        rw [hbits]
        rfl
      rw [hsign, hbits]
      decide +kernel
    · have hsign : isNegative x = true := by
        unfold isNegative
        rw [hbits]
        rfl
      rw [hsign, hbits]
      decide +kernel

/-- A finite number is spelled by its text. -/
theorem spells_real (h : magnitude? x = some m) :
    Spells (Number.text (.real x)) [.number (some (.real x))] := by
  obtain ⟨l, hl⟩ : ∃ l : Literal, l.Writes (.real x) :=
    (Nat.eq_zero_or_pos m.mantissa).elim (exists_writes_of_zero h) (exists_writes_of_pos h)
  rw [hl.text_eq, ← hl.number_eq]
  exact hl.wellFormed.spells_text

end

end CodeAtlas.Json
