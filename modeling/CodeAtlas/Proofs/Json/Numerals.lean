import CodeAtlas.Proofs.Json.Scanning

/-! # Numerals

A number literal has a text of its own: the digits, a point and the digits after it if there are
any, and the power of ten if one is given. Scanning that text gives the literal.
-/

namespace CodeAtlas.Json

open Token (Ends Spells digit? ofDigits scanNumber? scanPower? scanFraction? scanWhole?)

namespace Literal

/-- The digits after the point. -/
def fractionText (digits : List Nat) : List Char :=
  if digits = [] then [] else '.' :: digits.map Nat.digitChar

/-- The power of ten, with its sign. -/
def powerText : Option Int → List Char
  | none => []
  | some power => 'e' :: (if power < 0 then '-' else '+') :: Nat.toDigits 10 power.natAbs

/-- The text of a literal without its sign. -/
def unsignedText (l : Literal) : List Char :=
  l.whole.map Nat.digitChar ++ (fractionText l.fraction ++ powerText l.power)

/-- The text of a literal. -/
def text (l : Literal) : List Char :=
  (if l.negative then ['-'] else []) ++ l.unsignedText

/-- The digits are digits, and no superfluous zero comes first. -/
structure WellFormed (l : Literal) : Prop where
  whole_ne_nil : l.whole ≠ []
  whole_lt : ∀ d ∈ l.whole, d < 10
  fraction_lt : ∀ d ∈ l.fraction, d < 10
  leading : l.whole.head? = some 0 → l.whole = [0]

/-! ## Scanning the parts -/

section

variable {rest : List Char}

theorem scanPowerDigits?_toDigits (negative : Bool) (n : Nat) (hrest : Ends rest) :
    Token.scanPowerDigits? negative (Nat.toDigits 10 n ++ rest) =
      some (some (if negative then -(n : Int) else n), rest) := by
  obtain ⟨d, ds, htext, hsmall, hvalue, -⟩ := Token.exists_digits n
  have hscan := Token.scanDigits_digitChars hsmall fun c hc => (hrest c hc).1
  rw [htext]
  simp only [Token.scanPowerDigits?, hscan, hvalue]

theorem scanPower?_powerText (power : Option Int) (hrest : Ends rest) :
    scanPower? (powerText power ++ rest) = some (power, rest) := by
  cases power with
  | none => exact Token.scanPower?_of_ends hrest
  | some power =>
      by_cases hneg : power < 0
      · have hvalue : -(power.natAbs : Int) = power := by omega
        have hscan := scanPowerDigits?_toDigits true power.natAbs hrest
        rw [if_pos rfl, hvalue] at hscan
        simpa [powerText, scanPower?, hneg] using hscan
      · have hvalue : (power.natAbs : Int) = power := by omega
        have hscan := scanPowerDigits?_toDigits false power.natAbs hrest
        rw [if_neg Bool.false_ne_true, hvalue] at hscan
        simpa [powerText, scanPower?, hneg] using hscan

/-- What follows the digits after the point. -/
theorem head?_powerText (power : Option Int) (hrest : Ends rest) {c : Char}
    (hc : (powerText power ++ rest).head? = some c) : digit? c = none ∧ c ≠ '.' := by
  cases power with
  | none => exact ⟨(hrest c hc).1, (hrest c hc).2.1⟩
  | some power =>
      obtain rfl : 'e' = c := by simpa [powerText] using hc
      decide

theorem scanFraction?_fractionText {digits : List Nat} (hsmall : ∀ d ∈ digits, d < 10)
    (hrest : ∀ c, rest.head? = some c → digit? c = none ∧ c ≠ '.') :
    scanFraction? (fractionText digits ++ rest) = some (digits, rest) := by
  unfold fractionText
  by_cases hnil : digits = []
  · subst hnil
    rw [if_pos rfl, List.nil_append]
    unfold scanFraction?
    split
    · next tail => exact absurd rfl (hrest '.' rfl).2
    · rfl
  · have hscan := Token.scanDigits_digitChars hsmall fun c hc => (hrest c hc).1
    rw [if_neg hnil, List.cons_append]
    simp only [scanFraction?, hscan]
    cases digits with
    | nil => exact absurd rfl hnil
    | cons d ds => rfl

theorem head?_fractionText (digits : List Nat) (power : Option Int) (hrest : Ends rest) {c : Char}
    (hc : (fractionText digits ++ (powerText power ++ rest)).head? = some c) :
    digit? c = none := by
  unfold fractionText at hc
  by_cases hnil : digits = []
  · rw [if_pos hnil, List.nil_append] at hc
    exact (head?_powerText power hrest hc).1
  · rw [if_neg hnil] at hc
    obtain rfl : '.' = c := by simpa using hc
    decide

theorem WellFormed.scanNumber?_unsignedText {l : Literal} (h : l.WellFormed) (hrest : Ends rest) :
    scanNumber? l.negative (l.unsignedText ++ rest) = some (l, rest) := by
  have hscan := Token.scanDigits_digitChars h.whole_lt
    fun c hc => head?_fractionText l.fraction l.power hrest hc
  have hwhole : scanWhole? (l.whole.map Nat.digitChar ++
      (fractionText l.fraction ++ (powerText l.power ++ rest))) =
      some (l.whole, fractionText l.fraction ++ (powerText l.power ++ rest)) := by
    simp only [scanWhole?, hscan]
    split
    · next heq => exact absurd (congrArg Prod.fst heq) h.whole_ne_nil
    · next d ds after heq =>
        have hlist : l.whole = 0 :: d :: ds := congrArg Prod.fst heq
        have := h.leading (by rw [hlist]; rfl)
        rw [hlist] at this
        cases this
    · rfl
  have hfraction : scanFraction? (fractionText l.fraction ++ (powerText l.power ++ rest)) =
      some (l.fraction, powerText l.power ++ rest) :=
    scanFraction?_fractionText h.fraction_lt fun c hc => head?_powerText l.power hrest hc
  unfold unsignedText scanNumber?
  simp only [List.append_assoc, hwhole, Option.bind_eq_bind, Option.bind_some, hfraction,
    scanPower?_powerText l.power hrest]
  rfl

/-- Whatever follows, the text of a literal is scanned as its number. -/
theorem WellFormed.spells_text {l : Literal} (h : l.WellFormed) :
    Spells l.text [.number l.number?] := by
  intro rest hrest
  have hscan := h.scanNumber?_unsignedText hrest
  obtain ⟨negative, whole, fraction, power⟩ := l
  cases negative with
  | true =>
      have hone : Token.scanOne? '-' (unsignedText ⟨true, whole, fraction, power⟩ ++ rest) =
          some (.number (number? ⟨true, whole, fraction, power⟩), rest) := by
        simp only [Token.scanOne?, hscan, Option.map_some]
      show Token.scan? ('-' :: (unsignedText ⟨true, whole, fraction, power⟩ ++ rest)) = _
      rw [Token.scan?_cons rfl, hone, Option.bind_some]
      rfl
  | false =>
      cases whole with
      | nil => exact absurd rfl h.whole_ne_nil
      | cons d ds =>
          have hd : (digit? (Nat.digitChar d)).isSome := by
            rw [Token.digit?_digitChar d (h.whole_lt d (by simp))]
            rfl
          have htext : text ⟨false, d :: ds, fraction, power⟩ ++ rest = Nat.digitChar d ::
              (ds.map Nat.digitChar ++ (fractionText fraction ++ powerText power) ++ rest) := rfl
          rw [htext, Token.scan?_cons (Token.isBlank_of_digit hd), Token.scanOne?_digit hd]
          change scanNumber? false (Nat.digitChar d ::
            (ds.map Nat.digitChar ++ (fractionText fraction ++ powerText power) ++ rest)) = _
            at hscan
          rw [hscan, Option.map_some, Option.bind_some]
          rfl

end

/-! ## The number of a literal -/

theorem ofDigits_append (xs ys : List Nat) :
    ofDigits (xs ++ ys) = ys.foldl (fun n d => n * 10 + d) (ofDigits xs) :=
  List.foldl_append

/-- A literal with a point or a power is its digits, scaled by a power of ten. -/
theorem number?_eq_scale {l : Literal} (hpart : l.fraction ≠ [] ∨ l.power ≠ none)
    (hlt : ofDigits (l.whole ++ l.fraction) < significandBound) :
    l.number? = (scale? (ofDigits (l.whole ++ l.fraction)).toUInt64.toFloat
      (l.power.getD 0 - l.fraction.length)).map fun size =>
        .real (Binary32.ofWide (if l.negative then -size else size)) := by
  rw [ofDigits_append] at hlt ⊢
  have hwhole : gather 0 l.whole = (ofDigits l.whole, []) :=
    Token.gather_of_lt (Nat.lt_of_le_of_lt (Token.le_foldl_digits l.fraction _) hlt)
  have hfraction := Token.gather_of_lt hlt
  obtain ⟨negative, whole, fraction, power⟩ := l
  unfold number?
  simp only [hwhole, hfraction]
  cases fraction with
  | nil =>
      cases power with
      | none => exact absurd hpart (by simp)
      | some power => simp
  | cons d ds => simp

end Literal

end CodeAtlas.Json
