import Mathlib.Data.List.TakeWhile
import CodeAtlas.Style.Color

/-! # Texts that are read as colours

Behind any number of marks a colour is read from six or eight characters. A digit of either case
may stand in each place, and so may a plus sign where a channel begins. What is read without being
six or eight digits therefore has a plus sign in it.
-/

namespace CodeAtlas

namespace Hex

/-- A digit as it is read, in either case. -/
def IsDigit (c : Char) : Prop :=
  ('0' ≤ c ∧ c ≤ '9') ∨ ('a' ≤ c ∧ c ≤ 'f') ∨ ('A' ≤ c ∧ c ≤ 'F')

theorem isSome_digit? {c : Char} : (digit? c).isSome = true ↔ IsDigit c := by
  unfold digit? IsDigit
  by_cases hten : '0' ≤ c ∧ c ≤ '9'
  · simp [hten]
  · by_cases hlower : 'a' ≤ c ∧ c ≤ 'f'
    · simp [hten, hlower]
    · by_cases hupper : 'A' ≤ c ∧ c ≤ 'F' <;> simp [hten, hlower, hupper]

theorem not_isDigit_plus : ¬ IsDigit '+' := by
  unfold IsDigit
  decide

end Hex

namespace Color

/-- What is read of a text: all of it but the marks in front. -/
def unmarked (s : String) : List Char :=
  s.toList.dropWhile (· == '#')

/-- Six or eight digits behind any number of marks. -/
def IsHexadecimal (s : String) : Prop :=
  ((unmarked s).length = 6 ∨ (unmarked s).length = 8) ∧ ∀ c ∈ unmarked s, Hex.IsDigit c

/-- Digits, and plus signs where a pair of characters begins. -/
def InPairs (cs : List Char) : Prop :=
  ∀ i c, cs[i]? = some c → Hex.IsDigit c ∨ i % 2 = 0 ∧ c = '+'

theorem isSome_channel? {a b : Char} :
    (channel? a b).isSome = true ↔ (Hex.IsDigit a ∨ a = '+') ∧ Hex.IsDigit b := by
  unfold channel?
  by_cases hplus : a = '+'
  · simp [hplus, Hex.isSome_digit?]
  · rw [if_neg hplus, ← Hex.isSome_digit?, ← Hex.isSome_digit?]
    cases Hex.digit? a with
    | none => simp [hplus]
    | some high => cases Hex.digit? b <;> simp

theorem inPairs_nil : InPairs [] := by
  intro i c hc
  cases hc

theorem inPairs_cons_cons {a b : Char} {rest : List Char} :
    InPairs (a :: b :: rest) ↔ (channel? a b).isSome = true ∧ InPairs rest := by
  rw [isSome_channel?]
  constructor
  · intro h
    refine ⟨⟨?_, ?_⟩, ?_⟩
    · exact (h 0 a rfl).imp_right And.right
    · exact (h 1 b rfl).resolve_right fun hsign => by cases hsign.1
    · intro i c hc
      have hplace : (i + 2) % 2 = i % 2 := by omega
      rw [← hplace]
      exact h (i + 2) c hc
  · rintro ⟨⟨ha, hb⟩, hrest⟩ i c hc
    rcases i with _ | _ | i
    · cases hc
      exact ha.imp_right fun hsign => ⟨rfl, hsign⟩
    · cases hc
      exact Or.inl hb
    · have hplace : (i + 2) % 2 = i % 2 := by omega
      rw [hplace]
      exact hrest i c hc

/-- What is neither three nor four pairs of characters has neither six nor eight of them. -/
theorem length_ne_of_not_pairs {cs : List Char}
    (hsix : ∀ r r' g g' b b', cs ≠ [r, r', g, g', b, b'])
    (height : ∀ r r' g g' b b' a a', cs ≠ [r, r', g, g', b, b', a, a']) :
    cs.length ≠ 6 ∧ cs.length ≠ 8 := by
  constructor
  · intro hlength
    match cs, hlength with
    | [r, r', g, g', b, b'], _ => exact hsix r r' g g' b b' rfl
  · intro hlength
    match cs, hlength with
    | [r, r', g, g', b, b', a, a'], _ => exact height r r' g g' b b' a a' rfl

/-- A text is read as a colour if its channels are. -/
theorem isSome_ofText? (s : String) :
    (ofText? s).isSome = true ↔
      ((unmarked s).length = 6 ∨ (unmarked s).length = 8) ∧ InPairs (unmarked s) := by
  unfold ofText? unmarked
  split
  · rename_i r r' g g' b b' heq
    rw [heq]
    simp only [inPairs_cons_cons, inPairs_nil]
    cases channel? r r' <;> cases channel? g g' <;> cases channel? b b' <;> simp
  · rename_i r r' g g' b b' a a' heq
    rw [heq]
    simp only [inPairs_cons_cons, inPairs_nil]
    cases channel? r r' <;> cases channel? g g' <;> cases channel? b b' <;>
      cases channel? a a' <;> simp
  · rename_i hsix height
    obtain ⟨hne, hne'⟩ := length_ne_of_not_pairs hsix height
    simp [hne, hne']

theorem mem_unmarked_iff {s : String} {c : Char} (hc : c ≠ '#') :
    c ∈ unmarked s ↔ c ∈ s.toList := by
  have hsplit := List.takeWhile_append_dropWhile (p := (· == '#')) (l := s.toList)
  have hfront : c ∉ s.toList.takeWhile (· == '#') := by
    intro hmem
    exact hc (by simpa using List.mem_takeWhile_imp hmem)
  unfold unmarked
  constructor
  · intro hmem
    rw [← hsplit]
    exact List.mem_append_right _ hmem
  · intro hmem
    rw [← hsplit] at hmem
    exact (List.mem_append.mp hmem).resolve_left hfront

theorem inPairs_iff_of_no_sign {cs : List Char} (hsign : '+' ∉ cs) :
    InPairs cs ↔ ∀ c ∈ cs, Hex.IsDigit c := by
  constructor
  · intro h c hc
    obtain ⟨i, hi⟩ := List.mem_iff_getElem?.mp hc
    refine (h i c hi).resolve_right ?_
    rintro ⟨-, rfl⟩
    exact hsign hc
  · intro h i c hi
    exact Or.inl (h c (List.mem_of_getElem? hi))

theorem isHexadecimal_iff (s : String) :
    IsHexadecimal s ↔ (ofText? s).isSome = true ∧ '+' ∉ s.toList := by
  rw [isSome_ofText?, ← mem_unmarked_iff (by decide), IsHexadecimal]
  constructor
  · rintro ⟨hlength, hdigits⟩
    have hsign : '+' ∉ unmarked s := fun hmem => Hex.not_isDigit_plus (hdigits _ hmem)
    exact ⟨⟨hlength, (inPairs_iff_of_no_sign hsign).mpr hdigits⟩, hsign⟩
  · rintro ⟨⟨hlength, hpairs⟩, hsign⟩
    exact ⟨hlength, (inPairs_iff_of_no_sign hsign).mp hpairs⟩

/--
A text is read as a colour if, without the marks in front, it has six or eight characters of which
each is a digit, or a plus sign where a channel begins. Those that are six or eight digits are the
ones among them without a plus sign.
-/
theorem isSome_ofText?_iff_digits_or_signs (s : String) :
    ((ofText? s).isSome = true ↔
        ((unmarked s).length = 6 ∨ (unmarked s).length = 8) ∧
          ∀ i c, (unmarked s)[i]? = some c → Hex.IsDigit c ∨ i % 2 = 0 ∧ c = '+') ∧
      (IsHexadecimal s ↔ (ofText? s).isSome = true ∧ '+' ∉ s.toList) :=
  ⟨isSome_ofText? s, isHexadecimal_iff s⟩

/-- Three channels with a plus sign each are read as a colour and are not six digits. -/
theorem signedText_accepted :
    ofText? "#+f+e+d" = some (solid 15 14 13) ∧ ¬ IsHexadecimal "#+f+e+d" := by
  refine ⟨by decide, ?_⟩
  rintro ⟨-, hdigits⟩
  exact Hex.not_isDigit_plus (hdigits '+' (by decide))

end Color

end CodeAtlas
