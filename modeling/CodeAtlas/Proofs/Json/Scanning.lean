import CodeAtlas.Json.Printer
import CodeAtlas.Json.Reader

/-! # Scanning what was written

The scanner counts its steps, but the count never runs out: every token uses up a
character. So scanning has plain equations, one for a blank and one for a token.
With them a written text is cut into tokens piece by piece, and `Spells` says what a
piece is worth: whatever follows, its tokens come first.
-/

namespace CodeAtlas.Json.Token

/-! ## A token uses up a character -/

theorem length_scanString? {cs after : List Char} {pieces : List Piece}
    (h : scanString? cs = some (pieces, after)) : after.length < cs.length := by
  fun_induction scanString? cs generalizing pieces with
  | case1 => cases h
  | case2 rest =>
      cases h
      simp
  | case3 a b c d rest ih =>
      obtain ⟨n, -, hrest⟩ := Option.bind_eq_some_iff.1 h
      obtain ⟨⟨tail, stop⟩, hscan, hsome⟩ := Option.bind_eq_some_iff.1 hrest
      cases hsome
      have := ih hscan
      simp only [List.length_cons]
      omega
  | case4 e rest _ ih =>
      obtain ⟨c, -, hrest⟩ := Option.bind_eq_some_iff.1 h
      obtain ⟨⟨tail, stop⟩, hscan, hsome⟩ := Option.bind_eq_some_iff.1 hrest
      cases hsome
      have := ih hscan
      simp only [List.length_cons]
      omega
  | case5 => cases h
  | case6 c rest _ _ _ _ ih =>
      obtain ⟨⟨tail, stop⟩, hscan, hsome⟩ := Option.bind_eq_some_iff.1 h
      cases hsome
      have := ih hscan
      simp only [List.length_cons]
      omega

theorem scanDigits_of_digit {c : Char} {d : Nat} (h : digit? c = some d) (rest : List Char) :
    scanDigits (c :: rest) = (d :: (scanDigits rest).1, (scanDigits rest).2) := by
  simp [scanDigits, h]

theorem scanDigits_of_no_digit {c : Char} (h : digit? c = none) (rest : List Char) :
    scanDigits (c :: rest) = ([], c :: rest) := by
  simp [scanDigits, h]

theorem length_scanDigits (cs : List Char) :
    (scanDigits cs).1.length + (scanDigits cs).2.length = cs.length := by
  induction cs with
  | nil => rfl
  | cons c rest ih =>
      cases hd : digit? c with
      | none => simp [scanDigits_of_no_digit hd]
      | some d =>
          simp only [scanDigits_of_digit hd, List.length_cons]
          omega

theorem length_scanWhole? {cs after : List Char} {ds : List Nat}
    (h : scanWhole? cs = some (ds, after)) : after.length < cs.length := by
  have hlength := length_scanDigits cs
  unfold scanWhole? at h
  split at h
  · cases h
  · cases h
  · next hempty _ =>
      rw [Option.some.injEq] at h
      rw [h] at hlength
      cases ds with
      | nil => exact absurd h (hempty after)
      | cons d ds =>
          simp only [List.length_cons] at hlength
          omega

theorem length_scanFraction? {cs after : List Char} {ds : List Nat}
    (h : scanFraction? cs = some (ds, after)) : after.length ≤ cs.length := by
  unfold scanFraction? at h
  split at h
  · next rest =>
      have hlength := length_scanDigits rest
      split at h
      · cases h
      · rw [Option.some.injEq] at h
        simp only [h] at hlength
        simp only [List.length_cons]
        omega
  · cases h
    exact Nat.le_refl _

theorem length_scanPowerDigits? {negative : Bool} {cs after : List Char} {power : Option Int}
    (h : scanPowerDigits? negative cs = some (power, after)) : after.length ≤ cs.length := by
  have hlength := length_scanDigits cs
  unfold scanPowerDigits? at h
  split at h
  · cases h
  · next hscan =>
      cases h
      simp only [hscan] at hlength
      omega

theorem length_scanPower? {cs after : List Char} {power : Option Int}
    (h : scanPower? cs = some (power, after)) : after.length ≤ cs.length := by
  unfold scanPower? at h
  split at h
  · next c rest =>
      split at h
      · split at h <;>
        · have hlength := length_scanPowerDigits? h
          simp only [List.length_cons] at hlength ⊢
          omega
      · cases h
        exact Nat.le_refl _
  · cases h
    exact Nat.le_refl _

theorem length_scanNumber? {negative : Bool} {cs after : List Char} {literal : Literal}
    (h : scanNumber? negative cs = some (literal, after)) : after.length < cs.length := by
  obtain ⟨⟨whole, rest₁⟩, hwhole, h⟩ := Option.bind_eq_some_iff.1 h
  obtain ⟨⟨fraction, rest₂⟩, hfraction, h⟩ := Option.bind_eq_some_iff.1 h
  obtain ⟨⟨power, rest₃⟩, hpower, h⟩ := Option.bind_eq_some_iff.1 h
  cases h
  have h₁ := length_scanWhole? hwhole
  have h₂ := length_scanFraction? hfraction
  have h₃ := length_scanPower? hpower
  omega

theorem length_scanOne? {c : Char} {rest after : List Char} {token : Token}
    (h : scanOne? c rest = some (token, after)) : after.length ≤ rest.length := by
  unfold scanOne? at h
  split at h
  all_goals try (cases h; simp <;> omega)
  · obtain ⟨⟨pieces, stop⟩, hscan, hsome⟩ := Option.map_eq_some_iff.1 h
    cases hsome
    exact Nat.le_of_lt (length_scanString? hscan)
  · obtain ⟨⟨literal, stop⟩, hscan, hsome⟩ := Option.map_eq_some_iff.1 h
    cases hsome
    exact Nat.le_of_lt (length_scanNumber? hscan)
  · split at h
    · obtain ⟨⟨literal, stop⟩, hscan, hsome⟩ := Option.map_eq_some_iff.1 h
      cases hsome
      exact Nat.le_of_lt_succ (length_scanNumber? hscan)
    · cases h

/-- More steps than characters change nothing. -/
theorem scanWithin?_eq_scan? {fuel : Nat} {cs : List Char} (h : cs.length ≤ fuel) :
    scanWithin? fuel cs = scan? cs := by
  suffices hsame : ∀ m n (cs : List Char), cs.length ≤ m → cs.length ≤ n →
      scanWithin? m cs = scanWithin? n cs from hsame fuel cs.length cs h (Nat.le_refl _)
  intro m
  induction m with
  | zero =>
      intro n cs hm _
      cases cs with
      | nil => cases n <;> rfl
      | cons c rest => simp at hm
  | succ m ih =>
      intro n cs hm hn
      cases cs with
      | nil => cases n <;> rfl
      | cons c rest =>
          cases n with
          | zero => simp at hn
          | succ n =>
              simp only [List.length_cons, Nat.add_le_add_iff_right] at hm hn
              have hrest := ih n rest hm hn
              have hafter : ∀ token after, scanOne? c rest = some (token, after) →
                  scanWithin? m after = scanWithin? n after := fun token after hscan =>
                have hle := length_scanOne? hscan
                ih n after (by omega) (by omega)
              simp only [scanWithin?, hrest]
              cases hscan : scanOne? c rest with
              | none => rfl
              | some found =>
                  have := hafter found.1 found.2 hscan
                  simp only [Option.bind_eq_bind, Option.bind_some, this]

/-! ## Equations of the scanner -/

@[simp] theorem scan?_nil : scan? [] = some [] := rfl

theorem scan?_blank {c : Char} (h : isBlank c = true) (rest : List Char) :
    scan? (c :: rest) = scan? rest := by
  simp [scan?, scanWithin?, h]

theorem scan?_cons {c : Char} (h : isBlank c = false) (rest : List Char) :
    scan? (c :: rest) =
      (scanOne? c rest).bind fun found => (scan? found.2).map (found.1 :: ·) := by
  cases hscan : scanOne? c rest with
  | none => simp [scan?, scanWithin?, h, hscan]
  | some found =>
      have hafter := scanWithin?_eq_scan? (length_scanOne? hscan)
      simp only [scan?, List.length_cons, scanWithin?, h, hscan]
      simp only [scan?] at hafter
      cases hrest : scanWithin? found.2.length found.2 <;> simp_all

/-! ## Text with a known meaning -/

/-- Nothing here prolongs a number that stands before it. -/
def Ends (rest : List Char) : Prop :=
  ∀ c, rest.head? = some c → digit? c = none ∧ c ≠ '.' ∧ c ≠ 'e' ∧ c ≠ 'E'

theorem ends_nil : Ends [] := by
  simp [Ends]

theorem ends_cons {c : Char} {rest : List Char}
    (h : digit? c = none ∧ c ≠ '.' ∧ c ≠ 'e' ∧ c ≠ 'E') : Ends (c :: rest) := by
  simpa [Ends] using h

/-- Whatever follows the text, the given tokens come first. -/
def Spells (text : List Char) (tokens : List Token) : Prop :=
  ∀ rest, Ends rest → scan? (text ++ rest) = (scan? rest).map (tokens ++ ·)

theorem Spells.scan? {text : List Char} {tokens : List Token} (h : Spells text tokens) :
    scan? text = some tokens := by
  simpa using h [] ends_nil

theorem spells_nil : Spells [] [] := by
  intro rest _
  simp

theorem Spells.append {xs ys : List Char} {ts us : List Token} (hxs : Spells xs ts)
    (hys : Spells ys us) (hends : ∀ rest, Ends rest → Ends (ys ++ rest)) :
    Spells (xs ++ ys) (ts ++ us) := by
  intro rest hrest
  rw [List.append_assoc, hxs _ (hends rest hrest), hys rest hrest, Option.map_map]
  congr 1
  funext tokens
  simp

/-- A token of one character in front. -/
theorem Spells.cons {c : Char} {t : Token} {ys : List Char} {us : List Token}
    (hblank : isBlank c = false) (hone : ∀ rest, scanOne? c rest = some (t, rest))
    (hys : Spells ys us) : Spells (c :: ys) (t :: us) := by
  intro rest hrest
  rw [List.cons_append, scan?_cons hblank, hone, Option.bind_some, hys rest hrest, Option.map_map]
  rfl

theorem Spells.blank {c : Char} {ys : List Char} {us : List Token} (h : isBlank c = true)
    (hys : Spells ys us) : Spells (c :: ys) us := by
  intro rest hrest
  rw [List.cons_append, scan?_blank h, hys rest hrest]

theorem Spells.blanks {bs ys : List Char} {us : List Token} (h : ∀ c ∈ bs, isBlank c = true)
    (hys : Spells ys us) : Spells (bs ++ ys) us := by
  induction bs with
  | nil => exact hys
  | cons b bs ih =>
      have hb := h b (by simp)
      exact Spells.blank hb (ih fun c hc => h c (by simp [hc]))

/-! ## Strings -/

/-- A unit that is no half of a pair names its character by itself. -/
theorem join?_codeUnit {n : Nat} (hleading : Piece.isLeading n = false)
    (htrailing : Piece.isTrailing n = false) (pieces : List Piece) :
    Piece.join? (.codeUnit n :: pieces) = (Piece.join? pieces).map (Char.ofNat n :: ·) := by
  cases pieces with
  | nil => simp [Piece.join?, hleading, htrailing]
  | cons piece pieces =>
      cases piece <;> simp [Piece.join?, hleading, htrailing]

theorem hexUnit?_low {n : Nat} (h : n < 256) :
    hexUnit? '0' '0' (Hex.digit (n / 16)) (Hex.digit (n % 16)) = some n := by
  have hzero : Hex.digit? '0' = some 0 := by decide
  have hhigh := Hex.digit?_digit (n / 16) (by omega)
  have hlow := Hex.digit?_digit (n % 16) (by omega)
  simp only [hexUnit?, hzero, hhigh, hlow]
  simp only [Option.bind_eq_bind, Option.bind_some, pure, Option.some.injEq]
  omega

theorem scanString?_short {e c : Char} {rest after : List Char} {pieces : List Piece} (he : e ≠ 'u')
    (hc : escape? e = some c) (hscan : scanString? rest = some (pieces, after)) :
    scanString? ('\\' :: e :: rest) = some (.char c :: pieces, after) := by
  simp [scanString?, he, hc, hscan]

theorem scanString?_plain {c : Char} {rest after : List Char} {pieces : List Piece}
    (hquote : c ≠ '"') (hbackslash : c ≠ '\\') (hprinted : ¬c.toNat < 0x20)
    (hscan : scanString? rest = some (pieces, after)) :
    scanString? (c :: rest) = some (.char c :: pieces, after) := by
  simp [scanString?, hbackslash, hprinted, hscan]

/-- One more character in front of a string, written as it has to be, is one more piece. -/
theorem scanString?_escape (c : Char) {rest after cs : List Char} {pieces : List Piece}
    (hscan : scanString? rest = some (pieces, after)) (hjoin : Piece.join? pieces = some cs) :
    ∃ piece, scanString? (escape c ++ rest) = some (piece :: pieces, after) ∧
      Piece.join? (piece :: pieces) = some (c :: cs) := by
  have hchar : ∀ d, Piece.join? (.char d :: pieces) = some (d :: cs) := by
    simp [Piece.join?, hjoin]
  fun_cases escape c with
  | case8 c _ _ _ _ _ _ _ hcontrol =>
      have hunit := hexUnit?_low (show c.toNat < 256 by omega)
      have hleading : Piece.isLeading c.toNat = false := by
        simp only [Piece.isLeading, Bool.and_eq_false_iff, decide_eq_false_iff_not]
        omega
      have htrailing : Piece.isTrailing c.toNat = false := by
        simp only [Piece.isTrailing, Bool.and_eq_false_iff, decide_eq_false_iff_not]
        omega
      refine ⟨.codeUnit c.toNat, by simp [scanString?, hunit, hscan], ?_⟩
      simp [join?_codeUnit hleading htrailing, hjoin]
  | case9 c hquote hbackslash _ _ _ _ _ hprinted =>
      exact ⟨.char c, scanString?_plain hquote hbackslash hprinted hscan, hchar c⟩
  | _ => exact ⟨.char _, scanString?_short (by decide) rfl hscan, hchar _⟩

theorem scanString?_quoted (cs rest : List Char) :
    ∃ pieces, scanString? (cs.flatMap escape ++ '"' :: rest) = some (pieces, rest) ∧
      Piece.join? pieces = some cs := by
  induction cs with
  | nil => exact ⟨[], by simp [scanString?], rfl⟩
  | cons c cs ih =>
      obtain ⟨pieces, hscan, hjoin⟩ := ih
      obtain ⟨piece, hmore⟩ := scanString?_escape c hscan hjoin
      exact ⟨piece :: pieces, by simpa using hmore⟩

theorem spells_quote (s : String) : Spells (quote s) [.string (some s)] := by
  intro rest _
  obtain ⟨pieces, hscan, hjoin⟩ := scanString?_quoted s.toList rest
  have hone : scanOne? '"' (s.toList.flatMap escape ++ '"' :: rest) =
      some (.string (some s), rest) := by
    simp [scanOne?, hscan, hjoin]
  simp [quote, scan?_cons (show isBlank '"' = false from rfl), hone]

/-! ## Whole numbers -/

theorem digit?_digitChar : ∀ d, d < 10 → digit? (Nat.digitChar d) = some d := by
  decide

theorem ofDigits_concat (ds : List Nat) (d : Nat) : ofDigits (ds ++ [d]) = ofDigits ds * 10 + d := by
  simp [ofDigits]

/-- A written number has its own digits, and a zero comes first only where it is the only one. -/
theorem exists_digits (n : Nat) :
    ∃ d ds, Nat.toDigits 10 n = (d :: ds).map Nat.digitChar ∧ (∀ x ∈ d :: ds, x < 10) ∧
      ofDigits (d :: ds) = n ∧ (d = 0 → ds = []) := by
  induction n using Nat.strongRecOn with
  | ind n ih =>
      by_cases hn : n < 10
      · refine ⟨n, [], by simp [Nat.toDigits_of_lt_base hn], by simpa using hn, by simp [ofDigits], ?_⟩
        simp
      · obtain ⟨d, ds, htext, hsmall, hvalue, hzero⟩ := ih (n / 10) (by omega)
        refine ⟨d, ds ++ [n % 10], ?_, ?_, ?_, ?_⟩
        · rw [Nat.toDigits_of_base_le (by decide) (by omega), htext]
          simp
        · intro x hx
          rw [← List.cons_append, List.mem_append, List.mem_singleton] at hx
          rcases hx with hx | rfl
          · exact hsmall x hx
          · omega
        · rw [← List.cons_append, ofDigits_concat, hvalue]
          omega
        · intro hd
          -- Otherwise the digits before the last one are a lone zero, and they stand for `n / 10`.
          rw [hd, hzero hd] at hvalue
          simp only [ofDigits, List.foldl_cons, List.foldl_nil] at hvalue
          omega

theorem scanDigits_digitChars {ds : List Nat} (h : ∀ d ∈ ds, d < 10) {rest : List Char}
    (hrest : ∀ c, rest.head? = some c → digit? c = none) :
    scanDigits (ds.map Nat.digitChar ++ rest) = (ds, rest) := by
  induction ds with
  | nil =>
      cases rest with
      | nil => rfl
      | cons c rest => exact scanDigits_of_no_digit (hrest c rfl) rest
  | cons d ds ih =>
      have hd := digit?_digitChar d (h d (by simp))
      have hds := ih fun x hx => h x (by simp [hx])
      simp [scanDigits_of_digit hd, hds]

theorem scanFraction?_of_ends {rest : List Char} (h : Ends rest) :
    scanFraction? rest = some ([], rest) := by
  unfold scanFraction?
  split
  · next tail => exact absurd rfl (h '.' rfl).2.1
  · rfl

theorem scanPower?_of_ends {rest : List Char} (h : Ends rest) :
    scanPower? rest = some (none, rest) := by
  cases rest with
  | nil => rfl
  | cons c rest =>
      obtain ⟨-, -, he, hE⟩ := h c rfl
      simp [scanPower?, he, hE]

theorem scanNumber?_digitChars (negative : Bool) {d : Nat} {ds : List Nat} {rest : List Char}
    (hsmall : ∀ x ∈ d :: ds, x < 10) (hzero : d = 0 → ds = []) (hrest : Ends rest) :
    scanNumber? negative ((d :: ds).map Nat.digitChar ++ rest) =
      some (⟨negative, d :: ds, [], none⟩, rest) := by
  have hscan := scanDigits_digitChars hsmall fun c hc => (hrest c hc).1
  have hwhole : scanWhole? ((d :: ds).map Nat.digitChar ++ rest) = some (d :: ds, rest) := by
    simp only [scanWhole?, hscan]
    split
    · next heq => simp at heq
    · next heq =>
        simp only [Prod.mk.injEq, List.cons.injEq] at heq
        simp [hzero heq.1.1] at heq
    · rfl
  simp only [scanNumber?, hwhole, Option.bind_eq_bind, Option.bind_some,
    scanFraction?_of_ends hrest, scanPower?_of_ends hrest]
  rfl

theorem le_foldl_digits (ds : List Nat) (n : Nat) : n ≤ ds.foldl (fun n d => n * 10 + d) n := by
  induction ds generalizing n with
  | nil => exact Nat.le_refl _
  | cons d ds ih =>
      have := ih (n * 10 + d)
      simp only [List.foldl_cons]
      omega

/-- Digits of a number in range are all gathered. -/
theorem gather_of_lt {ds : List Nat} {n : Nat}
    (h : ds.foldl (fun n d => n * 10 + d) n < Literal.significandBound) :
    Literal.gather n ds = (ds.foldl (fun n d => n * 10 + d) n, []) := by
  induction ds generalizing n with
  | nil => rfl
  | cons d ds ih =>
      have hle := le_foldl_digits ds (n * 10 + d)
      rw [List.foldl_cons] at h
      rw [Literal.gather, if_pos (by omega), ih h, List.foldl_cons]

theorem number?_nat {ds : List Nat} (h : ofDigits ds < Literal.significandBound) :
    Literal.number? ⟨false, ds, [], none⟩ = some (.nat (ofDigits ds)) := by
  simp [Literal.number?, gather_of_lt h, ofDigits]

theorem scanOne?_digit {c : Char} (h : (digit? c).isSome) (rest : List Char) :
    scanOne? c rest =
      (scanNumber? false (c :: rest)).map fun found => (.number found.1.number?, found.2) := by
  unfold scanOne?
  split
  all_goals try exact absurd h (by decide)
  rw [if_pos h]

theorem isBlank_of_digit {c : Char} (h : (digit? c).isSome) : isBlank c = false := by
  cases hblank : isBlank c with
  | false => rfl
  | true =>
      simp only [isBlank, Bool.or_eq_true, beq_iff_eq] at hblank
      obtain ((rfl | rfl) | rfl) | rfl := hblank <;> exact absurd h (by decide)

theorem spells_nat {n : Nat} (h : n < Literal.significandBound) :
    Spells (Number.text (.nat n)) [.number (some (.nat n))] := by
  intro rest hrest
  obtain ⟨d, ds, htext, hsmall, hvalue, hzero⟩ := exists_digits n
  have hd : (digit? (Nat.digitChar d)).isSome := by
    simp [digit?_digitChar d (hsmall d (by simp))]
  have hscan := scanNumber?_digitChars false hsmall hzero hrest
  have hnumber := number?_nat (hvalue ▸ h)
  rw [Number.text, htext, List.map_cons, List.cons_append, scan?_cons (isBlank_of_digit hd),
    scanOne?_digit hd, ← List.cons_append, ← List.map_cons, hscan, Option.map_some, Option.bind_some,
    hnumber, hvalue]
  rfl

end CodeAtlas.Json.Token
