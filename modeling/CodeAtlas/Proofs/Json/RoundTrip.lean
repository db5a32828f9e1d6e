import CodeAtlas.Proofs.Json.Scanning

/-! # Reading what was written

Both layouts of a value spell the same tokens, and the machine that reads tokens puts
the value together again. So a document reads back as it was written, if the numbers in
it do and nothing in it is unreadable.
-/

namespace CodeAtlas.Json

open Token (Spells Ends)

/-! ## The tokens of a value -/

mutual

/-- The tokens of a written value. -/
def tokens : Json → List Token
  | .null => [.null]
  | .bool b => [.bool b]
  | .number n => [.number (some n)]
  | .string s => [.string (some s)]
  | .array items => .openArray :: (tokensItems items ++ [.closeArray])
  | .object fields => .openObject :: (tokensFields fields ++ [.closeObject])
  | .unreadable => [.null]

def tokensItems : List Json → List Token
  | [] => []
  | [item] => item.tokens
  | item :: items => item.tokens ++ .comma :: tokensItems items

def tokensFields : List (String × Json) → List Token
  | [] => []
  | [(key, value)] => .string (some key) :: .colon :: value.tokens
  | (key, value) :: fields =>
    .string (some key) :: .colon :: (value.tokens ++ .comma :: tokensFields fields)

end

mutual

/-- Every number in the value reads back, and everything in it has a value. -/
def Legible : Json → Prop
  | .number n => Spells n.text [.number (some n)]
  | .array items => LegibleItems items
  | .object fields => LegibleFields fields
  | .unreadable => False
  | _ => True

def LegibleItems : List Json → Prop
  | [] => True
  | item :: items => item.Legible ∧ LegibleItems items

def LegibleFields : List (String × Json) → Prop
  | [] => True
  | (_, value) :: fields => value.Legible ∧ LegibleFields fields

end

theorem legible_string (s : String) : (string s).Legible :=
  trivial

theorem legible_ofNat {n : Nat} (h : n < Nat.pow 2 64) : (ofNat n).Legible :=
  Token.spells_nat h

theorem legible_ofOption {α : Type} {encode : α → Json} (h : ∀ a, (encode a).Legible)
    (o : Option α) : (ofOption encode o).Legible := by
  cases o with
  | none => trivial
  | some a => exact h a

/-! ## Both layouts spell the tokens -/

theorem spells_null : Spells "null".toList [.null] := by
  intro rest _
  simp [Token.scan?_cons (show Token.isBlank 'n' = false from rfl), Token.scanOne?]

theorem spells_true : Spells "true".toList [.bool true] := by
  intro rest _
  simp [Token.scan?_cons (show Token.isBlank 't' = false from rfl), Token.scanOne?]

theorem spells_false : Spells "false".toList [.bool false] := by
  intro rest _
  simp [Token.scan?_cons (show Token.isBlank 'f' = false from rfl), Token.scanOne?]

theorem spells_separated {xs ys : List Char} {ts us : List Token} (hxs : Spells xs ts)
    (hys : Spells ys us) : Spells (xs ++ ',' :: ys) (ts ++ .comma :: us) :=
  hxs.append (Spells.cons rfl (fun _ => rfl) hys) fun _ _ => Token.ends_cons (by decide)

theorem spells_inArray {xs : List Char} {ts : List Token} (h : Spells xs ts) :
    Spells ('[' :: (xs ++ [']'])) (.openArray :: (ts ++ [.closeArray])) := by
  have hclose : Spells [']'] [.closeArray] := Spells.cons rfl (fun _ => rfl) Token.spells_nil
  exact Spells.cons rfl (fun _ => rfl) (h.append hclose fun _ _ => Token.ends_cons (by decide))

theorem spells_inObject {xs : List Char} {ts : List Token} (h : Spells xs ts) :
    Spells ('\x7b' :: (xs ++ ['\x7d'])) (.openObject :: (ts ++ [.closeObject])) := by
  have hclose : Spells ['\x7d'] [.closeObject] := Spells.cons rfl (fun _ => rfl) Token.spells_nil
  exact Spells.cons rfl (fun _ => rfl) (h.append hclose fun _ _ => Token.ends_cons (by decide))

theorem spells_field (key : String) {xs : List Char} {ts : List Token} (h : Spells xs ts) :
    Spells (quote key ++ ':' :: xs) (.string (some key) :: .colon :: ts) :=
  (Token.spells_quote key).append (Spells.cons rfl (fun _ => rfl) h)
    fun _ _ => Token.ends_cons (by decide)

theorem isBlank_of_mem_newLine {level : Nat} {c : Char} (h : c ∈ newLine level) :
    Token.isBlank c = true := by
  rcases List.mem_cons.1 h with rfl | h
  · rfl
  · rw [List.eq_of_mem_replicate h]
    rfl

theorem spells_onNewLine (level : Nat) {xs : List Char} {ts : List Token} (h : Spells xs ts) :
    Spells (newLine level ++ xs) ts :=
  h.blanks fun _ => isBlank_of_mem_newLine

theorem spells_onLines (level : Nat) {xs : List Char} {ts : List Token} (h : Spells xs ts) :
    Spells (newLine (level + 1) ++ xs ++ newLine level) ts := by
  have hend : Spells (newLine level) [] := by
    simpa using spells_onNewLine level Token.spells_nil
  simpa using (spells_onNewLine (level + 1) h).append hend fun _ _ => Token.ends_cons (by decide)

mutual

theorem spells_compactChars : ∀ j : Json, j.Legible → Spells j.compactChars j.tokens
  | .null, _ => spells_null
  | .bool true, _ => spells_true
  | .bool false, _ => spells_false
  | .number _, h => h
  | .string s, _ => Token.spells_quote s
  | .array items, h => spells_inArray (spells_compactItems items h)
  | .object fields, h => spells_inObject (spells_compactFields fields h)
  | .unreadable, _ => spells_null

theorem spells_compactItems : ∀ items : List Json, LegibleItems items →
    Spells (compactItems items) (tokensItems items)
  | [], _ => Token.spells_nil
  | [item], h => spells_compactChars item h.1
  | item :: next :: items, h =>
      spells_separated (spells_compactChars item h.1) (spells_compactItems (next :: items) h.2)

theorem spells_compactFields : ∀ fields : List (String × Json), LegibleFields fields →
    Spells (compactFields fields) (tokensFields fields)
  | [], _ => Token.spells_nil
  | [(key, value)], h => spells_field key (spells_compactChars value h.1)
  | (key, value) :: next :: fields, h =>
      spells_field key <| spells_separated (spells_compactChars value h.1)
        (spells_compactFields (next :: fields) h.2)

end

mutual

theorem spells_prettyChars (level : Nat) : ∀ j : Json, j.Legible →
    Spells (prettyChars level j) j.tokens
  | .null, _ => spells_null
  | .bool true, _ => spells_true
  | .bool false, _ => spells_false
  | .number _, h => h
  | .string s, _ => Token.spells_quote s
  | .array [], _ => spells_inArray Token.spells_nil
  | .array (item :: items), h =>
      spells_inArray (spells_onLines level (spells_prettyItems (level + 1) (item :: items) h))
  | .object [], _ => spells_inObject Token.spells_nil
  | .object (field :: fields), h =>
      spells_inObject (spells_onLines level (spells_prettyFields (level + 1) (field :: fields) h))
  | .unreadable, _ => spells_null

theorem spells_prettyItems (level : Nat) : ∀ items : List Json, LegibleItems items →
    Spells (prettyItems level items) (tokensItems items)
  | [], _ => Token.spells_nil
  | [item], h => spells_prettyChars level item h.1
  | item :: next :: items, h =>
      spells_separated (spells_prettyChars level item h.1)
        (spells_onNewLine level (spells_prettyItems level (next :: items) h.2))

theorem spells_prettyFields (level : Nat) : ∀ fields : List (String × Json),
    LegibleFields fields → Spells (prettyFields level fields) (tokensFields fields)
  | [], _ => Token.spells_nil
  | [(key, value)], h =>
      spells_field key (Spells.blank rfl (spells_prettyChars level value h.1))
  | (key, value) :: next :: fields, h =>
      spells_field key <| Spells.blank rfl <|
        spells_separated (spells_prettyChars level value h.1)
          (spells_onNewLine level (spells_prettyFields level (next :: fields) h.2))

end

/-! ## The machine puts the value together -/

namespace Machine

theorem run_append (m : Machine) (xs ys : List Token) :
    m.run (xs ++ ys) = (m.run xs).bind (·.run ys) := by
  simp [run, List.foldlM_append]

theorem run_cons (m : Machine) (t : Token) (ts : List Token) :
    m.run (t :: ts) = (m.step t).bind (·.run ts) := by
  simp [run, List.foldlM_cons]

theorem run_singleton (m : Machine) (t : Token) : m.run [t] = m.step t := by
  simp [run]

theorem step_openArray (frames : List Frame) :
    step ⟨frames, .value⟩ .openArray = some ⟨.array [] :: frames, .firstItem⟩ := rfl

theorem step_closeArray (items : List Json) (frames : List Frame) :
    step ⟨.array items :: frames, .next⟩ .closeArray = give (.array items.reverse) frames := rfl

theorem step_openObject (frames : List Frame) :
    step ⟨frames, .value⟩ .openObject = some ⟨.object [] :: frames, .firstKey⟩ := rfl

theorem step_closeObject (fields : List (Option String × Json)) (frames : List Frame) :
    step ⟨.object fields :: frames, .next⟩ .closeObject = give (object fields.reverse) frames := rfl

-- No token that begins a value closes an array, and no key closes an object.
theorem run_firstItem (frames : List Frame) (item : Json) (items : List Json) :
    run ⟨frames, .firstItem⟩ (tokensItems (item :: items)) =
      run ⟨frames, .value⟩ (tokensItems (item :: items)) := by
  cases items <;> cases item <;> rfl

theorem run_firstKey (read : List (Option String × Json)) (frames : List Frame)
    (field : String × Json) (fields : List (String × Json)) :
    run ⟨.object read :: frames, .firstKey⟩ (tokensFields (field :: fields)) =
      run ⟨.object read :: frames, .key⟩ (tokensFields (field :: fields)) := by
  cases fields <;> rfl

theorem object_named (fields : List (String × Json)) :
    object (fields.map fun field => (some field.1, field.2)) = .object fields := by
  have hnamed : (fields.map fun field => (some field.1, field.2)).mapM
      (fun entry => entry.1.map fun key => (key, entry.2)) = some fields := by
    induction fields with
    | nil => rfl
    | cons field fields ih => simp [ih]
  simp [object, hnamed]

mutual

theorem run_tokens : ∀ j : Json, j.Legible → ∀ frames,
    run ⟨frames, .value⟩ j.tokens = give j frames
  | .null, _, _ => run_singleton _ _
  | .bool _, _, _ => run_singleton _ _
  | .number _, _, _ => run_singleton _ _
  | .string _, _, _ => run_singleton _ _
  | .array [], _, _ => by simp [tokens, tokensItems, step, begin, run]
  | .array (item :: items), h, frames => by
      have hitems := run_tokensItems (item :: items) (by simp) h [] frames
      rw [tokens, run_cons, step_openArray, Option.bind_some, run_append, run_firstItem, hitems,
        Option.bind_some, run_singleton, step_closeArray]
      simp
  | .object [], _, _ => by simp [tokens, tokensFields, step, begin, object, run]
  | .object (field :: fields), h, frames => by
      have hfields := run_tokensFields (field :: fields) (by simp) h [] frames
      rw [tokens, run_cons, step_openObject, Option.bind_some, run_append, run_firstKey, hfields,
        Option.bind_some, run_singleton, step_closeObject, List.append_nil, List.reverse_reverse,
        object_named]
  | .unreadable, h, _ => h.elim

theorem run_tokensItems : ∀ items : List Json, items ≠ [] → LegibleItems items → ∀ read frames,
    run ⟨.array read :: frames, .value⟩ (tokensItems items) =
      some ⟨.array (items.reverse ++ read) :: frames, .next⟩
  | [], hne, _, _, _ => absurd rfl hne
  | [item], _, h, read, frames => run_tokens item h.1 (.array read :: frames)
  | item :: next :: items, _, h, read, frames => by
      have hitem := run_tokens item h.1 (.array read :: frames)
      have hitems := run_tokensItems (next :: items) (by simp) h.2 (item :: read) frames
      simp [tokensItems, run_append, hitem, give, run_cons, step, hitems]

theorem run_tokensFields : ∀ fields : List (String × Json), fields ≠ [] → LegibleFields fields →
    ∀ read frames, run ⟨.object read :: frames, .key⟩ (tokensFields fields) =
      some ⟨.object ((fields.map fun field => (some field.1, field.2)).reverse ++ read) :: frames,
        .next⟩
  | [], hne, _, _, _ => absurd rfl hne
  | [(key, value)], _, h, read, frames => by
      have hvalue := run_tokens value h.1 (.entry read key :: frames)
      simp [tokensFields, run_cons, step, hvalue, give]
  | (key, value) :: next :: fields, _, h, read, frames => by
      have hvalue := run_tokens value h.1 (.entry read key :: frames)
      have hfields := run_tokensFields (next :: fields) (by simp) h.2 ((some key, value) :: read)
        frames
      simp [tokensFields, run_cons, run_append, step, hvalue, give, hfields]

end

end Machine

/-! ## Documents -/

theorem ofTokens?_tokens {j : Json} (h : j.Legible) : ofTokens? j.tokens = some j := by
  simp [ofTokens?, Machine.start, Machine.run_tokens j h, Machine.give]

/-- A document on one line reads back. -/
theorem parse?_compact {j : Json} (h : j.Legible) : parse? j.compact = some j := by
  have hscan := (spells_compactChars j h).scan?
  simp [parse?, compact, hscan, ofTokens?_tokens h]

/-- A document on several lines reads back. -/
theorem parse?_pretty {j : Json} (h : j.Legible) : parse? j.pretty = some j := by
  have hscan := (spells_prettyChars 0 j h).scan?
  simp [parse?, pretty, hscan, ofTokens?_tokens h]

/-! ## Plain values -/

mutual

theorem isReadable_of_legible : ∀ j : Json, j.Legible → j.isReadable = true
  | .null, _ => rfl
  | .bool _, _ => rfl
  | .number _, _ => rfl
  | .string _, _ => rfl
  | .array items, h => isReadableItems_of_legible items h
  | .object fields, h => isReadableFields_of_legible fields h
  | .unreadable, h => h.elim

theorem isReadableItems_of_legible : ∀ items : List Json, LegibleItems items →
    isReadableItems items = true
  | [], _ => rfl
  | item :: items, h => by
      simp [isReadableItems, isReadable_of_legible item h.1, isReadableItems_of_legible items h.2]

theorem isReadableFields_of_legible : ∀ fields : List (String × Json), LegibleFields fields →
    isReadableFields fields = true
  | [], _ => rfl
  | (_, value) :: fields, h => by
      simp [isReadableFields, isReadable_of_legible value h.1,
        isReadableFields_of_legible fields h.2]

end

/-- The value reads back, and it is nested at most `n` deep. -/
def LegibleWithin (n : Nat) (j : Json) : Prop :=
  j.Legible ∧ j.depth ≤ n

theorem LegibleWithin.isPlain {n : Nat} {j : Json} (h : j.LegibleWithin n)
    (hn : n ≤ depthLimit) : j.isPlain = true := by
  have hdepth := Nat.le_trans h.2 hn
  simp [Json.isPlain, isReadable_of_legible j h.1, hdepth]

theorem legibleWithin_string (n : Nat) (s : String) : (string s).LegibleWithin n :=
  ⟨trivial, Nat.zero_le n⟩

theorem legibleWithin_bool (n : Nat) (b : Bool) : (bool b).LegibleWithin n :=
  ⟨trivial, Nat.zero_le n⟩

theorem legibleWithin_ofOption {α : Type} {encode : α → Json} {n : Nat}
    (h : ∀ a, (encode a).LegibleWithin n) (o : Option α) : (ofOption encode o).LegibleWithin n := by
  cases o with
  | none => exact ⟨trivial, Nat.zero_le n⟩
  | some a => exact h a

theorem legibleWithin_ofList {α : Type} {encode : α → Json} {n : Nat}
    (h : ∀ a, (encode a).LegibleWithin n) (as : List α) :
    (ofList encode as).LegibleWithin (n + 1) := by
  simp only [LegibleWithin, ofList, Legible, depth]
  induction as with
  | nil => exact ⟨trivial, Nat.le_add_left 1 n⟩
  | cons a as ih =>
      obtain ⟨hlegible, hdepth⟩ := h a
      refine ⟨⟨hlegible, ih.1⟩, ?_⟩
      have := ih.2
      simp only [List.map_cons, depthItems]
      omega

theorem legibleWithin_object {fields : List (String × Json)} {n : Nat}
    (h : ∀ field ∈ fields, field.2.LegibleWithin n) : (object fields).LegibleWithin (n + 1) := by
  simp only [LegibleWithin, Legible, depth]
  induction fields with
  | nil => exact ⟨trivial, Nat.le_add_left 1 n⟩
  | cons field fields ih =>
      obtain ⟨hlegible, hdepth⟩ := h field (by simp)
      have hrest := ih fun other hother => h other (by simp [hother])
      refine ⟨⟨hlegible, hrest.1⟩, ?_⟩
      have := hrest.2
      simp only [depthFields]
      omega

theorem value?_of_parse? {text : String} {j : Json} (hparse : parse? text = some j)
    (hplain : j.isPlain = true) : value? text = some j.lastWins := by
  simp [value?, hparse, hplain]

end CodeAtlas.Json
