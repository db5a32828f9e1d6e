import CodeAtlas.Proofs.Style.Acceptance

/-! # Colours read byte by byte

A text can also be taken as the bytes that encode it. Then its length is counted in bytes, a part
can be cut out only where characters begin, and a channel is a numeral to the base sixteen that
fits in a byte. For every text this comes to the same as reading characters: a text that is read
either way has one byte for each character.
-/

namespace CodeAtlas

theorem Hex.digit?_lt {c : Char} {d : ℕ} (h : digit? c = some d) : d < 16 := by
  have hle : ∀ a : Char, c ≤ a → c.toNat ≤ a.toNat := fun a ha => ha
  unfold digit? at h
  split at h
  · next hten =>
      have hc : c.toNat ≤ 57 := hle '9' hten.2
      have hzero : '0'.toNat = 48 := rfl
      cases h
      omega
  · split at h
    · next hlower =>
        have hc : c.toNat ≤ 102 := hle 'f' hlower.2
        have ha : 'a'.toNat = 97 := rfl
        cases h
        omega
    · split at h
      · next hupper =>
          have hc : c.toNat ≤ 70 := hle 'F' hupper.2
          have ha : 'A'.toNat = 65 := rfl
          cases h
          omega
      · cases h

theorem Hex.IsDigit.toNat_lt {c : Char} (h : IsDigit c) : c.toNat < 128 := by
  have hle : ∀ a : Char, c ≤ a → c.toNat ≤ a.toNat := fun a ha => ha
  rcases h with h | h | h
  · exact Nat.lt_of_le_of_lt (hle '9' h.2) (by decide)
  · exact Nat.lt_of_le_of_lt (hle 'f' h.2) (by decide)
  · exact Nat.lt_of_le_of_lt (hle 'F' h.2) (by decide)

namespace Color

/-! ## The reader -/

/-- The bytes that encode characters. -/
def bytesOf (cs : List Char) : List UInt8 :=
  cs.flatMap String.utf8EncodeChar

/-- Does a character begin here, or does the text end? -/
def isBoundary (bytes : List UInt8) (i : ℕ) : Bool :=
  i == 0 ||
    match bytes[i]? with
    | some b => b.toNat < 128 || 192 ≤ b.toNat
    | none => i == bytes.length

/-- The bytes from one place to another, if both are boundaries. -/
def slice? (bytes : List UInt8) (i j : ℕ) : Option (List UInt8) :=
  if i ≤ j ∧ j ≤ bytes.length ∧ isBoundary bytes i ∧ isBoundary bytes j then
    some ((bytes.drop i).take (j - i))
  else none

/-- The character whose code is the byte. -/
def charOf (b : UInt8) : Char :=
  Char.ofNat b.toNat

/-- A number with digits put behind it, as long as it fits in a byte. -/
def appendDigits? : ℕ → List UInt8 → Option UInt8
  | n, [] => some (UInt8.ofNat n)
  | n, b :: bs => do
    let d ← Hex.digit? (charOf b)
    if n * 16 + d < 256 then appendDigits? (n * 16 + d) bs else none

def plusByte : UInt8 := 43

/-- A numeral has at least one digit, and it may have a plus sign in front. -/
def numeral? : List UInt8 → Option UInt8
  | [] => none
  | [b] => if b = plusByte then none else appendDigits? 0 [b]
  | b :: next :: bs =>
    if b = plusByte then appendDigits? 0 (next :: bs) else appendDigits? 0 (b :: next :: bs)

def channelAt? (bytes : List UInt8) (i : ℕ) : Option UInt8 :=
  (slice? bytes i (i + 2)).bind numeral?

def ofBytes? (bytes : List UInt8) : Option Color :=
  if bytes.length = 6 then do
    return solid (← channelAt? bytes 0) (← channelAt? bytes 2) (← channelAt? bytes 4)
  else if bytes.length = 8 then do
    return ⟨← channelAt? bytes 0, ← channelAt? bytes 2, ← channelAt? bytes 4, ← channelAt? bytes 6⟩
  else none

/-! ## Numerals of two bytes -/

theorem toNat_charOf (b : UInt8) : (charOf b).toNat = b.toNat := by
  have hvalid : b.toNat.isValidChar := Or.inl (Nat.lt_trans b.toNat_lt (by decide))
  rw [charOf, Char.ofNat, dif_pos hvalid]
  rfl

theorem charOf_eq_plus_iff {b : UInt8} : charOf b = '+' ↔ b = plusByte := by
  rw [← Char.toNat_inj, toNat_charOf, ← UInt8.toNat_inj]
  rfl

theorem appendDigits?_cons {n : ℕ} (h : n < 16) (b : UInt8) (bs : List UInt8) :
    appendDigits? n (b :: bs) =
      (Hex.digit? (charOf b)).bind fun d => appendDigits? (n * 16 + d) bs := by
  rw [appendDigits?]
  cases hd : Hex.digit? (charOf b) with
  | none => rfl
  | some d =>
      have hfits : n * 16 + d < 256 := by
        have hlt := Hex.digit?_lt hd
        omega
      simp [hfits]

/-- Two digits never make a number too great for a byte. -/
theorem numeral?_pair (x y : UInt8) : numeral? [x, y] = channel? (charOf x) (charOf y) := by
  rw [numeral?, channel?]
  by_cases hplus : x = plusByte
  · rw [if_pos hplus, if_pos (charOf_eq_plus_iff.mpr hplus), appendDigits?_cons (by decide)]
    cases Hex.digit? (charOf y) <;> simp [appendDigits?]
  · rw [if_neg hplus, if_neg (mt charOf_eq_plus_iff.mp hplus), appendDigits?_cons (by decide)]
    cases hhigh : Hex.digit? (charOf x) with
    | none => rfl
    | some high =>
        have hlt : 0 * 16 + high < 16 := by
          have hdigit := Hex.digit?_lt hhigh
          omega
        rw [Option.bind_some, appendDigits?_cons hlt]
        cases Hex.digit? (charOf y) <;> simp [appendDigits?]

/-! ## Channels -/

theorem take_drop_pair {bytes : List UInt8} {i : ℕ} {x y : UInt8} (hx : bytes[i]? = some x)
    (hy : bytes[i + 1]? = some y) : (bytes.drop i).take 2 = [x, y] := by
  obtain ⟨hi, rfl⟩ := List.getElem?_eq_some_iff.mp hx
  obtain ⟨hi', rfl⟩ := List.getElem?_eq_some_iff.mp hy
  rw [List.drop_eq_getElem_cons hi, List.drop_eq_getElem_cons hi']
  rfl

theorem isBoundary_of_ascii {bytes : List UInt8} (hascii : ∀ b ∈ bytes, b.toNat < 128) {i : ℕ}
    (hi : i ≤ bytes.length) : isBoundary bytes i = true := by
  unfold isBoundary
  cases hb : bytes[i]? with
  | none =>
      have hend : i = bytes.length := Nat.le_antisymm hi (List.getElem?_eq_none_iff.mp hb)
      simp [hend]
  | some b => simp [hascii b (List.mem_of_getElem? hb)]

theorem channelAt?_of_ascii {bytes : List UInt8} (hascii : ∀ b ∈ bytes, b.toNat < 128) {i : ℕ}
    {x y : UInt8} (hx : bytes[i]? = some x) (hy : bytes[i + 1]? = some y) :
    channelAt? bytes i = channel? (charOf x) (charOf y) := by
  have hlength : i + 1 < bytes.length := (List.getElem?_eq_some_iff.mp hy).1
  have hslice : slice? bytes i (i + 2) = some [x, y] := by
    have hfirst := isBoundary_of_ascii hascii (i := i) (by omega)
    have hlast := isBoundary_of_ascii hascii (i := i + 2) (by omega)
    rw [slice?, if_pos ⟨by omega, by omega, hfirst, hlast⟩, Nat.add_sub_cancel_left,
      take_drop_pair hx hy]
  rw [channelAt?, hslice, Option.bind_some, numeral?_pair]

/-- A channel is read from two bytes that are characters of their own. -/
theorem ascii_of_channelAt? {bytes : List UInt8} {i : ℕ}
    (h : (channelAt? bytes i).isSome = true) :
    ∃ x y, bytes[i]? = some x ∧ bytes[i + 1]? = some y ∧ x.toNat < 128 ∧ y.toNat < 128 := by
  unfold channelAt? slice? at h
  split at h
  · next hcut =>
      have hx : i < bytes.length := by omega
      have hy : i + 1 < bytes.length := by omega
      have hpair := take_drop_pair (List.getElem?_eq_getElem hx) (List.getElem?_eq_getElem hy)
      rw [Nat.add_sub_cancel_left, Option.bind_some, hpair, numeral?_pair, isSome_channel?] at h
      refine ⟨_, _, List.getElem?_eq_getElem hx, List.getElem?_eq_getElem hy, ?_, ?_⟩
      · rw [← toNat_charOf]
        rcases h.1 with hdigit | hplus
        · exact hdigit.toNat_lt
        · rw [hplus]
          decide
      · rw [← toNat_charOf]
        exact h.2.toNat_lt
  · cases h

theorem isSome_channelAt? {bytes : List UInt8} (h : (ofBytes? bytes).isSome = true) {i : ℕ}
    (hi : i < bytes.length) (heven : i % 2 = 0) : (channelAt? bytes i).isSome = true := by
  obtain ⟨color, h⟩ := Option.isSome_iff_exists.mp h
  unfold ofBytes? at h
  split at h
  · obtain ⟨red, hred, h⟩ := Option.bind_eq_some_iff.mp h
    obtain ⟨green, hgreen, h⟩ := Option.bind_eq_some_iff.mp h
    obtain ⟨blue, hblue, -⟩ := Option.bind_eq_some_iff.mp h
    have hplace : i = 0 ∨ i = 2 ∨ i = 4 := by omega
    rcases hplace with rfl | rfl | rfl <;> simp [hred, hgreen, hblue]
  · split at h
    · obtain ⟨red, hred, h⟩ := Option.bind_eq_some_iff.mp h
      obtain ⟨green, hgreen, h⟩ := Option.bind_eq_some_iff.mp h
      obtain ⟨blue, hblue, h⟩ := Option.bind_eq_some_iff.mp h
      obtain ⟨alpha, halpha, -⟩ := Option.bind_eq_some_iff.mp h
      have hplace : i = 0 ∨ i = 2 ∨ i = 4 ∨ i = 6 := by omega
      rcases hplace with rfl | rfl | rfl | rfl <;> simp [hred, hgreen, hblue, halpha]
    · cases h

theorem ascii_of_ofBytes? {bytes : List UInt8} (h : (ofBytes? bytes).isSome = true) :
    ∀ b ∈ bytes, b.toNat < 128 := by
  intro b hb
  obtain ⟨k, hk⟩ := List.mem_iff_getElem?.mp hb
  have hlt : k < bytes.length := (List.getElem?_eq_some_iff.mp hk).1
  -- The byte belongs to the channel that begins at it or right before it.
  obtain ⟨x, y, hx, hy, hxlt, hylt⟩ :=
    ascii_of_channelAt? (isSome_channelAt? h (i := k - k % 2) (by omega) (by omega))
  rcases Nat.mod_two_eq_zero_or_one k with heven | hodd
  · rw [heven, Nat.sub_zero, hk] at hx
    cases hx
    exact hxlt
  · rw [hodd, Nat.sub_add_cancel (by omega), hk] at hy
    cases hy
    exact hylt

/-! ## Encoded characters -/

theorem bytesOf_of_ascii {cs : List Char} (h : ∀ c ∈ cs, c.toNat < 128) :
    bytesOf cs = cs.map fun c => UInt8.ofNat c.toNat := by
  induction cs with
  | nil => rfl
  | cons c cs ih =>
      have hc : c.val.toNat ≤ 0x7f := Nat.le_of_lt_succ (h c List.mem_cons_self)
      have hrest := ih fun other hother => h other (List.mem_cons_of_mem c hother)
      rw [bytesOf, List.flatMap_cons, ← bytesOf, hrest, String.utf8EncodeChar, if_pos hc]
      rfl

theorem exists_byte_of_not_ascii {c : Char} (h : 128 ≤ c.toNat) :
    ∃ b ∈ String.utf8EncodeChar c, 128 ≤ b.toNat := by
  have hlast : 128 ≤ (UInt8.ofNat (c.val.toNat % 0x40 + 0x80)).toNat := by
    rw [UInt8.toNat_ofNat']
    omega
  have hc : ¬ c.val.toNat ≤ 0x7f := Nat.not_le.mpr h
  refine ⟨_, ?_, hlast⟩
  rw [String.utf8EncodeChar, if_neg hc]
  split
  · simp
  · split
    · simp
    · simp

theorem ascii_of_bytesOf {cs : List Char} (h : ∀ b ∈ bytesOf cs, b.toNat < 128) :
    ∀ c ∈ cs, c.toNat < 128 := by
  intro c hc
  by_contra hnot
  obtain ⟨b, hb, hge⟩ := exists_byte_of_not_ascii (Nat.le_of_not_lt hnot)
  have hlt := h b (List.mem_flatMap.mpr ⟨c, hc, hb⟩)
  omega

theorem charOf_ofNat {c : Char} (h : c.toNat < 128) : charOf (UInt8.ofNat c.toNat) = c := by
  rw [charOf, UInt8.toNat_ofNat', Nat.mod_eq_of_lt (by omega), Char.ofNat_toNat]

/-! ## Both readers -/

theorem channelAt?_bytesOf {cs : List Char} (hascii : ∀ c ∈ cs, c.toNat < 128) {i : ℕ}
    {a b : Char} (ha : cs[i]? = some a) (hb : cs[i + 1]? = some b) :
    channelAt? (bytesOf cs) i = channel? a b := by
  have hmap := bytesOf_of_ascii hascii
  have hbytes : ∀ byte ∈ bytesOf cs, byte.toNat < 128 := by
    rw [hmap]
    intro byte hbyte
    obtain ⟨c, hc, rfl⟩ := List.mem_map.mp hbyte
    rw [← toNat_charOf, charOf_ofNat (hascii c hc)]
    exact hascii c hc
  have hx : (bytesOf cs)[i]? = some (UInt8.ofNat a.toNat) := by simp [hmap, ha]
  have hy : (bytesOf cs)[i + 1]? = some (UInt8.ofNat b.toNat) := by simp [hmap, hb]
  rw [channelAt?_of_ascii hbytes hx hy, charOf_ofNat (hascii a (List.mem_of_getElem? ha)),
    charOf_ofNat (hascii b (List.mem_of_getElem? hb))]

theorem ascii_of_ofText? {s : String} (h : (ofText? s).isSome = true) :
    ∀ c ∈ unmarked s, c.toNat < 128 := by
  intro c hc
  obtain ⟨i, hi⟩ := List.mem_iff_getElem?.mp hc
  rcases ((isSome_ofText? s).mp h).2 i c hi with hdigit | ⟨-, rfl⟩
  · exact hdigit.toNat_lt
  · decide

theorem ofText?_eq_ofBytes?_of_ascii {s : String} (hascii : ∀ c ∈ unmarked s, c.toNat < 128) :
    ofText? s = ofBytes? (bytesOf (unmarked s)) := by
  have hlength : (bytesOf (unmarked s)).length = (unmarked s).length := by
    rw [bytesOf_of_ascii hascii, List.length_map]
  have hread : s.toList.dropWhile (· == '#') = unmarked s := rfl
  unfold ofText? ofBytes?
  rw [hlength, hread]
  generalize unmarked s = cs at hascii ⊢
  split
  · rw [channelAt?_bytesOf hascii (i := 0) rfl rfl, channelAt?_bytesOf hascii (i := 2) rfl rfl,
      channelAt?_bytesOf hascii (i := 4) rfl rfl]
    rfl
  · rw [channelAt?_bytesOf hascii (i := 0) rfl rfl, channelAt?_bytesOf hascii (i := 2) rfl rfl,
      channelAt?_bytesOf hascii (i := 4) rfl rfl, channelAt?_bytesOf hascii (i := 6) rfl rfl]
    rfl
  · next hsix height =>
      obtain ⟨hne, hne'⟩ := length_ne_of_not_pairs hsix height
      rw [if_neg hne, if_neg hne']

/-- To read a colour from the bytes of a text is to read it from the characters. -/
theorem ofText?_eq_ofBytes? (s : String) : ofText? s = ofBytes? (bytesOf (unmarked s)) := by
  by_cases hascii : ∀ c ∈ unmarked s, c.toNat < 128
  · exact ofText?_eq_ofBytes?_of_ascii hascii
  · have htext : ofText? s = none :=
      Option.not_isSome_iff_eq_none.mp fun h => hascii (ascii_of_ofText? h)
    have hbytes : ofBytes? (bytesOf (unmarked s)) = none :=
      Option.not_isSome_iff_eq_none.mp fun h => hascii (ascii_of_bytesOf (ascii_of_ofBytes? h))
    rw [htext, hbytes]

end Color

end CodeAtlas
