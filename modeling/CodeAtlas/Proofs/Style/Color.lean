import Mathlib.Data.List.Infix
import CodeAtlas.Style.Color

/-! # Colours and their texts

Reading accepts several texts for one colour. Among them stands the one in which the colour is
written: lower-case digits, and an alpha channel only where it is needed. Reading and writing
are inverse to each other between the colours and these texts.
-/

namespace CodeAtlas

namespace Hex

/-- A digit as it is written. -/
def IsLower (c : Char) : Prop :=
  ('0' ≤ c ∧ c ≤ '9') ∨ ('a' ≤ c ∧ c ≤ 'f')

theorem isLower_digit : ∀ n, n < 16 → IsLower (digit n) := by
  unfold IsLower
  decide

theorem digit_ne_mark : ∀ n, n < 16 → digit n ≠ '#' ∧ digit n ≠ '+' := by
  decide

theorem exists_digit {c : Char} (h : IsLower c) : ∃ n, n < 16 ∧ digit n = c := by
  rcases h with ⟨hlow, hhigh⟩ | ⟨hlow, hhigh⟩
  · have h0 : 48 ≤ c.toNat := hlow
    have h9 : c.toNat ≤ 57 := hhigh
    refine ⟨c.toNat - 48, by omega, ?_⟩
    rw [digit, if_pos (by omega), show '0'.toNat + (c.toNat - 48) = c.toNat from by
      show 48 + (c.toNat - 48) = c.toNat
      omega]
    exact Char.ofNat_toNat c
  · have ha : 97 ≤ c.toNat := hlow
    have hf : c.toNat ≤ 102 := hhigh
    refine ⟨c.toNat - 87, by omega, ?_⟩
    rw [digit, if_neg (by omega), show 'a'.toNat + (c.toNat - 87) - 10 = c.toNat from by
      show 97 + (c.toNat - 87) - 10 = c.toNat
      omega]
    exact Char.ofNat_toNat c

end Hex

namespace Color

/-! ## Channels -/

theorem channel_halves (channel : UInt8) :
    channel.toNat / 16 < 16 ∧ channel.toNat % 16 < 16 := by
  have hlt := channel.toNat_lt
  omega

theorem channel?_channelText (channel : UInt8) :
    channel? (Hex.digit (channel.toNat / 16)) (Hex.digit (channel.toNat % 16)) = some channel := by
  obtain ⟨hhigh, hlow⟩ := channel_halves channel
  have hjoin : channel.toNat / 16 * 16 + channel.toNat % 16 = channel.toNat := by omega
  rw [channel?, if_neg (Hex.digit_ne_mark _ hhigh).2, Hex.digit?_digit _ hhigh,
    Hex.digit?_digit _ hlow]
  show some (UInt8.ofNat (channel.toNat / 16 * 16 + channel.toNat % 16)) = some channel
  rw [hjoin, UInt8.ofNat_toNat]

theorem isLower_channelText {channel : UInt8} : ∀ c ∈ channelText channel, Hex.IsLower c := by
  obtain ⟨hhigh, hlow⟩ := channel_halves channel
  simp [channelText, Hex.isLower_digit _ hhigh, Hex.isLower_digit _ hlow]

/-- Two digits are the text of a channel. -/
theorem exists_channelText {a b : Char} (ha : Hex.IsLower a) (hb : Hex.IsLower b) :
    ∃ channel, channelText channel = [a, b] := by
  obtain ⟨x, hx, rfl⟩ := Hex.exists_digit ha
  obtain ⟨y, hy, rfl⟩ := Hex.exists_digit hb
  refine ⟨UInt8.ofNat (x * 16 + y), ?_⟩
  have hvalue : (UInt8.ofNat (x * 16 + y)).toNat = x * 16 + y := by
    rw [UInt8.toNat_ofNat']
    omega
  rw [channelText, hvalue, show (x * 16 + y) / 16 = x from by omega,
    show (x * 16 + y) % 16 = y from by omega]

theorem channelText_eq_ff_iff {channel : UInt8} :
    channelText channel = ['f', 'f'] ↔ channel = 255 := by
  constructor
  · intro h
    have hread := channel?_channelText channel
    simp only [channelText, List.cons.injEq, and_true] at h
    rw [h.1, h.2] at hread
    exact (Option.some.inj hread).symm
  · rintro rfl
    rfl

/-! ## Texts -/

/-- Four channels, of which the last one may be left out. -/
theorem ofText?_text (c : Color) : ofText? c.text = some c := by
  have hmark := (Hex.digit_ne_mark _ (channel_halves c.red).1).1
  by_cases hsolid : c.alpha = 255
  · simp [ofText?, text, channelText, channel?_channelText, hmark, hsolid, solid]
    rw [← hsolid]
  · simp [ofText?, text, channelText, channel?_channelText, hmark, hsolid]

/-- The texts in which colours are written: six digits, or eight that do not end in `ff`. -/
def IsWritten (s : String) : Prop :=
  ∃ digits, s.toList = '#' :: digits ∧ (∀ d ∈ digits, Hex.IsLower d) ∧
    (digits.length = 6 ∨ digits.length = 8 ∧ ¬['f', 'f'] <:+ digits)

theorem isWritten_text (c : Color) : IsWritten c.text := by
  refine ⟨_, String.toList_ofList, ?_, ?_⟩
  · intro d hd
    simp only [List.mem_append] at hd
    rcases hd with ((hd | hd) | hd) | hd
    · exact isLower_channelText d hd
    · exact isLower_channelText d hd
    · exact isLower_channelText d hd
    · split at hd
      · cases hd
      · exact isLower_channelText d hd
  · by_cases hsolid : c.alpha = 255
    · exact Or.inl (by simp [hsolid, channelText])
    · right
      refine ⟨by simp [hsolid, channelText], ?_⟩
      rintro ⟨front, hfront⟩
      rw [if_neg hsolid] at hfront
      have hlast := (List.append_inj' hfront rfl).2
      exact hsolid (channelText_eq_ff_iff.mp hlast.symm)

/-- An even number of digits is made of the texts of channels. -/
theorem exists_channels (n : ℕ) {digits : List Char} (hlength : digits.length = 2 * n)
    (hlower : ∀ d ∈ digits, Hex.IsLower d) :
    ∃ channels : List UInt8, channels.length = n ∧ channels.flatMap channelText = digits := by
  induction n generalizing digits with
  | zero => exact ⟨[], rfl, (List.eq_nil_of_length_eq_zero hlength).symm⟩
  | succ n ih =>
      obtain ⟨a, behind, rfl⟩ := List.exists_of_length_succ _ hlength
      obtain ⟨b, rest, rfl⟩ := List.exists_of_length_succ _ (Nat.succ.inj hlength)
      simp only [List.forall_mem_cons] at hlower
      obtain ⟨channel, hchannel⟩ := exists_channelText hlower.1 hlower.2.1
      obtain ⟨channels, hcount, hrest⟩ :=
        ih (Nat.succ.inj (Nat.succ.inj hlength)) hlower.2.2
      exact ⟨channel :: channels, by simp [hcount], by simp [hchannel, hrest]⟩

theorem exists_text_eq {s : String} (h : IsWritten s) : ∃ c, text c = s := by
  obtain ⟨digits, hs, hlower, hshape⟩ := h
  rw [← String.ofList_toList (s := s), hs]
  rcases hshape with hsix | ⟨height, hend⟩
  · obtain ⟨channels, hcount, rfl⟩ := exists_channels 3 hsix hlower
    obtain ⟨r, g, b, rfl⟩ := List.length_eq_three.mp hcount
    exact ⟨solid r g b, by simp [text, solid]⟩
  · obtain ⟨channels, hcount, rfl⟩ := exists_channels 4 height hlower
    obtain ⟨r, rest, rfl⟩ := List.exists_of_length_succ _ hcount
    obtain ⟨g, b, a, rfl⟩ := List.length_eq_three.mp (Nat.succ.inj hcount)
    have halpha : a ≠ 255 := by
      rintro rfl
      exact hend ⟨channelText r ++ channelText g ++ channelText b,
        by simp [channelText_eq_ff_iff.mpr]⟩
    exact ⟨⟨r, g, b, a⟩, by simp [text, halpha]⟩

/--
Every colour is read back from its text. The texts that are written again as they were read
are those of six lower-case digits, and of eight that do not end in `ff`.
-/
theorem ofText?_text_and_text_of_written :
    (∀ c : Color, ofText? c.text = some c) ∧
      ∀ s : String, (ofText? s).map text = some s ↔ IsWritten s := by
  refine ⟨ofText?_text, fun s => ⟨?_, ?_⟩⟩
  · intro h
    obtain ⟨c, -, rfl⟩ := Option.map_eq_some_iff.mp h
    exact isWritten_text c
  · intro h
    obtain ⟨c, rfl⟩ := exists_text_eq h
    rw [ofText?_text, Option.map_some]

end Color

end CodeAtlas
