import CodeAtlas.Proofs.Explorer.OrderIndependence

/-! # Names in the order of their bytes

Names are compared character by character. Written in UTF-8, a smaller character has a
smaller byte at the first place where the two differ, so names are in the same order when
they are compared byte by byte. The order of entries is restated in these terms.
-/

namespace CodeAtlas.Explorer

/-! ## Bytes of a character -/

/-- The bytes of the character with the given code. -/
def utf8Bytes (code : Nat) : List Nat :=
  if code < 128 then [code]
  else if code < 2048 then [code / 64 + 192, code % 64 + 128]
  else if code < 65536 then [code / 4096 + 224, code / 64 % 64 + 128, code % 64 + 128]
  else [code / 262144 + 240, code / 4096 % 64 + 128, code / 64 % 64 + 128, code % 64 + 128]

theorem map_toNat_utf8EncodeChar (c : Char) :
    (String.utf8EncodeChar c).map UInt8.toNat = utf8Bytes c.toNat := by
  have hc : c.toNat < 1114112 := by
    rcases c.valid with hlow | ⟨-, hhigh⟩
    · exact Nat.lt_trans hlow (by decide)
    · exact hhigh
  have hval : c.val.toNat = c.toNat := rfl
  unfold String.utf8EncodeChar utf8Bytes
  simp only [hval, Nat.lt_succ_iff]
  -- No byte overflows; of a code with four bytes the first one is small by `hc`.
  split_ifs
  all_goals
    simp only [List.map_cons, List.map_nil, UInt8.toNat_ofNat', List.cons.injEq, and_true]
    omega

theorem utf8Bytes_ne_nil (code : Nat) : utf8Bytes code ≠ [] := by
  unfold utf8Bytes
  split_ifs <;> simp

/-- The bytes of a smaller code come first, whatever follows them. -/
theorem utf8Bytes_lex {v w : Nat} (h : v < w) (s t : List Nat) :
    List.Lex (· < ·) (utf8Bytes v ++ s) (utf8Bytes w ++ t) := by
  unfold utf8Bytes
  split_ifs
  all_goals
    simp only [List.cons_append, List.nil_append, List.cons_lex_cons_iff]
    omega

/-! ## Bytes of a name -/

def nameBytes (name : String) : List Nat :=
  name.toUTF8.data.toList.map UInt8.toNat

/-- The first name comes before the second one when they are compared byte by byte. -/
def BytesBefore (a b : String) : Prop :=
  List.Lex (· < ·) (nameBytes a) (nameBytes b)

theorem nameBytes_eq_flatMap (name : String) :
    nameBytes name = name.toList.flatMap fun c => utf8Bytes c.toNat := by
  have hbytes : name.toUTF8.data.toList = name.toList.flatMap String.utf8EncodeChar := by
    rw [String.toUTF8, ← String.utf8Encode_toList, List.utf8Encode, List.data_toByteArray]
  rw [nameBytes, hbytes, List.map_flatMap]
  simp only [map_toNat_utf8EncodeChar]

theorem flatMap_utf8Bytes_lex {cs ds : List Char}
    (h : List.Lex (fun c d => c.toNat < d.toNat) cs ds) :
    List.Lex (· < ·) (cs.flatMap fun c => utf8Bytes c.toNat)
      (ds.flatMap fun c => utf8Bytes c.toNat) := by
  induction h with
  | @nil d ds =>
      obtain ⟨byte, bytes, hbytes⟩ := List.exists_cons_of_ne_nil (utf8Bytes_ne_nil d.toNat)
      rw [List.flatMap_nil, List.flatMap_cons, hbytes]
      exact List.Lex.nil
  | rel hlt => exact utf8Bytes_lex hlt _ _
  | @cons c cs ds _ ih =>
      rw [List.flatMap_cons, List.flatMap_cons]
      induction utf8Bytes c.toNat with
      | nil => exact ih
      | cons byte bytes ihBytes => exact List.Lex.cons ihBytes

theorem bytesBefore_of_lt {a b : String} (h : a < b) : BytesBefore a b := by
  unfold BytesBefore
  rw [nameBytes_eq_flatMap, nameBytes_eq_flatMap]
  exact flatMap_utf8Bytes_lex (String.lt_iff.mp h)

theorem bytesBefore_iff_lt {a b : String} : BytesBefore a b ↔ a < b := by
  refine ⟨fun h => ?_, bytesBefore_of_lt⟩
  by_contra hba
  by_cases hab : b < a
  · exact List.lt_asymm h (bytesBefore_of_lt hab)
  · have heq : a = b := String.le_antisymm hab hba
    rw [heq] at h
    exact List.lt_irrefl _ h

/-! ## The order of entries -/

namespace Entry

/-- Folders come before files, and entries of one kind in the order of the bytes of their names. -/
def Precedes (a b : Entry) : Prop :=
  (a.kind = .folder ∧ b.kind = .file) ∨ (a.kind = b.kind ∧ BytesBefore a.name b.name)

theorem le_iff_not_precedes {a b : Entry} : le a b = true ↔ ¬ Precedes b a := by
  have hname : a.name ≤ b.name ↔ ¬ BytesBefore b.name a.name := not_congr bytesBefore_iff_lt.symm
  rw [le_iff, Precedes, hname]
  cases ha : a.kind <;> cases hb : b.kind <;> simp [EntryKind.rank]

theorem le_of_key_eq {a b : Entry} (hkind : a.kind = b.kind) (hname : a.name = b.name) :
    le a b = true :=
  (le_iff a b).mpr (Or.inr ⟨hkind, hname ▸ String.le_refl a.name⟩)

theorem precedes_iff {a b : Entry} :
    Precedes a b ↔ le a b = true ∧ ¬ (a.kind = b.kind ∧ a.name = b.name) := by
  constructor
  · intro h
    have hnot : ¬ le b a = true := fun hle => le_iff_not_precedes.mp hle h
    have htotal := le_total a b
    rw [Bool.or_eq_true] at htotal
    refine ⟨htotal.resolve_right hnot, ?_⟩
    rintro ⟨hkind, hname⟩
    exact hnot (le_of_key_eq hkind.symm hname.symm)
  · rintro ⟨hle, hkey⟩
    by_contra hnot
    exact hkey (le_antisymm hle (le_iff_not_precedes.mpr hnot))

end Entry

end CodeAtlas.Explorer
