import CodeAtlas.Json.Decoder

/-! # Decoding

Lists and absent values decode to what was encoded, if their parts do. The second half
is about the two ways of reading a document: a decoder that accepts a document with all
its repetitions accepts it with the same result after the last of several fields with
one key has won, because a repeated key that it knows would have been refused.
-/

namespace CodeAtlas.Json

variable {α β : Type}

/-! ## Decoding what was encoded -/

/-- A list is decoded item by item. -/
theorem list?_array_eq_some_iff {decode : Decoder α} {items : List Json} {as : List α} :
    list? decode (.array items) = some as ↔ items.map decode = as.map some := by
  rw [list?]
  induction items generalizing as with
  | nil => cases as <;> simp
  | cons item items ih =>
      rw [List.mapM_cons, List.map_cons]
      cases hitem : decode item with
      | none => cases as <;> simp
      | some a =>
          cases as with
          | nil => cases hrest : items.mapM decode <;> simp
          | cons b bs => cases hrest : items.mapM decode <;> simp [← ih, hrest]

theorem exists_of_list? {decode : Decoder α} {items : List Json} {as : List α} {item : Json}
    (h : list? decode (.array items) = some as) (hitem : item ∈ items) :
    ∃ a, decode item = some a := by
  have hmem : decode item ∈ items.map decode := List.mem_map_of_mem hitem
  rw [list?_array_eq_some_iff.1 h] at hmem
  obtain ⟨a, -, ha⟩ := List.mem_map.1 hmem
  exact ⟨a, ha.symm⟩

theorem list?_ofList {encode : α → Json} {decode : Decoder α}
    (h : ∀ a, decode (encode a) = some a) (as : List α) :
    list? decode (.ofList encode as) = some as := by
  rw [ofList, list?_array_eq_some_iff, List.map_map]
  exact List.map_congr_left fun a _ => h a

theorem nullable?_of_ne_null {j : Json} (h : j ≠ .null) (decode : Decoder α) :
    nullable? decode j = (decode j).map some := by
  cases j <;> first | rfl | exact absurd rfl h

theorem nullable?_ofOption {encode : α → Json} {decode : Decoder α}
    (h : ∀ a, decode (encode a) = some a) (hnull : ∀ a, encode a ≠ .null) (o : Option α) :
    nullable? decode (.ofOption encode o) = some o := by
  cases o with
  | none => rfl
  | some a => simp [ofOption, nullable?_of_ne_null (hnull a), h]

theorem string?_string (s : String) : string? (.string s) = some s := rfl

theorem string?_eq_some {j : Json} {s : String} (h : string? j = some s) : j = .string s := by
  cases j with
  | string t => exact congrArg string (Option.some.inj h)
  | _ => cases h

theorem bool?_bool (b : Bool) : bool? (.bool b) = some b := rfl

theorem list?_strings (ss : List String) : list? string? (.ofList .string ss) = some ss :=
  list?_ofList string?_string ss

theorem nullable?_string (o : Option String) :
    nullable? string? (.ofOption .string o) = some o :=
  nullable?_ofOption string?_string (by simp) o

theorem nat?_ofNat {n : Nat} (h : n < Nat.pow 2 64) : nat? (.ofNat n) = some n := by
  simp only [nat?, ofNat, if_pos h]

theorem lt_of_nat? (j : Json) (n : Nat) (h : j.nat? = some n) : n < Nat.pow 2 64 := by
  unfold nat? at h
  split at h
  · split at h
    · next hlt =>
        cases h
        exact hlt
    · cases h
  · cases h

/-! ## Fields of an object -/

namespace Record

/-- A field is found if at most one of the object's fields goes by its names. -/
theorem find?_eq_some_iff {fields : List (String × Json)} {names : List String}
    {slot : Option Json} :
    find? fields names = some slot ↔
      (fields.filter fun field => names.contains field.1).length ≤ 1 ∧
        slot = (fields.filter fun field => names.contains field.1).head?.map Prod.snd := by
  rw [find?]
  generalize fields.filter (fun field => names.contains field.1) = picked
  cases picked with
  | nil => simp [eq_comm]
  | cons first rest => cases rest <;> simp [eq_comm]

theorem find?_eq_none {fields : List (String × Json)} {names : List String}
    (h : fields.any (fun field => names.contains field.1) = false) :
    find? fields names = some none := by
  have hnone : fields.filter (fun field => names.contains field.1) = [] := by
    rw [List.filter_eq_nil_iff]
    intro field hfield hname
    exact Bool.false_ne_true (h.symm.trans (List.any_eq_true.2 ⟨field, hfield, hname⟩))
  simp only [find?_eq_some_iff, hnone]
  exact ⟨Nat.zero_le 1, rfl⟩

theorem lookup_eq_head?_filter (key : String) (fields : List (String × Json)) :
    fields.lookup key =
      (fields.filter fun field => [key].contains field.1).head?.map Prod.snd := by
  induction fields with
  | nil => rfl
  | cons field fields ih =>
      obtain ⟨name, value⟩ := field
      by_cases hname : key = name
      · simp [hname]
      · have hdiffers : (key == name) = false := by simpa using hname
        have hskipped : [key].contains name = false := by simpa using Ne.symm hname
        simp only [List.lookup_cons, hdiffers, List.filter_cons, hskipped, ih]
        rfl

theorem lookup_of_find? {fields : List (String × Json)} {key : String} {slot : Option Json}
    (h : find? fields [key] = some slot) : fields.lookup key = slot := by
  rw [lookup_eq_head?_filter, (find?_eq_some_iff.1 h).2]

theorem find?_eq_get? {keys : List String} {fields : List (String × Json)} {r : Record}
    (h : ofKeys? keys (.object fields) = some r) {key : String} (hkey : key ∈ keys) :
    find? fields [key] = some (r.get? key) := by
  obtain ⟨slots, hslots, hr⟩ := Option.bind_eq_some_iff.1 h
  cases hr
  clear h
  simp only [get?]
  induction keys generalizing slots with
  | nil => simp at hkey
  | cons first keys ih =>
      rw [List.map_cons, List.mapM_cons] at hslots
      obtain ⟨slot, hslot, hslots⟩ := Option.bind_eq_some_iff.1 hslots
      obtain ⟨rest, hrest, hslots⟩ := Option.bind_eq_some_iff.1 hslots
      obtain ⟨value, hvalue, rfl⟩ := Option.map_eq_some_iff.1 hslot
      cases hslots
      by_cases hfirst : key = first
      · subst hfirst
        simpa using hvalue
      · have hdiffers : (key == first) = false := by simpa using hfirst
        have hkeys := (List.mem_cons.1 hkey).resolve_left hfirst
        simpa [List.lookup_cons, hdiffers] using ih hkeys rest hrest

theorem ofKeys?_of_find? {keys : List String} {fields : List (String × Json)}
    {slot : String → Option Json} (h : ∀ key ∈ keys, find? fields [key] = some (slot key)) :
    ofKeys? keys (.object fields) = some ⟨keys.map fun key => (key, slot key), true⟩ := by
  have hslots : (keys.map ([·])).mapM
      (fun names => (find? fields names).map fun value => (names.headD "", value)) =
        some (keys.map fun key => (key, slot key)) := by
    induction keys with
    | nil => rfl
    | cons key keys ih =>
        have hkey := h key (by simp)
        have hkeys := ih fun other hother => h other (by simp [hother])
        simp only [List.map_cons, List.mapM_cons, hkey, hkeys]
        rfl
  simp only [ofKeys?, ofJson?, hslots]
  rfl

theorem find?_of_nodup {fields : List (String × Json)} (h : (fields.map Prod.fst).Nodup)
    {field : String × Json} (hfield : field ∈ fields) :
    find? fields [field.1] = some (some field.2) := by
  have hpicked : (fields.filter fun other => [field.1].contains other.1) = [field] := by
    induction fields with
    | nil => cases hfield
    | cons first fields ih =>
        rw [List.map_cons, List.nodup_cons] at h
        obtain rfl | hfield := List.mem_cons.1 hfield
        · have hnone : (fields.filter fun other => [field.1].contains other.1) = [] := by
            rw [List.filter_eq_nil_iff]
            intro other hother hname
            obtain hname : other.1 = field.1 := by simpa using hname
            exact h.1 (hname ▸ List.mem_map_of_mem hother)
          rw [List.filter_cons_of_pos (by simp), hnone]
        · have hother : first.1 ≠ field.1 := fun hname =>
            h.1 (hname ▸ List.mem_map_of_mem hfield)
          rw [List.filter_cons_of_neg (by simpa using hother), ih h.2 hfield]
  rw [find?, hpicked]

/-- An object with exactly the fields of a record fills all of them. -/
theorem ofKeys?_object_bind {keys : List String} {fields : List (String × Json)}
    {f : Record → Option α} {a : Option α} (hkeys : fields.map Prod.fst = keys)
    (hnodup : keys.Nodup)
    (hf : ∀ r : Record, (∀ field ∈ fields, r.get? field.1 = some field.2) → f r = a) :
    (ofKeys? keys (.object fields)).bind f = a := by
  subst hkeys
  have hfind : ∀ key ∈ fields.map Prod.fst, find? fields [key] = some (fields.lookup key) := by
    intro key hkey
    obtain ⟨field, hfield, rfl⟩ := List.mem_map.1 hkey
    rw [lookup_of_find? (find?_of_nodup hnodup hfield), find?_of_nodup hnodup hfield]
  have hrecord := ofKeys?_of_find? hfind
  rw [hrecord, Option.bind_some]
  refine hf _ fun field hfield => ?_
  have hget := find?_eq_get? hrecord (List.mem_map_of_mem hfield)
  rw [find?_of_nodup hnodup hfield] at hget
  exact (Option.some.inj hget).symm

/-- A field holds what its decoder makes of a value, or its default. -/
theorem withDefault_induction {p : α → Prop} {r : Record} {key : String} {decode : Decoder α}
    {default a : α} (h : r.withDefault key decode default = some a) (hdefault : p default)
    (hdecode : ∀ j a, decode j = some a → p a) : p a := by
  unfold withDefault at h
  split at h
  · cases h
    exact hdefault
  · exact hdecode _ _ h

theorem lt_of_withDefault_nat? {r : Record} {key : String} {default n : Nat}
    (h : r.withDefault key nat? default = some n) (hdefault : default < Nat.pow 2 64) :
    n < Nat.pow 2 64 :=
  withDefault_induction (p := (· < Nat.pow 2 64)) h hdefault lt_of_nat?

end Record

/-! ## The last field with a key -/

theorem lastWinsItems_eq_map (items : List Json) : lastWinsItems items = items.map lastWins := by
  induction items with
  | nil => rfl
  | cons item items ih => simp [lastWinsItems, ih]

theorem lastWinsFields_eq_map (fields : List (String × Json)) :
    lastWinsFields fields = fields.map fun field => (field.1, field.2.lastWins) := by
  induction fields with
  | nil => rfl
  | cons field fields ih => simp [lastWinsFields, ih]

/-- Fields that a test picks out by their keys stay as they are, if there is at most one. -/
theorem filter_lastByKey {p : String → Bool} {fields : List (String × α)}
    (h : (fields.filter (p ·.1)).length ≤ 1) :
    (lastByKey fields).filter (p ·.1) = fields.filter (p ·.1) := by
  induction fields with
  | nil => rfl
  | cons field fields ih =>
      have hrest : (fields.filter (p ·.1)).length ≤ 1 :=
        Nat.le_trans ((List.sublist_cons_self field fields).filter _).length_le h
      rw [lastByKey]
      split
      · next hlater =>
          -- A dropped field passes the test only if the later one does, and they would be two.
          cases hp : p field.1 with
          | false => simp [hp, ih hrest]
          | true =>
              obtain ⟨later, hmem, hkey⟩ := List.any_eq_true.1 hlater
              have hpicked : later ∈ fields.filter (p ·.1) := by
                rw [List.mem_filter, beq_iff_eq.1 hkey]
                exact ⟨hmem, hp⟩
              have hsome := List.length_pos_of_mem hpicked
              simp only [List.filter_cons, hp, if_true, List.length_cons] at h
              omega
      · cases hp : p field.1 <;> simp [hp, ih hrest]

theorem any_lastByKey (p : String → Bool) (fields : List (String × α)) :
    (lastByKey fields).any (p ·.1) = fields.any (p ·.1) := by
  induction fields with
  | nil => rfl
  | cons field fields ih =>
      rw [lastByKey]
      split
      · next hlater =>
          obtain ⟨later, hmem, hkey⟩ := List.any_eq_true.1 hlater
          rw [ih, List.any_cons]
          cases hp : p field.1 with
          | false => rfl
          | true =>
              rw [Bool.true_or, List.any_eq_true]
              exact ⟨later, hmem, by rw [beq_iff_eq.1 hkey, hp]⟩
      · simp [ih]

namespace Record

theorem find?_lastWins {fields : List (String × Json)} {names : List String} {slot : Option Json}
    (h : find? fields names = some slot) :
    find? (lastByKey (lastWinsFields fields)) names = some (slot.map lastWins) := by
  obtain ⟨hle, rfl⟩ := find?_eq_some_iff.1 h
  have hmap : (lastWinsFields fields).filter (fun field => names.contains field.1) =
      (fields.filter fun field => names.contains field.1).map
        fun field => (field.1, field.2.lastWins) := by
    rw [lastWinsFields_eq_map, List.filter_map]
    rfl
  have hlast : (lastByKey (lastWinsFields fields)).filter (fun field => names.contains field.1) =
      (lastWinsFields fields).filter fun field => names.contains field.1 :=
    filter_lastByKey (by rwa [hmap, List.length_map])
  rw [find?_eq_some_iff, hlast, hmap, List.length_map, List.head?_map, Option.map_map, Option.map_map]
  exact ⟨hle, rfl⟩

theorem slots_lastWins {fields : List (String × Json)} {keys : List (List String)}
    {slots : List (String × Option Json)}
    (h : keys.mapM (fun names => (find? fields names).map fun slot => (names.headD "", slot)) =
      some slots) :
    keys.mapM (fun names => (find? (lastByKey (lastWinsFields fields)) names).map
      fun slot => (names.headD "", slot)) =
        some (slots.map fun slot => (slot.1, slot.2.map Json.lastWins)) := by
  induction keys generalizing slots with
  | nil =>
      cases h
      rfl
  | cons names keys ih =>
      rw [List.mapM_cons] at h
      obtain ⟨first, hfirst, h⟩ := Option.bind_eq_some_iff.1 h
      obtain ⟨rest, hrest, h⟩ := Option.bind_eq_some_iff.1 h
      obtain ⟨slot, hslot, rfl⟩ := Option.map_eq_some_iff.1 hfirst
      cases h
      simp only [List.mapM_cons, find?_lastWins hslot, ih hrest, Option.map_some]
      rfl

/-- The record of the value in which last fields have won. -/
def lastWins (r : Record) : Record :=
  ⟨r.slots.map fun slot => (slot.1, slot.2.map Json.lastWins), r.keyed⟩

theorem pair?_lastWins (keys : List (List String)) (items : List Json) :
    pair? keys (items.map Json.lastWins) =
      (pair? keys items).map (·.map fun slot => (slot.1, slot.2.map Json.lastWins)) := by
  induction keys generalizing items with
  | nil => cases items <;> rfl
  | cons names keys ih =>
      cases items with
      | nil =>
          have hnil := ih []
          cases hrest : pair? keys [] with
          | none => simp [pair?, hrest]
          | some slots =>
              simp only [List.map_nil, hrest, Option.map_some, Option.some.injEq] at hnil
              simpa [pair?, hrest] using hnil
      | cons item items => simp [pair?, ih, Function.comp_def]

theorem ofJson?_lastWins {keys : List (List String)} {j : Json} {r : Record}
    (h : ofJson? keys j = some r) : ofJson? keys j.lastWins = some r.lastWins := by
  cases j with
  | object fields =>
      obtain ⟨slots, hslots, h⟩ := Option.bind_eq_some_iff.1 h
      cases h
      simp only [Json.lastWins, ofJson?, slots_lastWins hslots]
      rfl
  | array items =>
      obtain ⟨slots, hpair, rfl⟩ := Option.map_eq_some_iff.1 h
      simp [Json.lastWins, ofJson?, lastWinsItems_eq_map, pair?_lastWins, hpair, lastWins]
  | _ => cases h

theorem get?_lastWins (r : Record) (key : String) :
    r.lastWins.get? key = (r.get? key).map Json.lastWins := by
  obtain ⟨slots, keyed⟩ := r
  simp only [get?, lastWins]
  induction slots with
  | nil => rfl
  | cons slot slots ih =>
      obtain ⟨name, value⟩ := slot
      cases hname : key == name with
      | true => cases value <;> simp [List.lookup_cons, hname]
      | false => simpa [List.lookup_cons, hname] using ih

/-- What can be read from a record can be read from it after last fields have won. -/
def Stable (f : Record → Option α) : Prop :=
  ∀ r a, f r = some a → f r.lastWins = some a

end Record

/-- What the decoder accepts it accepts after last fields have won, with the same result. -/
def Stable (decode : Decoder α) : Prop :=
  ∀ j a, decode j = some a → decode j.lastWins = some a

/-! ## Stable decoders -/

theorem stable_string? : Stable string? := by
  intro j s h
  cases j with
  | string s => exact h
  | _ => cases h

theorem stable_bool? : Stable bool? := by
  intro j b h
  cases j with
  | bool b => exact h
  | _ => cases h

theorem Stable.nullable? {decode : Decoder α} (h : Stable decode) :
    Stable (nullable? decode) := by
  intro j o hj
  cases j with
  | null => exact hj
  | _ =>
      obtain ⟨a, ha, rfl⟩ := Option.map_eq_some_iff.1 hj
      exact Option.map_eq_some_iff.2 ⟨a, h _ a ha, rfl⟩

theorem Stable.list? {decode : Decoder α} (h : Stable decode) : Stable (list? decode) := by
  intro j as hj
  cases j with
  | array items =>
      rw [lastWins, lastWinsItems_eq_map, list?_array_eq_some_iff, List.map_map,
        ← list?_array_eq_some_iff.1 hj]
      apply List.map_congr_left
      intro item hitem
      obtain ⟨a, ha⟩ := exists_of_list? hj hitem
      rw [Function.comp_apply, h item a ha, ha]
  | _ => cases hj

namespace Record

theorem Stable.pure (a : α) : Stable fun _ => some a :=
  fun _ _ h => h

theorem Stable.bind {f : Record → Option α} {g : α → Record → Option β} (hf : Stable f)
    (hg : ∀ a, Stable (g a)) : Stable fun r => f r >>= fun a => g a r := by
  intro r b h
  obtain ⟨a, ha, hb⟩ := Option.bind_eq_some_iff.1 h
  exact Option.bind_eq_some_iff.2 ⟨a, hf r a ha, hg a r b hb⟩

theorem stable_required {decode : Decoder α} (h : Json.Stable decode) (key : String) :
    Stable fun r => r.required key decode := by
  intro r a hr
  obtain ⟨j, hj, ha⟩ := Option.bind_eq_some_iff.1 hr
  simp [required, get?_lastWins, hj, h j a ha]

theorem stable_withDefault {decode : Decoder α} (h : Json.Stable decode) (key : String)
    (default : α) : Stable fun r => r.withDefault key decode default := by
  intro r a hr
  simp only [withDefault, get?_lastWins] at hr ⊢
  cases hj : r.get? key with
  | none => simpa [hj] using hr
  | some j => exact h j a (by simpa [hj] using hr)

end Record

theorem stable_record {f : Record → Option α} (hf : Record.Stable f) (keys : List (List String)) :
    Stable fun j => Record.ofJson? keys j >>= f := by
  intro j a h
  obtain ⟨r, hr, ha⟩ := Option.bind_eq_some_iff.1 h
  exact Option.bind_eq_some_iff.2 ⟨r.lastWins, Record.ofJson?_lastWins hr, hf r a ha⟩

end CodeAtlas.Json
