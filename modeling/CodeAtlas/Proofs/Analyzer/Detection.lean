import CodeAtlas.Proofs.Analyzer.Payload
import CodeAtlas.Proofs.Graph.Codec

/-! # Telling the two forms of a snapshot apart

A text may hold a snapshot or a flow chart. Whatever was written in one of the two forms
is read in that form, because every written node of a flow chart shows what it is. A
document that somebody else wrote may begin with a node that does not, and then it is read
as a snapshot: nothing is left of its nodes but their names.
-/

namespace CodeAtlas.Analyzer

open Json (Record)

/-! ## What the first node shows -/

/-- Does the value have one of the keys? -/
def hasKey (keys : List String) : Json → Bool
  | .object fields => fields.any fun field => keys.contains field.1
  | _ => false

/-- The items of the array that stands in a field. -/
def itemsAt (key : String) (fields : List (String × Json)) : List Json :=
  match fields.lookup key with
  | some (.array items) => items
  | _ => []

/-- Keys that only a node of a flow chart has. -/
def payloadKeys : List String := ["data", "parentNode"]

/-- Keys that only a node of a snapshot has. -/
def snapshotKeys : List String := ["label", "args", "returns", "parent", "parentId"]

theorem hasKey_payloadKeys (fields : List (String × Json)) :
    hasKey payloadKeys (.object fields) =
      ((fields.lookup "data").isSome || (fields.lookup "parentNode").isSome) := by
  rw [Bool.eq_iff_iff, Bool.or_eq_true, List.lookup_isSome_iff, List.lookup_isSome_iff]
  simp only [hasKey, payloadKeys, List.any_eq_true, List.contains_eq_mem, List.mem_cons,
    List.not_mem_nil, or_false, decide_eq_true_eq, beq_iff_eq]
  constructor
  · rintro ⟨field, hfield, hdata | hparent⟩
    · exact Or.inl ⟨field, hfield, hdata.symm⟩
    · exact Or.inr ⟨field, hfield, hparent.symm⟩
  · rintro (⟨field, hfield, hdata⟩ | ⟨field, hfield, hparent⟩)
    · exact ⟨field, hfield, Or.inl hdata.symm⟩
    · exact ⟨field, hfield, Or.inr hparent.symm⟩

theorem isPayload_object (fields : List (String × Json)) :
    isPayload (.object fields) = (itemsAt "nodes" fields).head?.any (hasKey payloadKeys) := by
  simp only [isPayload, itemsAt]
  cases fields.lookup "nodes" with
  | none => rfl
  | some j =>
      cases j with
      | array nodes =>
          cases nodes with
          | nil => rfl
          | cons node rest =>
              cases node with
              | object node => exact (hasKey_payloadKeys node).symm
              | _ => rfl
      | _ => rfl

theorem hasKey_lastWins (keys : List String) (j : Json) :
    hasKey keys j.lastWins = hasKey keys j := by
  cases j with
  | object fields =>
      simp only [Json.lastWins, hasKey, Json.any_lastByKey keys.contains,
        Json.lastWinsFields_eq_map, List.any_map]
      rfl
  | _ => rfl

theorem itemsAt_lastWins {key : String} {fields : List (String × Json)} {slot : Option Json}
    (h : Record.find? fields [key] = some slot) :
    itemsAt key (Json.lastByKey (Json.lastWinsFields fields)) =
      (itemsAt key fields).map Json.lastWins := by
  have hbefore := Record.lookup_of_find? h
  have hafter := Record.lookup_of_find? (Record.find?_lastWins h)
  unfold itemsAt
  rw [hbefore, hafter]
  cases slot with
  | none => rfl
  | some j => cases j <;> simp [Json.lastWins, Json.lastWinsItems_eq_map]

theorem isPayload_lastWins {fields : List (String × Json)} {slot : Option Json}
    (h : Record.find? fields ["nodes"] = some slot) :
    isPayload (Json.object fields).lastWins = isPayload (.object fields) := by
  rw [Json.lastWins, isPayload_object, isPayload_object, itemsAt_lastWins h, List.head?_map]
  cases (itemsAt "nodes" fields).head? with
  | none => rfl
  | some node => exact hasKey_lastWins payloadKeys node

/-! ## Reading a text of either form -/

section

variable {text : String} {fields : List (String × Json)}

theorem readSnapshot_of_not_plain (hparse : Json.parse? text = some (.object fields))
    (hplain : (Json.object fields).isPlain = false) : readSnapshot text = .error .notJson := by
  simp [readSnapshot, Json.value?, hparse, hplain]

theorem readSnapshot_payload {p : Payload} (hparse : Json.parse? text = some (.object fields))
    (hplain : (Json.object fields).isPlain = true) (hp : Payload.ofJson? (.object fields) = some p)
    (hshown : isPayload (.object fields) = true) : readSnapshot text = .ok p.toSnapshot := by
  obtain ⟨r, hr, -⟩ := Option.bind_eq_some_iff.1 hp
  have hsame := isPayload_lastWins (Record.find?_eq_get? hr (by simp))
  have hdecode := Payload.stable_ofJson? _ p hp
  simp only [readSnapshot, Json.value?_of_parse? hparse hplain, hsame, hshown, hdecode, if_true]

theorem readSnapshot_eq_ok_iff {s : Snapshot} {slot : Option Json}
    (hparse : Json.parse? text = some (.object fields))
    (hplain : (Json.object fields).isPlain = true)
    (hnodes : Record.find? fields ["nodes"] = some slot)
    (hshown : isPayload (.object fields) = false) :
    readSnapshot text = .ok s ↔ Snapshot.ofJson? (Json.object fields).lastWins = some s := by
  rw [readSnapshot, Json.value?_of_parse? hparse hplain]
  simp only [isPayload_lastWins hnodes, hshown, Bool.false_eq_true, if_false]
  cases Snapshot.ofJson? (Json.object fields).lastWins <;> simp

theorem readSnapshot_snapshot {s : Snapshot} (hparse : Json.parse? text = some (.object fields))
    (hplain : (Json.object fields).isPlain = true) (hs : Snapshot.ofJson? (.object fields) = some s)
    (hshown : isPayload (.object fields) = false) : readSnapshot text = .ok s := by
  obtain ⟨r, hr, -⟩ := Option.bind_eq_some_iff.1 hs
  have hnodes : Record.find? fields ["nodes"] = some (r.get? "nodes") :=
    Record.find?_eq_get? hr (by simp)
  exact (readSnapshot_eq_ok_iff hparse hplain hnodes hshown).2 (Snapshot.stable_ofJson? _ s hs)

end

/-! ## What was written in either form -/

theorem isPayload_snapshot (s : Snapshot) : isPayload s.toJson = false := by
  obtain ⟨nodes, edges⟩ := s
  cases nodes <;> rfl

theorem isPayload_payload {p : Payload} (h : p.nodes ≠ []) : isPayload p.toJson = true := by
  obtain ⟨nodes, edges⟩ := p
  cases nodes with
  | nil => exact absurd rfl h
  | cons node nodes => rfl

/--
A snapshot is read back from its text, whatever its strings are, and a flow chart with at
least one node is read from its text as the snapshot that it shows.
-/
theorem readSnapshot_written (s : Snapshot) (p : Payload) (h : p.nodes ≠ []) :
    (readSnapshot s.toJson.compact = .ok s ∧ readSnapshot s.toJson.pretty = .ok s) ∧
      readSnapshot p.toJson.compact = .ok p.toSnapshot ∧
      readSnapshot p.toJson.pretty = .ok p.toSnapshot := by
  have hs := s.legibleWithin_toJson
  have hp := p.legibleWithin_toJson
  have hsPlain := hs.isPlain (by decide)
  have hpPlain := hp.isPlain (by decide)
  have hshown := isPayload_payload h
  refine ⟨⟨?_, ?_⟩, ?_, ?_⟩
  · exact readSnapshot_snapshot (Json.parse?_compact hs.1) hsPlain s.ofJson?_toJson
      (isPayload_snapshot s)
  · exact readSnapshot_snapshot (Json.parse?_pretty hs.1) hsPlain s.ofJson?_toJson
      (isPayload_snapshot s)
  · exact readSnapshot_payload (Json.parse?_compact hp.1) hpPlain p.ofJson?_toJson hshown
  · exact readSnapshot_payload (Json.parse?_pretty hp.1) hpPlain p.ofJson?_toJson hshown

/-- A node with all its details. -/
def awkwardNode : PayloadNode where
  id := "a\"b"
  data := { label := some "é\n", args := some ["x", ""], returns := some "int" }
  parentNode := some "a.py"

/-- The same node in the other form. -/
def awkwardRaw : RawNode where
  id := "a\"b"
  label := "é\n"
  args := ["x", ""]
  returns := "int"
  parent := some "a.py"

/-- A node with all its details, one with an empty parent and an empty label, in both forms. -/
theorem unusualNode_read :
    let s : Snapshot :=
      { nodes := [awkwardRaw, { id := "c", parent := some "" }],
        edges := [{ source := "a\"b", target := "c", label := some "" }] }
    let p : Payload :=
      { nodes := [awkwardNode, { id := "c", parentNode := some "" }],
        edges := [{ source := "a\"b", target := "c", label := some "" }] }
    p.nodes ≠ [] ∧ readSnapshot s.toJson.compact = .ok s ∧
      readSnapshot p.toJson.pretty =
        .ok { nodes := [awkwardRaw, { id := "c" }],
              edges := [{ source := "a\"b", target := "c" }] } := by
  intro s p
  have hread := readSnapshot_written s p (by simp [p])
  exact ⟨by simp [p], hread.1.1, hread.2.2⟩

/-! ## Charts whose first node does not show its form -/

/-- What is left of a flow chart that is read as a snapshot: nodes are mere names. -/
def Payload.stripped (p : Payload) : Snapshot where
  nodes := p.nodes.map fun n => { id := n.id }
  edges := p.edges.map fun e =>
    { id := e.id, source := e.source, target := e.target, label := e.label }

theorem rawNode_of_payloadNode {fields : List (String × Json)} {n : PayloadNode}
    (hn : PayloadNode.ofJson? (.object fields) = some n)
    (hkeys : hasKey snapshotKeys (.object fields) = false) :
    RawNode.ofJson? (.object fields) = some { id := n.id } := by
  obtain ⟨r, hr, hn⟩ := Option.bind_eq_some_iff.1 hn
  obtain ⟨id, hid, hn⟩ := Option.bind_eq_some_iff.1 hn
  obtain ⟨type, -, hn⟩ := Option.bind_eq_some_iff.1 hn
  obtain ⟨data, -, hn⟩ := Option.bind_eq_some_iff.1 hn
  obtain ⟨parent, -, hn⟩ := Option.bind_eq_some_iff.1 hn
  obtain ⟨extent, -, hn⟩ := Option.bind_eq_some_iff.1 hn
  cases hn
  have hid : Record.find? fields ["id"] = some (some (.string id)) := by
    obtain ⟨j, hj, hid⟩ := Option.bind_eq_some_iff.1 hid
    rw [Record.find?_eq_get? hr (by simp), hj, Json.string?_eq_some hid]
  have habsent : ∀ names : List String, (∀ name ∈ names, name ∈ snapshotKeys) →
      Record.find? fields names = some none := by
    intro names hnames
    apply Record.find?_eq_none
    simp only [hasKey, List.any_eq_false, List.contains_eq_mem, decide_eq_true_eq] at hkeys ⊢
    exact fun field hfield hname => hkeys field hfield (hnames _ hname)
  simp only [RawNode.ofJson?, Record.ofJson?, List.mapM_cons, List.mapM_nil, hid,
    habsent ["label"] (by decide), habsent ["args"] (by decide), habsent ["returns"] (by decide),
    habsent ["parent", "parentId"] (by decide)]
  rfl

theorem edge_of_payloadEdge {fields : List (String × Json)} {e : PayloadEdge}
    (he : PayloadEdge.ofJson? (.object fields) = some e) :
    Edge.ofJson? (.object fields) =
      some { id := e.id, source := e.source, target := e.target, label := e.label } := by
  obtain ⟨r, hr, he⟩ := Option.bind_eq_some_iff.1 he
  obtain ⟨id, hid, he⟩ := Option.bind_eq_some_iff.1 he
  obtain ⟨source, hsource, he⟩ := Option.bind_eq_some_iff.1 he
  obtain ⟨target, htarget, he⟩ := Option.bind_eq_some_iff.1 he
  obtain ⟨animated, -, he⟩ := Option.bind_eq_some_iff.1 he
  obtain ⟨type, -, he⟩ := Option.bind_eq_some_iff.1 he
  obtain ⟨label, hlabel, he⟩ := Option.bind_eq_some_iff.1 he
  cases he
  have hfound : ∀ key ∈ ["id", "source", "target", "label"],
      Record.find? fields [key] = some (r.get? key) := by
    have hknown : ∀ key ∈ ["id", "source", "target", "label"],
        key ∈ ["id", "source", "target", "animated", "type", "label"] := by decide
    exact fun key hkey => Record.find?_eq_get? hr (hknown key hkey)
  show ((Record.ofKeys? ["id", "source", "target", "label"] (.object fields)).bind _) = _
  rw [Record.ofKeys?_of_find? hfound, Option.bind_some]
  show ((r.withDefault "id" (Json.nullable? Json.string?) none).bind fun id =>
    (r.required "source" Json.string?).bind fun source =>
    (r.required "target" Json.string?).bind fun target =>
    (r.withDefault "label" (Json.nullable? Json.string?) none).bind fun label =>
      some (Edge.mk id source target label)) = _
  rw [hid, hsource, htarget, hlabel]
  rfl

/-- Items that one decoder reads as `a` and another one as `f a`. -/
theorem list?_map {α β : Type} {decode : Json.Decoder α} {decode' : Json.Decoder β} {f : α → β}
    {items : List Json} {as : List α}
    (hitems : ∀ item ∈ items, ∀ a, decode item = some a → decode' item = some (f a))
    (h : Json.list? decode (.array items) = some as) :
    Json.list? decode' (.array items) = some (as.map f) := by
  have hdecoded := congrArg (List.map (Option.map f)) (Json.list?_array_eq_some_iff.1 h)
  rw [List.map_map, List.map_map] at hdecoded
  rw [Json.list?_array_eq_some_iff, List.map_map]
  refine Eq.trans ?_ hdecoded
  apply List.map_congr_left
  intro item hitem
  obtain ⟨a, ha⟩ := Json.exists_of_list? h hitem
  rw [hitems item hitem a ha, Function.comp_apply, ha, Option.map_some]

/-- A field that one decoder reads as a list is read item by item by any other one. -/
theorem withDefault_list? {α β : Type} {decode : Json.Decoder α} {fields : List (String × Json)}
    {r : Record} {key : String} {as : List α} (hslot : fields.lookup key = r.get? key)
    (h : r.withDefault key (Json.list? decode) [] = some as) (decode' : Json.Decoder β) :
    r.withDefault key (Json.list? decode') [] =
      Json.list? decode' (.array (itemsAt key fields)) := by
  rw [itemsAt, hslot]
  unfold Record.withDefault at h ⊢
  cases hj : r.get? key with
  | none => rfl
  | some j =>
      rw [hj] at h
      cases j with
      | array items => rfl
      | _ => cases h

theorem withDefault_map {α β : Type} {decode : Json.Decoder α} {decode' : Json.Decoder β}
    {f : α → β} {fields : List (String × Json)} {r : Record} {key : String} {as : List α}
    (hslot : fields.lookup key = r.get? key)
    (hitems : ∀ item ∈ itemsAt key fields, ∀ a, decode item = some a → decode' item = some (f a))
    (h : r.withDefault key (Json.list? decode) [] = some as) :
    r.withDefault key (Json.list? decode') [] = some (as.map f) := by
  rw [withDefault_list? hslot h decode']
  rw [withDefault_list? hslot h decode] at h
  exact list?_map hitems h

theorem snapshot_of_payload {fields : List (String × Json)} {p : Payload}
    (hp : Payload.ofJson? (.object fields) = some p)
    (hnodes : ∀ node ∈ itemsAt "nodes" fields,
      (∃ inner, node = .object inner) ∧ hasKey snapshotKeys node = false)
    (hedges : ∀ edge ∈ itemsAt "edges" fields, ∃ inner, edge = .object inner) :
    Snapshot.ofJson? (.object fields) = some p.stripped := by
  obtain ⟨r, hr, hp⟩ := Option.bind_eq_some_iff.1 hp
  obtain ⟨nodes, hpnodes, hp⟩ := Option.bind_eq_some_iff.1 hp
  obtain ⟨edges, hpedges, hp⟩ := Option.bind_eq_some_iff.1 hp
  cases hp
  have hslot : ∀ key ∈ ["nodes", "edges"], fields.lookup key = r.get? key := fun key hkey =>
    Record.lookup_of_find? (Record.find?_eq_get? hr hkey)
  have hsnodes := withDefault_map (hslot "nodes" (by simp)) (fun node hnode n hn => by
    obtain ⟨⟨inner, rfl⟩, hkeys⟩ := hnodes node hnode
    exact rawNode_of_payloadNode hn hkeys) hpnodes
  have hsedges := withDefault_map (hslot "edges" (by simp)) (fun edge hedge e he => by
    obtain ⟨inner, rfl⟩ := hedges edge hedge
    exact edge_of_payloadEdge he) hpedges
  simp only [Snapshot.ofJson?, hr, Option.bind_eq_bind, Option.bind_some, hsnodes, hsedges]
  rfl

/--
Whatever shapes the nodes and edges of a flow chart have, the other form is read off them node by
node and edge by edge.
-/
theorem snapshot_lastWins_eq_some_iff {fields : List (String × Json)} {p : Payload}
    (hp : Payload.ofJson? (.object fields) = some p) (s : Snapshot) :
    Snapshot.ofJson? (Json.object fields).lastWins = some s ↔
      (itemsAt "nodes" fields).map (fun node => RawNode.ofJson? node.lastWins) =
          s.nodes.map some ∧
        (itemsAt "edges" fields).map (fun edge => Edge.ofJson? edge.lastWins) =
          s.edges.map some := by
  obtain ⟨r, hr, hp⟩ := Option.bind_eq_some_iff.1 hp
  obtain ⟨nodes, hpnodes, hp⟩ := Option.bind_eq_some_iff.1 hp
  obtain ⟨edges, hpedges, -⟩ := Option.bind_eq_some_iff.1 hp
  have hr' := Record.ofJson?_lastWins hr
  have hfound : ∀ key ∈ ["nodes", "edges"], Record.find? fields [key] = some (r.get? key) :=
    fun key hkey => Record.find?_eq_get? hr hkey
  have hslot : ∀ key ∈ ["nodes", "edges"],
      (Json.lastByKey (Json.lastWinsFields fields)).lookup key = r.lastWins.get? key := by
    intro key hkey
    rw [Record.lookup_of_find? (Record.find?_lastWins (hfound key hkey)), Record.get?_lastWins]
  have hnodes := withDefault_list? (hslot "nodes" (by simp))
    (Record.stable_withDefault PayloadNode.stable_ofJson?.list? "nodes" [] r nodes hpnodes)
    RawNode.ofJson?
  have hedges := withDefault_list? (hslot "edges" (by simp))
    (Record.stable_withDefault PayloadEdge.stable_ofJson?.list? "edges" [] r edges hpedges)
    Edge.ofJson?
  rw [itemsAt_lastWins (hfound "nodes" (by simp))] at hnodes
  rw [itemsAt_lastWins (hfound "edges" (by simp))] at hedges
  simp only [Snapshot.ofJson?, Record.ofKeys?, hr', hnodes, hedges, Option.bind_eq_bind,
    Option.bind_some, Option.bind_eq_some_iff, Json.list?_array_eq_some_iff, List.map_map]
  constructor
  · rintro ⟨nodes', hnodes', edges', hedges', hs⟩
    cases hs
    exact ⟨hnodes', hedges'⟩
  · rintro ⟨hnodes', hedges'⟩
    exact ⟨s.nodes, hnodes', s.edges, hedges', rfl⟩

/--
A flow chart whose first node shows its form is read as the snapshot that it shows, if its
text is a plain value. If no node has a key of the other form, this is the only way, unless
there was nothing to lose: a chart that a later node alone gives away is read as a snapshot
of mere names. Nodes and edges may also be arrays, which have no keys. Whatever their shapes,
a chart that does not show its form is read right exactly if each of its nodes and edges is,
in the other form and by itself.
-/
theorem readSnapshot_eq_toSnapshot_iff (text : String) (fields : List (String × Json))
    (p : Payload) (hparse : Json.parse? text = some (.object fields))
    (hp : Payload.ofJson? (.object fields) = some p) :
    ((itemsAt "nodes" fields).head?.any (hasKey payloadKeys) = true →
      (readSnapshot text = .ok p.toSnapshot ↔ (Json.object fields).isPlain = true)) ∧
    ((∀ node ∈ itemsAt "nodes" fields,
        (∃ inner, node = .object inner) ∧ hasKey snapshotKeys node = false) →
      (∀ edge ∈ itemsAt "edges" fields, ∃ inner, edge = .object inner) →
      (readSnapshot text = .ok p.toSnapshot ↔
        (Json.object fields).isPlain = true ∧
          ((itemsAt "nodes" fields).head?.any (hasKey payloadKeys) = true ∨
            p.stripped = p.toSnapshot))) ∧
    (readSnapshot text = .ok p.toSnapshot ↔
      (Json.object fields).isPlain = true ∧
        ((itemsAt "nodes" fields).head?.any (hasKey payloadKeys) = true ∨
          (itemsAt "nodes" fields).map (fun node => RawNode.ofJson? node.lastWins) =
              p.toSnapshot.nodes.map some ∧
            (itemsAt "edges" fields).map (fun edge => Edge.ofJson? edge.lastWins) =
              p.toSnapshot.edges.map some)) := by
  rw [← isPayload_object]
  cases hplain : (Json.object fields).isPlain with
  | false => simp [readSnapshot_of_not_plain hparse hplain]
  | true =>
      cases hshown : isPayload (.object fields) with
      | true => simp [readSnapshot_payload hparse hplain hp hshown]
      | false =>
          refine ⟨nofun, fun hnodes hedges => ?_, ?_⟩
          · have hstripped := snapshot_of_payload hp hnodes hedges
            simp [readSnapshot_snapshot hparse hplain hstripped hshown]
          · obtain ⟨r, hr, -⟩ := Option.bind_eq_some_iff.1 hp
            have hfound : Record.find? fields ["nodes"] = some (r.get? "nodes") :=
              Record.find?_eq_get? hr (by simp)
            rw [readSnapshot_eq_ok_iff hparse hplain hfound hshown,
              snapshot_lastWins_eq_some_iff hp]
            simp

/-- A file without any details. -/
def bareFile : Json :=
  .object [("id", .string "a.py")]

/-- A member with its details in the analyzer's own form. -/
def detailedMember : Json :=
  .object [("id", .string "a.py::f"), ("data", .object [("label", .string "f")]),
    ("parentNode", .string "a.py")]

/-- The member that these details describe. -/
def memberNode : PayloadNode :=
  { id := "a.py::f", data := { label := some "f" }, parentNode := some "a.py" }

/-- The fields of a flow chart with the given nodes. -/
def chartOf (nodes : List Json) : List (String × Json) :=
  [("nodes", .array nodes), ("edges", .array [])]

/-- The member comes first and shows the form of the whole chart. -/
theorem memberFirst_recognised :
    let fields := chartOf [detailedMember, bareFile]
    readSnapshot (Json.object fields).compact =
      .ok (Payload.toSnapshot { nodes := [memberNode, { id := "a.py" }] }) := by
  intro fields
  have hlegible : (Json.object fields).Legible := by
    simp [fields, chartOf, detailedMember, bareFile, Json.Legible, Json.LegibleFields,
      Json.LegibleItems]
  have hiff := (readSnapshot_eq_toSnapshot_iff _ fields
    { nodes := [memberNode, { id := "a.py" }] } (Json.parse?_compact hlegible) rfl).1 rfl
  exact hiff.2 rfl

/-- The file comes first: the label and the parent of the member are lost. -/
theorem fileFirst_not_recognised :
    let fields := chartOf [bareFile, detailedMember]
    let text := (Json.object fields).compact
    let p : Payload := { nodes := [{ id := "a.py" }, memberNode] }
    (Json.parse? text).bind Payload.ofJson? = some p ∧
      (∃ node ∈ itemsAt "nodes" fields, hasKey payloadKeys node = true) ∧
      (∀ node ∈ itemsAt "nodes" fields, hasKey snapshotKeys node = false) ∧
      readSnapshot text = .ok { nodes := [{ id := "a.py" }, { id := "a.py::f" }] } ∧
      readSnapshot text ≠ .ok p.toSnapshot := by
  intro fields text p
  have hlegible : (Json.object fields).Legible := by
    simp [fields, chartOf, detailedMember, bareFile, Json.Legible, Json.LegibleFields,
      Json.LegibleItems]
  have hparse := Json.parse?_compact hlegible
  have hread : readSnapshot text = .ok { nodes := [{ id := "a.py" }, { id := "a.py::f" }] } :=
    readSnapshot_snapshot hparse rfl rfl rfl
  have hnodes : ∀ node ∈ [bareFile, detailedMember], hasKey snapshotKeys node = false := by
    simp only [List.forall_mem_cons]
    exact ⟨rfl, rfl, by simp⟩
  refine ⟨?_, ⟨detailedMember, ?_, rfl⟩, hnodes, hread, ?_⟩
  · rw [hparse]
    rfl
  · exact List.mem_cons_of_mem bareFile (List.mem_singleton_self detailedMember)
  · intro hsame
    have hlost := Except.ok.inj (hread.symm.trans hsame)
    exact absurd hlost (by decide)

end CodeAtlas.Analyzer
