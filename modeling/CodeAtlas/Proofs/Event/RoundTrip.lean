import CodeAtlas.Event.Codec
import CodeAtlas.Proofs.Json.Decoding
import CodeAtlas.Proofs.Json.RoundTrip

/-! # Events survive their texts

An event is written as a document and read back as the same event, whatever characters
its strings hold. Its counts have to fit 64 bits.
-/

namespace CodeAtlas.Event

/-- The counts that an event mentions. -/
def counts : Event → List Nat
  | .snapshotApplied generation nodeCount edgeCount => [generation, nodeCount, edgeCount]
  | .snapshotUnchanged generation => [generation]
  | .staleSnapshotDiscarded ticket => [ticket]
  | .contentLoaded _ bytes => [bytes]
  | _ => []

theorem ofJson?_toJson {event : Event} (h : ∀ n ∈ event.counts, n < Nat.pow 2 64) :
    ofJson? event.toJson = some event := by
  cases event with
  | activateNode id origin => cases origin <;> rfl
  | openFile path focus => cases focus <;> rfl
  | snapshotApplied generation nodeCount edgeCount =>
      have hgeneration := Json.nat?_ofNat (h generation (by simp [counts]))
      have hnodes := Json.nat?_ofNat (h nodeCount (by simp [counts]))
      have hedges := Json.nat?_ofNat (h edgeCount (by simp [counts]))
      show ((Json.nat? (.ofNat generation)).bind fun g => (Json.nat? (.ofNat nodeCount)).bind fun n =>
        (Json.nat? (.ofNat edgeCount)).bind fun e => some (snapshotApplied g n e)) = _
      rw [hgeneration, hnodes, hedges]
      rfl
  | snapshotUnchanged generation =>
      have hgeneration := Json.nat?_ofNat (h generation (by simp [counts]))
      show ((Json.nat? (.ofNat generation)).bind fun g => some (snapshotUnchanged g)) = _
      rw [hgeneration]
      rfl
  | staleSnapshotDiscarded ticket =>
      have hticket := Json.nat?_ofNat (h ticket (by simp [counts]))
      show ((Json.nat? (.ofNat ticket)).bind fun t => some (staleSnapshotDiscarded t)) = _
      rw [hticket]
      rfl
  | contentLoaded path bytes =>
      have hbytes := Json.nat?_ofNat (h bytes (by simp [counts]))
      show ((Json.nat? (.ofNat bytes)).bind fun b => some (contentLoaded path b)) = _
      rw [hbytes]
      rfl
  | _ => rfl

theorem legible_toJson {event : Event} (h : ∀ n ∈ event.counts, n < Nat.pow 2 64) :
    event.toJson.Legible := by
  have hcount : ∀ n ∈ event.counts, (Json.ofNat n).Legible := fun n hn =>
    Json.legible_ofNat (h n hn)
  cases event with
  | openFile path focus =>
      have hfocus := Json.legible_ofOption Json.legible_string focus
      exact ⟨⟨trivial, hfocus, trivial⟩, trivial⟩
  | snapshotApplied generation nodeCount edgeCount =>
      simp only [counts, List.forall_mem_cons] at hcount
      exact ⟨⟨hcount.1, hcount.2.1, hcount.2.2.1, trivial⟩, trivial⟩
  | snapshotUnchanged generation => exact ⟨⟨hcount generation (by simp [counts]), trivial⟩, trivial⟩
  | staleSnapshotDiscarded ticket => exact ⟨⟨hcount ticket (by simp [counts]), trivial⟩, trivial⟩
  | contentLoaded path bytes =>
      exact ⟨⟨trivial, hcount bytes (by simp [counts]), trivial⟩, trivial⟩
  | _ => simp [toJson, tagged, Health.toJson, Json.Legible, Json.LegibleFields]

/--
An event is read back from its text, on one line or on several. Its strings may hold any
characters; its counts are those that 64 bits can hold.
-/
theorem ofJson?_parse?_text (event : Event) (h : ∀ n ∈ event.counts, n < Nat.pow 2 64) :
    (Json.parse? event.toJson.compact).bind ofJson? = some event ∧
      (Json.parse? event.toJson.pretty).bind ofJson? = some event := by
  have hlegible := legible_toJson h
  have hdecode := ofJson?_toJson h
  constructor
  · rw [Json.parse?_compact hlegible, Option.bind_some, hdecode]
  · rw [Json.parse?_pretty hlegible, Option.bind_some, hdecode]

/-- A path with a quote, a backslash, control characters and a smiley, and the largest count. -/
def awkwardEvent : Event :=
  .contentLoaded "a\"b\\c\n\x01\u001fé😀" (Nat.pow 2 64 - 1)

theorem awkwardEvent_reads_back :
    (∀ n ∈ awkwardEvent.counts, n < Nat.pow 2 64) ∧
      (Json.parse? awkwardEvent.toJson.compact).bind ofJson? = some awkwardEvent ∧
      (Json.parse? awkwardEvent.toJson.pretty).bind ofJson? = some awkwardEvent := by
  have hcounts : ∀ n ∈ awkwardEvent.counts, n < Nat.pow 2 64 := by
    simp [awkwardEvent, counts]
  exact ⟨hcounts, ofJson?_parse?_text awkwardEvent hcounts⟩

end CodeAtlas.Event
