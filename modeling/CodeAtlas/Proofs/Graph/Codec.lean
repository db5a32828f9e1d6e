import CodeAtlas.Graph.Codec
import CodeAtlas.Proofs.Json.Decoding
import CodeAtlas.Proofs.Json.RoundTrip

/-! # Snapshots as JSON

A snapshot decodes to what was encoded, and it is a plain value however many nodes it
has. Its decoder is stable: repeated keys that it does not know make no difference.
-/

namespace CodeAtlas

open Json (stable_record stable_string?)
open Json.Record (stable_required stable_withDefault)

namespace RawNode

theorem ofJson?_toJson (raw : RawNode) : ofJson? raw.toJson = some raw := by
  have hargs := Json.list?_strings raw.args
  have hparent := Json.nullable?_string raw.parent
  show ((Json.list? Json.string? (.ofList .string raw.args)).bind fun args =>
    (Json.nullable? Json.string? (.ofOption .string raw.parent)).bind fun parent =>
      some { raw with args := args, parent := parent }) = _
  rw [hargs, hparent]
  rfl

theorem legibleWithin_toJson (raw : RawNode) : raw.toJson.LegibleWithin 2 := by
  apply Json.legibleWithin_object
  simp only [List.forall_mem_cons]
  exact ⟨Json.legibleWithin_string 1 _, Json.legibleWithin_string 1 _,
    Json.legibleWithin_ofList (Json.legibleWithin_string 0) _, Json.legibleWithin_string 1 _,
    Json.legibleWithin_ofOption (Json.legibleWithin_string 1) _, by simp⟩

theorem stable_ofJson? : Json.Stable ofJson? :=
  stable_record (.bind (stable_required stable_string? "id") fun _ =>
    .bind (stable_withDefault stable_string? "label" "") fun _ =>
    .bind (stable_withDefault stable_string?.list? "args" []) fun _ =>
    .bind (stable_withDefault stable_string? "returns" "") fun _ =>
    .bind (stable_withDefault stable_string?.nullable? "parent" none) fun _ => .pure _) _

end RawNode

namespace Edge

theorem ofJson?_toJson (edge : Edge) : ofJson? edge.toJson = some edge := by
  obtain ⟨id, source, target, label⟩ := edge
  cases id <;> cases label <;> rfl

theorem legibleWithin_toJson (edge : Edge) : edge.toJson.LegibleWithin 1 := by
  obtain ⟨id, source, target, label⟩ := edge
  cases id <;> cases label <;>
    simp [toJson, present, Json.LegibleWithin, Json.Legible, Json.LegibleFields, Json.depth,
      Json.depthFields]

theorem stable_ofJson? : Json.Stable ofJson? :=
  stable_record (.bind (stable_withDefault stable_string?.nullable? "id" none) fun _ =>
    .bind (stable_required stable_string? "source") fun _ =>
    .bind (stable_required stable_string? "target") fun _ =>
    .bind (stable_withDefault stable_string?.nullable? "label" none) fun _ => .pure _) _

end Edge

namespace Snapshot

theorem ofJson?_toJson (s : Snapshot) : ofJson? s.toJson = some s := by
  have hnodes := Json.list?_ofList RawNode.ofJson?_toJson s.nodes
  have hedges := Json.list?_ofList Edge.ofJson?_toJson s.edges
  show ((Json.list? RawNode.ofJson? (.ofList RawNode.toJson s.nodes)).bind fun nodes =>
    (Json.list? Edge.ofJson? (.ofList Edge.toJson s.edges)).bind fun edges =>
      some (Snapshot.mk nodes edges)) = _
  rw [hnodes, hedges]
  rfl

theorem legibleWithin_toJson (s : Snapshot) : s.toJson.LegibleWithin 4 := by
  have hedges : ∀ edge : Edge, edge.toJson.LegibleWithin 2 := fun edge =>
    ⟨edge.legibleWithin_toJson.1, Nat.le_succ_of_le edge.legibleWithin_toJson.2⟩
  apply Json.legibleWithin_object
  simp only [List.forall_mem_cons]
  exact ⟨Json.legibleWithin_ofList RawNode.legibleWithin_toJson _,
    Json.legibleWithin_ofList hedges _, by simp⟩

theorem stable_ofJson? : Json.Stable ofJson? :=
  stable_record (.bind (stable_withDefault RawNode.stable_ofJson?.list? "nodes" []) fun _ =>
    .bind (stable_withDefault Edge.stable_ofJson?.list? "edges" []) fun _ => .pure _) _

end Snapshot

end CodeAtlas
