import CodeAtlas.Analyzer.Payload
import CodeAtlas.Proofs.Json.Decoding
import CodeAtlas.Proofs.Json.RoundTrip

/-! # Flow charts as JSON

What holds of snapshots holds of the analyzer's own documents: they decode to what was
encoded, they are plain values, and their decoder is stable.
-/

namespace CodeAtlas.Analyzer

open Json (stable_record stable_string? stable_bool?)
open Json.Record (stable_required stable_withDefault)

namespace NodeData

theorem ofJson?_toJson (d : NodeData) : ofJson? d.toJson = some d := by
  have hlabel := Json.nullable?_string d.label
  have hargs : Json.nullable? (Json.list? Json.string?) (.ofOption (.ofList .string) d.args) =
      some d.args :=
    Json.nullable?_ofOption Json.list?_strings (by simp [Json.ofList]) d.args
  have hreturns := Json.nullable?_string d.returns
  show ((Json.nullable? Json.string? (.ofOption .string d.label)).bind fun label =>
    (Json.nullable? (Json.list? Json.string?) (.ofOption (.ofList .string) d.args)).bind fun args =>
    (Json.nullable? Json.string? (.ofOption .string d.returns)).bind fun returns =>
      some (NodeData.mk label args returns)) = _
  rw [hlabel, hargs, hreturns]
  rfl

theorem legibleWithin_toJson (d : NodeData) : d.toJson.LegibleWithin 2 := by
  apply Json.legibleWithin_object
  simp only [List.forall_mem_cons]
  exact ⟨Json.legibleWithin_ofOption (Json.legibleWithin_string 1) _,
    Json.legibleWithin_ofOption (Json.legibleWithin_ofList (Json.legibleWithin_string 0)) _,
    Json.legibleWithin_ofOption (Json.legibleWithin_string 1) _, by simp⟩

theorem stable_ofJson? : Json.Stable ofJson? :=
  stable_record (.bind (stable_withDefault stable_string?.nullable? "label" none) fun _ =>
    .bind (stable_withDefault stable_string?.list?.nullable? "args" none) fun _ =>
    .bind (stable_withDefault stable_string?.nullable? "returns" none) fun _ => .pure _) _

end NodeData

namespace PayloadNode

theorem ofJson?_toJson (n : PayloadNode) : ofJson? n.toJson = some n := by
  have htype := Json.nullable?_string n.type
  have hdata := n.data.ofJson?_toJson
  have hparent := Json.nullable?_string n.parentNode
  have hextent := Json.nullable?_string n.extent
  show ((Json.nullable? Json.string? (.ofOption .string n.type)).bind fun type =>
    (NodeData.ofJson? n.data.toJson).bind fun data =>
    (Json.nullable? Json.string? (.ofOption .string n.parentNode)).bind fun parentNode =>
    (Json.nullable? Json.string? (.ofOption .string n.extent)).bind fun extent =>
      some (PayloadNode.mk n.id type data parentNode extent)) = _
  rw [htype, hdata, hparent, hextent]
  rfl

theorem legibleWithin_toJson (n : PayloadNode) : n.toJson.LegibleWithin 3 := by
  have hstring := Json.legibleWithin_string 2
  apply Json.legibleWithin_object
  simp only [List.forall_mem_cons]
  exact ⟨hstring _, Json.legibleWithin_ofOption hstring _, n.data.legibleWithin_toJson,
    Json.legibleWithin_ofOption hstring _, Json.legibleWithin_ofOption hstring _, by simp⟩

theorem stable_ofJson? : Json.Stable ofJson? :=
  stable_record (.bind (stable_required stable_string? "id") fun _ =>
    .bind (stable_withDefault stable_string?.nullable? "type" none) fun _ =>
    .bind (stable_withDefault NodeData.stable_ofJson? "data" {}) fun _ =>
    .bind (stable_withDefault stable_string?.nullable? "parentNode" none) fun _ =>
    .bind (stable_withDefault stable_string?.nullable? "extent" none) fun _ => .pure _) _

end PayloadNode

namespace PayloadEdge

theorem ofJson?_toJson (e : PayloadEdge) : ofJson? e.toJson = some e := by
  have hid := Json.nullable?_string e.id
  have hanimated : Json.nullable? Json.bool? (.ofOption .bool e.animated) = some e.animated :=
    Json.nullable?_ofOption Json.bool?_bool (by simp) e.animated
  have htype := Json.nullable?_string e.type
  have hlabel := Json.nullable?_string e.label
  show ((Json.nullable? Json.string? (.ofOption .string e.id)).bind fun id =>
    (Json.nullable? Json.bool? (.ofOption .bool e.animated)).bind fun animated =>
    (Json.nullable? Json.string? (.ofOption .string e.type)).bind fun type =>
    (Json.nullable? Json.string? (.ofOption .string e.label)).bind fun label =>
      some (PayloadEdge.mk id e.source e.target animated type label)) = _
  rw [hid, hanimated, htype, hlabel]
  rfl

theorem legibleWithin_toJson (e : PayloadEdge) : e.toJson.LegibleWithin 3 := by
  have hstring := Json.legibleWithin_string 2
  apply Json.legibleWithin_object
  simp only [List.forall_mem_cons]
  exact ⟨Json.legibleWithin_ofOption hstring _, hstring _, hstring _,
    Json.legibleWithin_ofOption (Json.legibleWithin_bool 2) _,
    Json.legibleWithin_ofOption hstring _, Json.legibleWithin_ofOption hstring _, by simp⟩

theorem stable_ofJson? : Json.Stable ofJson? :=
  stable_record (.bind (stable_withDefault stable_string?.nullable? "id" none) fun _ =>
    .bind (stable_required stable_string? "source") fun _ =>
    .bind (stable_required stable_string? "target") fun _ =>
    .bind (stable_withDefault stable_bool?.nullable? "animated" none) fun _ =>
    .bind (stable_withDefault stable_string?.nullable? "type" none) fun _ =>
    .bind (stable_withDefault stable_string?.nullable? "label" none) fun _ => .pure _) _

end PayloadEdge

namespace Payload

theorem ofJson?_toJson (p : Payload) : ofJson? p.toJson = some p := by
  have hnodes := Json.list?_ofList PayloadNode.ofJson?_toJson p.nodes
  have hedges := Json.list?_ofList PayloadEdge.ofJson?_toJson p.edges
  show ((Json.list? PayloadNode.ofJson? (.ofList PayloadNode.toJson p.nodes)).bind fun nodes =>
    (Json.list? PayloadEdge.ofJson? (.ofList PayloadEdge.toJson p.edges)).bind fun edges =>
      some (Payload.mk nodes edges)) = _
  rw [hnodes, hedges]
  rfl

theorem legibleWithin_toJson (p : Payload) : p.toJson.LegibleWithin 5 := by
  apply Json.legibleWithin_object
  simp only [List.forall_mem_cons]
  exact ⟨Json.legibleWithin_ofList PayloadNode.legibleWithin_toJson _,
    Json.legibleWithin_ofList PayloadEdge.legibleWithin_toJson _, by simp⟩

theorem stable_ofJson? : Json.Stable ofJson? :=
  stable_record (.bind (stable_withDefault PayloadNode.stable_ofJson?.list? "nodes" []) fun _ =>
    .bind (stable_withDefault PayloadEdge.stable_ofJson?.list? "edges" []) fun _ => .pure _) _

end Payload

end CodeAtlas.Analyzer
