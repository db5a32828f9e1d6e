import CodeAtlas.Proofs.Controller.ViewConsistency
import CodeAtlas.Proofs.Graph.Model

/-! # Drawn edges and their looks

A view lists the drawn edges and the overlay lists their looks; the two are matched by
position. They belong to the same edges as long as the snapshot has a node. A snapshot
without nodes has an empty diagram, and its edges are not drawn although the overlay holds
a look for each of them.
-/

namespace CodeAtlas

namespace Diagram

variable {α : Type} [Scalar α]

theorem edges_ofModel (metrics : Metrics α) (place : Layout.FileGraph α → List (Point α))
    (m : Model) :
    (ofModel metrics place m).edges =
      if m.isEmpty then [] else m.edges.map fun edge => ⟨edge, .neutral⟩ := by
  unfold ofModel
  split <;> rfl

theorem edges_draw (metrics : Metrics α) (nodes : List Node) (edges : List Edge) :
    (draw metrics nodes edges).edges =
      if nodes.isEmpty then [] else edges.map fun edge => ⟨edge, .neutral⟩ := by
  rw [draw, layered, edges_ofModel, Model.isEmpty_ofNodes]
  rfl

theorem edges_draw_eq_iff (metrics : Metrics α) (nodes : List Node) (edges : List Edge) :
    (draw metrics nodes edges).edges = edges.map (fun edge => ⟨edge, .neutral⟩) ↔
      nodes ≠ [] ∨ edges = [] := by
  rw [edges_draw]
  cases nodes with
  | nil => cases edges <;> simp
  | cons node nodes => simp

end Diagram

namespace Controller

/--
Every edge is drawn, in order and with the quiet look, unless there is no node at all; then
none is drawn. Whatever was done, the looks are those of the edges of the snapshot, in
order, and they belong to the drawn edges of the same positions unless the snapshot has
edges and no nodes.
-/
theorem looks_belong_to_drawn_edges_iff {α : Type} [Scalar α] (scale : Metrics α)
    (nodes : List Node) (edges : List Edge) (metrics : Metrics Float32) (ops : List Operation) :
    let drawn := (Diagram.draw scale nodes edges).edges
    let c := (start metrics).after ops
    (drawn = if nodes.isEmpty then [] else edges.map fun edge => ⟨edge, .neutral⟩) ∧
    (drawn = edges.map (fun edge => ⟨edge, .neutral⟩) ↔ nodes ≠ [] ∨ edges = []) ∧
    c.interaction.overlay.edges = c.view.snapshot.edges ∧
    c.edgeStyles = c.highlight.styles c.view.snapshot.edges ∧
    (c.view.diagram.edges = c.interaction.overlay.edges.map (fun edge => ⟨edge, .neutral⟩) ↔
      c.view.snapshot.nodes ≠ [] ∨ c.view.snapshot.edges = []) := by
  intro drawn c
  have h := inStep_after metrics ops
  refine ⟨Diagram.edges_draw scale nodes edges, Diagram.edges_draw_eq_iff scale nodes edges,
    h.edges_eq, ?_, ?_⟩
  · rw [edgeStyles, h.styles_eq, h.edges_eq]
    rfl
  · have hdiagram : c.view.diagram =
        Diagram.draw metrics (classify c.view.snapshot.nodes) c.view.snapshot.edges :=
      congrArg View.diagram h.view_eq
    have hclassify : classify c.view.snapshot.nodes ≠ [] ↔ c.view.snapshot.nodes ≠ [] := by
      simp [classify]
    rw [hdiagram, h.edges_eq, Diagram.edges_draw_eq_iff, hclassify]

/-- A snapshot with an edge and no node to draw it at. -/
def strandedEdge : Snapshot where
  edges := [{ source := "a", target := "b" }]

/-- The edge has a look, and it is not drawn. -/
theorem strandedEdge_not_drawn :
    let c := (start Metrics.standard).after [.applySnapshot strandedEdge]
    (Diagram.draw (Metrics.standard : Metrics Float32) [] strandedEdge.edges).edges ≠
      strandedEdge.edges.map (fun edge => ⟨edge, .neutral⟩) ∧
    c.edgeStyles = [.neutral] ∧ c.view.diagram.edges = [] := by
  intro c
  refine ⟨?_, rfl, rfl⟩
  rw [ne_eq, Diagram.edges_draw_eq_iff]
  simp [strandedEdge]

end Controller

end CodeAtlas
