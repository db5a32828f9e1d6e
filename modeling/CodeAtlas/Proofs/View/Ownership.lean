import CodeAtlas.Controller
import CodeAtlas.Proofs.View.Files

/-! # A click opens the file around a node

The diagram finds the file of a member by grouping the kept nodes, and a click finds it
by searching all reported nodes. Both lead to the same file, whatever was reported.
-/

namespace CodeAtlas

/-- What is drawn inside a file is a member that names this file as its parent. -/
theorem Diagram.InPlace.parent_eq {α : Type} [Scalar α] {metrics : Metrics α} {kept : List Node}
    {i : ℕ} {p : PlacedNode α} (h : InPlace metrics kept i p) {file : NodeId}
    (hspace : p.space = .inside file) : p.node.kind ≠ .file ∧ p.node.parent = some file := by
  have hkind : p.node.kind ≠ .file := by
    intro hfile
    rw [h.file hfile] at hspace
    cases hspace
  refine ⟨hkind, ?_⟩
  by_cases howner : ∃ owner ∈ kept, owner.kind = .file ∧ p.node.parent = some owner.id
  · obtain ⟨owner, hmem, hfile, hparent⟩ := howner
    have hinside := (h.member owner hmem hfile hkind hparent).1
    rw [hspace] at hinside
    cases hinside
    exact hparent
  · have hnone : ∀ owner ∈ kept, owner.kind = .file → p.node.parent ≠ some owner.id :=
      fun owner hmem hfile hparent => howner ⟨owner, hmem, hfile, hparent⟩
    rw [(h.orphan hkind hnone).1] at hspace
    cases hspace

namespace View

section Build

variable {generation : ℕ} {snapshot : Snapshot} {metrics : Metrics Float32}
  {p : PlacedNode Float32}

/-- Searching all nodes for the identifier of a drawn node finds the node that is drawn. -/
theorem node?_of_drawn (hp : p ∈ (build generation snapshot metrics).diagram.nodes) :
    (build generation snapshot metrics).node? p.node.id = some p.node := by
  have hkept : p.node ∈ firstByKey (·.id) (classify snapshot.nodes) := by
    rw [← map_node_build generation snapshot metrics]
    exact List.mem_map_of_mem hp
  exact mem_firstByKey_iff.mp hkept

theorem parent_of_drawn_inside (hp : p ∈ (build generation snapshot metrics).diagram.nodes)
    {file : NodeId} (hspace : p.space = .inside file) :
    p.node.kind ≠ .file ∧ p.node.parent = some file := by
  obtain ⟨i, hi⟩ := List.mem_iff_getElem?.mp hp
  have hids := Model.distinctIds_ofNodes (classify snapshot.nodes) snapshot.edges
  rw [build, Diagram.draw, Diagram.layered, Diagram.getElem?_nodes] at hi
  obtain ⟨node, hnode, rfl⟩ := Option.map_eq_some_iff.mp hi
  exact (Diagram.placedAt_inPlace hids hnode).parent_eq hspace

theorem owningFile_of_file (hp : p ∈ (build generation snapshot metrics).diagram.nodes)
    (hfile : p.node.kind = .file) :
    (build generation snapshot metrics).owningFile p.node.id = p.node.id := by
  simp [owningFile, node?_of_drawn hp, hfile]

theorem owningFile_of_inside (hp : p ∈ (build generation snapshot metrics).diagram.nodes)
    {file : NodeId} (hspace : p.space = .inside file) :
    (build generation snapshot metrics).owningFile p.node.id = file := by
  obtain ⟨hkind, hparent⟩ := parent_of_drawn_inside hp hspace
  simp [owningFile, node?_of_drawn hp, hkind, hparent]

end Build

end View

theorem NodeId.dependencyName?_eq_none {id : NodeId} (h : isDependency id = false) :
    dependencyName? id = none := by
  simp [dependencyName?, h]

/-- A click on a node that is no dependency announces it, and selects and asks for its file. -/
theorem Controller.activate_graphNode (c : Controller) {id : NodeId}
    (h : NodeId.isDependency id = false) :
    c.activate (.graphNode id) =
      { c with
        interaction := { c.interaction with selection := some (c.view.owningFile id) }
        queue := c.queue.publishAll
          [.activateNode id .graph, .openFile (c.view.owningFile id) (some id)] } := by
  simp only [Controller.activate, Interaction.activate, Interaction.announce, Interaction.openFile,
    NodeId.dependencyName?_eq_none h]

namespace View

/--
A drawn file is its own owner, and the owner of what is drawn inside a file is that file.
So a click on either publishes the activation and then the request for exactly this file,
with the node in focus, selects the file, and changes nothing else.
-/
theorem activate_opens_enclosing_file (generation : ℕ) (snapshot : Snapshot)
    (metrics : Metrics Float32) :
    let v := build generation snapshot metrics
    ∀ p ∈ v.diagram.nodes,
      (∀ file, p.space = .inside file → v.owningFile p.node.id = file) ∧
      (p.node.kind = .file → v.owningFile p.node.id = p.node.id) ∧
      (NodeId.isDependency p.node.id = false →
        ∀ file, p.space = .inside file ∨ p.node.kind = .file ∧ file = p.node.id →
        ∀ c : Controller, c.view = v →
          c.activate (.graphNode p.node.id) =
            { c with
              interaction := { c.interaction with selection := some file }
              queue := c.queue.publishAll
                [.activateNode p.node.id .graph, .openFile file (some p.node.id)] }) := by
  intro v p hp
  refine ⟨fun file hspace => owningFile_of_inside hp hspace, owningFile_of_file hp, ?_⟩
  intro hdependency file henclosed c hview
  have howner : c.view.owningFile p.node.id = file := by
    rw [hview]
    rcases henclosed with hspace | ⟨hfile, rfl⟩
    · exact owningFile_of_inside hp hspace
    · exact owningFile_of_file hp hfile
  rw [c.activate_graphNode hdependency, howner]

/-- The crowded nodes on the screen, and no event published yet but that of their arrival. -/
def crowdedScreen : Controller :=
  ((Controller.start Metrics.standard).applySnapshot { nodes := Diagram.crowdedNodes }).2

/-- A click on a member that is listed twice, the first time before its file. -/
theorem crowdedScreen_activate_member :
    let c := crowdedScreen.activate (.graphNode "a.py::f")
    crowdedScreen.view.owningFile "a.py::f" = "a.py" ∧ c.selection = some "a.py" ∧
    c.queue.events = [.snapshotApplied 1 8 0, .activateNode "a.py::f" .graph,
      .openFile "a.py" (some "a.py::f")] := by
  intro c
  let v := build 1 { nodes := Diagram.crowdedNodes } Metrics.standard
  obtain ⟨p, hp, hid, hspace⟩ :
      ∃ p ∈ v.diagram.nodes, p.node.id = "a.py::f" ∧ p.space = .inside "a.py" :=
    ⟨_, List.mem_of_getElem? (i := 0) rfl, rfl, rfl⟩
  obtain ⟨hinside, -, hclick⟩ :=
    activate_opens_enclosing_file 1 { nodes := Diagram.crowdedNodes } Metrics.standard p hp
  have hactivate := hclick (by rw [hid]; decide) "a.py" (Or.inl hspace) crowdedScreen rfl
  rw [hid] at hactivate
  refine ⟨?_, ?_, ?_⟩
  · rw [← hid]
    exact hinside "a.py" hspace
  · rw [show c = _ from hactivate]
    rfl
  · rw [show c = _ from hactivate]
    rfl

end View

end CodeAtlas
