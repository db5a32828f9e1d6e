import CodeAtlas.Proofs.Controller.Run

/-! # View and overlay stay in step

The view and the edges of the overlay are stored apart, and both are derived from
one snapshot. Only a refresh that is applied replaces them, and it replaces both.
-/

namespace CodeAtlas

/-- The first view was never built, and is what building it would give. -/
theorem View.initial_eq_build (metrics : Metrics Float32) :
    View.initial = View.build 0 {} metrics := by
  simp [View.initial, View.build, classify, Snapshot.tree, Snapshot.dependencies,
    Snapshot.mentioned, Snapshot.identifiers, fileIdentifiers, Explorer.Entry.ofIdentifiers,
    Explorer.Entry.sortAll, Explorer.Entry.sortBelowAll, Explorer.dependencyNames, Diagram.draw,
    Diagram.layered, Diagram.ofModel, Model.ofNodes, Model.isEmpty, firstByKey]

@[simp] theorem View.build_generation (generation : Nat) (snapshot : Snapshot)
    (metrics : Metrics Float32) :
    (View.build generation snapshot metrics).generation = generation := rfl

@[simp] theorem View.build_snapshot (generation : Nat) (snapshot : Snapshot)
    (metrics : Metrics Float32) :
    (View.build generation snapshot metrics).snapshot = snapshot := rfl

@[simp] theorem Highlight.styles_length (h : Highlight) (edges : List Edge) :
    (h.styles edges).length = edges.length := by
  simp [Highlight.styles]

namespace Controller

/-- The view and the overlay belong to one snapshot, the one that was applied last. -/
structure InStep (metrics : Metrics Float32) (generation : Nat) (c : Controller) : Prop where
  metrics_eq : c.metrics = metrics
  view_eq : c.view = View.build generation c.view.snapshot metrics
  edges_eq : c.interaction.overlay.edges = c.view.snapshot.edges
  styles_eq : c.interaction.overlay.styles =
    c.interaction.overlay.highlight.styles c.interaction.overlay.edges

theorem InStep.start (metrics : Metrics Float32) : InStep metrics 0 (Controller.start metrics) :=
  ⟨rfl, View.initial_eq_build metrics, rfl, rfl⟩

theorem InStep.of_sameView {metrics : Metrics Float32} {generation : Nat} {c d : Controller}
    (h : InStep metrics generation c) (hsame : SameView c d) : InStep metrics generation d := by
  refine ⟨?_, ?_, ?_, ?_⟩
  · rw [hsame.metrics]
    exact h.metrics_eq
  · rw [hsame.view]
    exact h.view_eq
  · rw [hsame.view, ← h.edges_eq]
    rcases hsame.overlay with hoverlay | ⟨movement, hoverlay⟩
    · rw [hoverlay]
    · rw [hoverlay]
      rfl
  · rcases hsame.overlay with hoverlay | ⟨movement, hoverlay⟩
    · rw [hoverlay]
      exact h.styles_eq
    · rw [hoverlay]
      rfl

theorem InStep.applyView {metrics : Metrics Float32} {generation : Nat} {c : Controller}
    (h : InStep metrics generation c) (ticket : Nat) (snapshot : Snapshot) :
    InStep metrics (generation + 1) (c.applyView ticket snapshot).2 := by
  have hgeneration : c.view.generation = generation := by
    rw [h.view_eq, View.build_generation]
  refine ⟨h.metrics_eq, ?_, rfl, rfl⟩
  simp only [Controller.applyView, publish, View.build_snapshot, hgeneration, h.metrics_eq]

theorem InStep.beginRefresh {metrics : Metrics Float32} {log : List RefreshMark}
    {c : Controller} (h : InStep metrics (appliedCount log) c) :
    InStep metrics (appliedCount (log ++ [.issued c.beginRefresh.1])) c.beginRefresh.2 := by
  rw [appliedCount_concat]
  exact ⟨h.metrics_eq, h.view_eq, h.edges_eq, h.styles_eq⟩

/-- A refresh counts as applied exactly when it moves the view to the next generation. -/
theorem InStep.completeRefresh {metrics : Metrics Float32} {log : List RefreshMark}
    {c : Controller} (h : InStep metrics (appliedCount log) c) (ticket : Nat)
    (answer : Except AnalyzerError Snapshot) :
    InStep metrics
      (appliedCount (log ++ [.completed ticket (c.completeRefresh ticket answer).1]))
      (c.completeRefresh ticket answer).2 := by
  rw [appliedCount_concat]
  rcases completeRefresh_cases c ticket answer with
    ⟨-, heq⟩ | ⟨-, error, -, heq⟩ | ⟨-, -, heq⟩ | ⟨-, snapshot, -, -, heq⟩
  · rw [heq]
    exact ⟨h.metrics_eq, h.view_eq, h.edges_eq, h.styles_eq⟩
  · rw [heq]
    exact ⟨h.metrics_eq, h.view_eq, h.edges_eq, h.styles_eq⟩
  · rw [heq]
    exact ⟨h.metrics_eq, h.view_eq, h.edges_eq, h.styles_eq⟩
  · rw [heq]
    exact h.applyView ticket snapshot

theorem InStep.perform {metrics : Metrics Float32} {log : List RefreshMark} {c : Controller}
    (h : InStep metrics (appliedCount log) c) (op : Operation) :
    InStep metrics (appliedCount (log ++ c.refreshMarks op)) (c.perform op).2 := by
  cases hop : op.isRefresh with
  | false =>
      rw [refreshMarks_eq_nil c hop, List.append_nil]
      exact h.of_sameView (perform_sameView c hop)
  | true =>
      cases op with
      | beginRefresh => exact h.beginRefresh
      | completeRefresh ticket answer => exact h.completeRefresh ticket answer
      | applySnapshot snapshot =>
          have hcompleted := h.beginRefresh.completeRefresh c.beginRefresh.1 (.ok snapshot)
          rw [List.append_assoc] at hcompleted
          exact hcompleted
      | _ => cases hop

theorem inStep_after (metrics : Metrics Float32) (ops : List Operation) :
    InStep metrics (appliedCount ((start metrics).refreshLog ops)) ((start metrics).after ops) := by
  induction ops using List.reverseRecOn with
  | nil => exact InStep.start metrics
  | append_singleton ops op ih =>
      rw [refreshLog_concat, after_append]
      exact ih.perform op

/--
Whatever was done, the view is the one that is built from its snapshot, its generation
counts the snapshots that were applied, and the overlay holds the edges of that
snapshot with one look for each. Calls that wait for an analyzer lead to no other
states, as long as the analyzer itself acts by operations.
-/
theorem view_eq_build_and_overlay_edges (metrics : Metrics Float32) (ops : List Operation) :
    let c := (start metrics).after ops
    let applied := appliedCount ((start metrics).refreshLog ops)
    c.view = View.build applied c.view.snapshot metrics ∧
    c.view.generation = applied ∧
    c.interaction.overlay.edges = c.view.snapshot.edges ∧
    c.edgeStyles.length = c.view.snapshot.edges.length ∧
    (∀ {ω : Type} (analyzer : Analyzer ω), analyzer.ByOperations →
      Session.ByOperations (Session.checkHealth analyzer) ∧
      Session.ByOperations (Session.refresh analyzer) ∧
      (∀ path focus, Session.ByOperations (Session.loadFile analyzer path focus)) ∧
      ∀ event, Session.ByOperations (Session.follow analyzer event)) := by
  intro c applied
  have h : InStep metrics applied c := inStep_after metrics ops
  refine ⟨h.view_eq, ?_, h.edges_eq, ?_, ?_⟩
  · rw [h.view_eq, View.build_generation]
  · rw [edgeStyles, h.styles_eq, Highlight.styles_length, h.edges_eq]
  · intro ω analyzer hanalyzer
    exact ⟨Session.checkHealth_byOperations hanalyzer, Session.refresh_byOperations hanalyzer,
      Session.loadFile_byOperations hanalyzer, Session.follow_byOperations hanalyzer⟩

/-- A snapshot with an edge, the same one again, a failure, and a click in between. -/
def sessionWithFailure : List Operation :=
  [.applySnapshot { nodes := [{ id := "a" }], edges := [{ source := "a", target := "b" }] },
    .hover (.enter "a"), .activate (.file "a"),
    .applySnapshot { nodes := [{ id := "a" }], edges := [{ source := "a", target := "b" }] },
    .beginRefresh, .completeRefresh 3 (.error (.notFound "a"))]

/-- The session still shows the first snapshot, with the looks of its one edge. -/
theorem sessionWithFailure_view :
    let c := (start Metrics.standard).after sessionWithFailure
    c.view = View.build 1 c.view.snapshot Metrics.standard ∧
    c.view.generation = 1 ∧
    c.interaction.overlay.edges = [{ source := "a", target := "b" }] ∧
    c.edgeStyles.length = 1 ∧
    Session.ByOperations (Session.refresh (Analyzer.unreachable : Analyzer Unit)) := by
  intro c
  have h := view_eq_build_and_overlay_edges Metrics.standard sessionWithFailure
  have hunreachable : (Analyzer.unreachable : Analyzer Unit).ByOperations :=
    ⟨Session.ByOperations.pure _, Session.ByOperations.pure _,
      fun _ => Session.ByOperations.pure _⟩
  exact ⟨h.1, h.2.1, h.2.2.1, h.2.2.2.1, (h.2.2.2.2 _ hunreachable).2.1⟩

end Controller

end CodeAtlas
