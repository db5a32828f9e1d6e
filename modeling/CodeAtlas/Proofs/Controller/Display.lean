import CodeAtlas.Proofs.Controller.Run

/-! # What a refresh changes on the screen

Only a refresh that is applied changes what the user sees, and it changes what belongs to
the snapshot alone: open folders, the selection, the code panel and the status of the
analyzer are kept. Every refresh that is asked for publishes exactly one event.
-/

namespace CodeAtlas

theorem Highlight.styles_neutral (edges : List Edge) :
    Highlight.styles .neutral edges = edges.map fun _ => .neutral := by
  simp [Highlight.styles, Highlight.focus?]

theorem Controller.completeRefresh_ne_skipped (c : Controller) (ticket : ℕ)
    (answer : Except AnalyzerError Snapshot) : (c.completeRefresh ticket answer).1 ≠ .skipped := by
  rcases completeRefresh_cases c ticket answer with
    ⟨-, heq⟩ | ⟨-, error, -, heq⟩ | ⟨-, -, heq⟩ | ⟨-, snapshot, -, -, heq⟩ <;>
  · rw [heq]
    simp [applyView]

/-- Only an analyzer that is offline is not asked, and then nothing happens at all. -/
theorem Session.refresh_of_skipped {ω : Type} {analyzer : Analyzer ω} {s : Session ω}
    (h : (refresh analyzer s).1 = .skipped) : (refresh analyzer s).2 = s := by
  cases honline : s.controller.status.backendOnline with
  | false => rw [refresh_offline analyzer s honline]
  | true =>
      rw [refresh_online analyzer s honline] at h
      exact absurd h (Controller.completeRefresh_ne_skipped _ _ _)

namespace Controller

/-- Everything that the user sees. -/
structure Display where
  view : View
  highlight : Highlight
  edgeStyles : List EdgeStyle
  expanded : List String
  selection : Option String
  treeRows : List Explorer.Row
  /-- The panel with the request that it waits for. -/
  panel : Panel
  status : Health

/-- What the controller shows. -/
def display (c : Controller) : Display :=
  ⟨c.view, c.highlight, c.edgeStyles, c.interaction.expanded, c.selection, c.treeRows, c.panel,
    c.status⟩

/-- The display with another view: nothing is in focus, and rows follow the open folders. -/
def Display.showing (shown : Display) (view : View) : Display :=
  { shown with
    view := view
    highlight := .neutral
    edgeStyles := view.snapshot.edges.map fun _ => .neutral
    treeRows := Explorer.visibleRows view.tree shown.expanded }

theorem display_applyView (c : Controller) (ticket : ℕ) (snapshot : Snapshot) :
    (c.applyView ticket snapshot).2.display =
      c.display.showing (View.build (c.view.generation + 1) snapshot c.metrics) := by
  have hstyles := Highlight.styles_neutral snapshot.edges
  simp only [display, Display.showing, applyView, publish, highlight, edgeStyles, selection,
    treeRows, Interaction.reset, Overlay.ofEdges, hstyles]
  rfl

/--
A stale refresh, a failed one and one that brings nothing new leave all that is shown as
it was, and publish the one event that says so; a stale one leaves the tickets alone as
well. An applied refresh shows the view of its snapshot with nothing in focus, keeps the
rest, and publishes that view's generation and counts. A refresh that is skipped leaves
the whole session as it was.
-/
theorem refresh_display_of_outcome (c : Controller) (ticket : ℕ)
    (answer : Except AnalyzerError Snapshot) :
    let d := (c.completeRefresh ticket answer).2
    (match (c.completeRefresh ticket answer).1 with
      | .stale =>
        d.display = c.display ∧ d.issued = c.issued ∧ d.completed = c.completed ∧
          d.queue.events = c.queue.events ++ [.staleSnapshotDiscarded ticket]
      | .unchanged =>
        answer = .ok c.view.snapshot ∧ d.display = c.display ∧
          d.queue.events = c.queue.events ++ [.snapshotUnchanged c.view.generation]
      | .failed error =>
        answer = .error error ∧ d.display = c.display ∧
          d.queue.events = c.queue.events ++ [.snapshotUnavailable error.message]
      | .applied generation =>
        ∃ snapshot, answer = .ok snapshot ∧ generation = c.view.generation + 1 ∧
          d.display = c.display.showing (View.build generation snapshot c.metrics) ∧
          d.queue.events = c.queue.events ++
            [.snapshotApplied generation snapshot.nodes.length snapshot.edges.length]
      | .skipped => False) ∧
    ∀ {ω : Type} (analyzer : Analyzer ω) (s : Session ω),
      (Session.refresh analyzer s).1 = .skipped → (Session.refresh analyzer s).2 = s := by
  intro d
  refine ⟨?_, fun analyzer s hskipped => Session.refresh_of_skipped hskipped⟩
  rcases completeRefresh_cases c ticket answer with
    ⟨-, heq⟩ | ⟨-, error, hanswer, heq⟩ | ⟨-, hanswer, heq⟩ | ⟨-, snapshot, hanswer, -, heq⟩
  · simp only [d, heq]
    exact ⟨rfl, rfl, rfl, rfl⟩
  · simp only [d, heq]
    exact ⟨hanswer, rfl, rfl⟩
  · simp only [d, heq]
    exact ⟨hanswer, rfl, rfl⟩
  · have hdisplay := display_applyView c ticket snapshot
    simp only [d, heq]
    exact ⟨snapshot, hanswer, rfl, hdisplay, rfl⟩

/-- A snapshot with an edge on the screen, its first node in focus, and a second refresh begun. -/
def focusedScreen : Controller :=
  (start Metrics.standard).after
    [.applySnapshot { nodes := [{ id := "a" }], edges := [{ source := "a", target := "b" }] },
      .hover (.enter "a"), .activate (.folder "src"), .beginRefresh]

/--
The first ticket comes too late and the edge stays bright; the second one brings another
snapshot, and only the open folder is kept. Nothing is fetched while the analyzer is offline.
-/
theorem focusedScreen_refresh :
    let stale := focusedScreen.completeRefresh 1 (.ok {})
    let applied := focusedScreen.completeRefresh 2 (.ok { nodes := [{ id := "c" }] })
    let s : Session Unit := ⟨focusedScreen, ()⟩
    (stale.1 = .stale ∧ stale.2.highlight = .focused "a" ∧
      stale.2.edgeStyles = [.highlighted]) ∧
    (applied.1 = .applied 2 ∧ applied.2.highlight = .neutral ∧ applied.2.edgeStyles = [] ∧
      applied.2.interaction.expanded = ["src"]) ∧
    (Session.refresh Analyzer.unreachable s).2 = s := by
  intro stale applied s
  have hstale := (refresh_display_of_outcome focusedScreen 1 (.ok {})).1.1
  obtain ⟨hshown, hskipped⟩ :=
    refresh_display_of_outcome focusedScreen 2 (.ok { nodes := [{ id := "c" }] })
  obtain ⟨snapshot, hanswer, -, happlied, -⟩ := hshown
  cases hanswer
  refine ⟨⟨rfl, ?_, ?_⟩, ⟨rfl, ?_, ?_, ?_⟩, hskipped Analyzer.unreachable s rfl⟩
  · exact congrArg Display.highlight hstale
  · exact congrArg Display.edgeStyles hstale
  · exact congrArg Display.highlight happlied
  · exact congrArg Display.edgeStyles happlied
  · exact congrArg Display.expanded happlied

end Controller

end CodeAtlas
