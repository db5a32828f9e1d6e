import CodeAtlas.Proofs.Layout.Placement

/-! # Ranks from left to right and from top to bottom

To turn a placement means to let ranks follow each other along the other axis, with every box lying
on its side. Each step of the placement then does the same with the two axes exchanged, down to the
order of its additions. Nothing is assumed of the numbers, so this holds with rounding too.
-/

namespace CodeAtlas

namespace Direction

variable {α : Type} (d : Direction)

/-- The other direction. -/
def turned : Direction → Direction
  | .horizontal => .vertical
  | .vertical => .horizontal

@[simp] theorem along_turned (size : Point α) : d.turned.along size.swap = d.along size := by
  cases d <;> rfl

@[simp] theorem across_turned (size : Point α) : d.turned.across size.swap = d.across size := by
  cases d <;> rfl

theorem point_turned (along across : α) :
    d.turned.point along across = (d.point along across).swap := by
  cases d <;> rfl

end Direction

namespace Layout

variable {α : Type}

/-! ## The graph -/

namespace FileGraph

variable (g : FileGraph α)

/-- The same graph with every box on its side. -/
def turned : FileGraph α where
  boxes := g.boxes.map fun box => ⟨box.key, box.size.swap⟩
  arcs := g.arcs

theorem sizeOf_turned [Scalar α] (v : ℕ) : g.turned.sizeOf v = (g.sizeOf v).swap := by
  unfold sizeOf turned
  rw [List.getElem?_map]
  cases g.boxes[v]? <;> rfl

theorem map_size_turned : g.turned.boxes.map (·.size) = (g.boxes.map (·.size)).map Point.swap := by
  simp [turned]

theorem count_turned : g.turned.count = g.count := by
  simp [count, turned]

/-- Which boxes make up a layer, and in which order, does not depend on their sizes. -/
theorem layers_turned [Scalar α] : g.turned.layers = g.layers := by
  have hkeys : g.turned.boxes.map (·.key) = g.boxes.map (·.key) := by simp [turned]
  have harcs : g.turned.properArcs = g.properArcs := by
    unfold properArcs
    rw [count_turned]
    rfl
  simp only [layers, ranks, acyclicArcs, hkeys, harcs, count_turned]

end FileGraph

/-! ## The placement -/

namespace Spacing

theorem lookup_map_swap (entries : List (ℕ × Point α)) (v : ℕ) :
    (entries.map fun entry => (entry.1, entry.2.swap)).lookup v =
      (entries.lookup v).map Point.swap := by
  induction entries with
  | nil => rfl
  | cons entry rest ih =>
      rw [List.map_cons, List.lookup_cons, List.lookup_cons, ih]
      cases v == entry.1 <;> rfl

/-- The same distances in the other direction. -/
def turned (s : Spacing α) : Spacing α :=
  { s with direction := s.direction.turned }

variable [Scalar α] (s : Spacing α)

theorem depth_turned (sizes : List (Point α)) :
    s.turned.depth (sizes.map Point.swap) = s.depth sizes := by
  simp [depth, turned, Function.comp_def]

theorem breadth_turned (sizes : List (Point α)) :
    s.turned.breadth (sizes.map Point.swap) = s.breadth sizes := by
  simp [breadth, turned, Function.comp_def]

theorem placeLayer_turned (size : ℕ → Point α) (middle start : α) (layer : List ℕ) :
    s.turned.placeLayer (fun v => (size v).swap) middle start layer =
      (s.placeLayer size middle start layer).map fun entry => (entry.1, entry.2.swap) := by
  induction layer generalizing start with
  | nil => rfl
  | cons v rest ih =>
      have hextent : s.turned.direction.across (size v).swap = s.direction.across (size v) :=
        s.direction.across_turned (size v)
      rw [placeLayer, placeLayer, List.map_cons, hextent, ← ih]
      exact congrArg₂ List.cons (Prod.ext rfl (s.direction.point_turned _ _)) rfl

theorem placeLayers_turned (size : ℕ → Point α) (offset : α) (layers : List (List ℕ)) :
    s.turned.placeLayers (fun v => (size v).swap) offset layers =
      (s.placeLayers size offset layers).map fun entry => (entry.1, entry.2.swap) := by
  induction layers generalizing offset with
  | nil => rfl
  | cons layer rest ih =>
      have hsizes : layer.map (fun v => (size v).swap) = (layer.map size).map Point.swap := by
        rw [List.map_map]
        rfl
      rw [placeLayers, placeLayers, List.map_append, hsizes]
      simp only [depth_turned, breadth_turned, placeLayer_turned]
      exact congrArg _ (ih _)

theorem moveToOrigin_swap (sizes centers : List (Point α)) :
    moveToOrigin (sizes.map Point.swap) (centers.map Point.swap) =
      (moveToOrigin sizes centers).map Point.swap := by
  unfold moveToOrigin
  simp only [List.zip_map, List.map_map]
  rfl

theorem place_turned (g : FileGraph α) : s.turned.place g.turned = (s.place g).map Point.swap := by
  have hplaced : s.turned.placeLayers g.turned.sizeOf 0 g.turned.layers =
      (s.placeLayers g.sizeOf 0 g.layers).map fun entry => (entry.1, entry.2.swap) := by
    rw [funext g.sizeOf_turned, g.layers_turned, placeLayers_turned]
  -- A box that no layer holds stays at the origin, which is its own mirror image.
  have hcenter (found : Option (Point α)) :
      (found.map Point.swap).getD Point.origin = (found.getD Point.origin).swap := by
    cases found <;> rfl
  unfold place
  simp only [hplaced, g.count_turned, g.map_size_turned, lookup_map_swap, hcenter]
  simp only [← moveToOrigin_swap, List.map_map, Function.comp_def]

/-- Ranks from top to bottom, with every box on its side, are ranks from left to right mirrored
along the diagonal: every box has its center, with the two coordinates exchanged. -/
theorem place_vertical_eq_swap_horizontal (nodeSeparation rankSeparation : α) (g : FileGraph α) :
    let rightward : Spacing α := { nodeSeparation, rankSeparation, direction := .horizontal }
    let downward : Spacing α := { nodeSeparation, rankSeparation, direction := .vertical }
    (rightward.place g).length = g.count ∧
      downward.place g.turned = (rightward.place g).map Point.swap := by
  intro rightward downward
  exact ⟨rightward.length_place g, rightward.place_turned g⟩

end Spacing

end Layout

end CodeAtlas
