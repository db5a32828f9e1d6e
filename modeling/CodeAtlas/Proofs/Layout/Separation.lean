import CodeAtlas.Proofs.Layout.Placement

/-! # Distances between placed boxes

Boxes of one rank keep the space between neighbours across the ranks, and boxes of different
ranks keep the space between ranks along them, the lower rank first. The drawing starts at the
origin: no box reaches beyond the axes, and each axis is touched by one.
-/

namespace CodeAtlas

namespace Direction

variable (d : Direction)

theorem along_low_around (center size : Point ℚ) :
    d.along (Rect.around center size).low = d.along center - d.along size / 2 := by
  cases d <;> rfl

theorem across_low_around (center size : Point ℚ) :
    d.across (Rect.around center size).low = d.across center - d.across size / 2 := by
  cases d <;> rfl

theorem along_high_around (center size : Point ℚ) :
    d.along (Rect.around center size).high = d.along center + d.along size / 2 := by
  have hhigh : d.along (Rect.around center size).high =
      d.along center - d.along size / 2 + d.along size := by
    cases d <;> rfl
  rw [hhigh]
  linarith

theorem across_high_around (center size : Point ℚ) :
    d.across (Rect.around center size).high = d.across center + d.across size / 2 := by
  have hhigh : d.across (Rect.around center size).high =
      d.across center - d.across size / 2 + d.across size := by
    cases d <;> rfl
  rw [hhigh]
  linarith

end Direction

namespace Layout

namespace Spacing

variable {s : Spacing ℚ} {size : ℕ → Point ℚ}

/-! ## Placed boxes -/

/-- The rectangles of the placed boxes, in the order of the boxes. -/
def placedRects (s : Spacing ℚ) (g : FileGraph ℚ) : List (Rect ℚ) :=
  List.zipWith (fun box center => Rect.around center box.size) g.boxes (s.place g)

theorem length_placedRects (s : Spacing ℚ) (g : FileGraph ℚ) :
    (s.placedRects g).length = g.count := by
  rw [placedRects, List.length_zipWith, length_place, FileGraph.count, Nat.min_self]

theorem exists_center_of_getElem?_placedRects {g : FileGraph ℚ} {v : ℕ} {r : Rect ℚ}
    (hr : (s.placedRects g)[v]? = some r) :
    ∃ center, (s.place g)[v]? = some center ∧ r = Rect.around center (g.sizeOf v) := by
  rw [placedRects, List.getElem?_zipWith] at hr
  cases hbox : g.boxes[v]? with
  | none => simp [hbox] at hr
  | some box =>
      cases hcenter : (s.place g)[v]? with
      | none => simp [hcenter] at hr
      | some center =>
          refine ⟨center, rfl, ?_⟩
          simp only [hbox, hcenter, Option.some.injEq] at hr
          rw [← hr, FileGraph.sizeOf, hbox]

/-! ## The corner of the drawing -/

theorem map_low_around (boxes : List (FileBox ℚ)) (centers : List (Point ℚ)) (corner : Point ℚ) :
    (List.zipWith (fun box center => Rect.around center box.size) boxes
        (centers.map (· - corner))).map (·.low) =
      (((boxes.map (·.size)).zip centers).map fun entry => entry.2 - entry.1.half).map
        (· - corner) := by
  induction boxes generalizing centers with
  | nil => rfl
  | cons box rest ih =>
      cases centers with
      | nil => rfl
      | cons center centers =>
          have hlow : center - corner - box.size.half = center - box.size.half - corner :=
            Point.ext (sub_right_comm _ _ _) (sub_right_comm _ _ _)
          exact congrArg₂ List.cons hlow (ih centers)

/-- The corners of the placed boxes are some points, moved by their least coordinates. -/
theorem exists_map_low_placedRects (s : Spacing ℚ) (g : FileGraph ℚ) :
    ∃ lows : List (Point ℚ), (s.placedRects g).map (·.low) = lows.map
      (· - ⟨Scalar.least (lows.map (·.x)), Scalar.least (lows.map (·.y))⟩) :=
  ⟨_, map_low_around g.boxes _ _⟩

theorem exists_low_eq_zero (lows : List (Point ℚ)) (coordinate : Point ℚ → ℚ) (h : lows ≠ []) :
    ∃ low ∈ lows, coordinate low - Scalar.least (lows.map coordinate) = 0 := by
  have hmem : Scalar.least (lows.map coordinate) ∈ lows.map coordinate :=
    Scalar.least_mem (by simpa using h)
  obtain ⟨low, hlow, heq⟩ := List.mem_map.mp hmem
  exact ⟨low, hlow, sub_eq_zero.mpr heq⟩

theorem placedRects_start_at_origin (s : Spacing ℚ) {g : FileGraph ℚ} (hboxes : g.boxes ≠ []) :
    (∀ r ∈ s.placedRects g, 0 ≤ r.low.x ∧ 0 ≤ r.low.y) ∧
      (∃ r ∈ s.placedRects g, r.low.x = 0) ∧ ∃ r ∈ s.placedRects g, r.low.y = 0 := by
  obtain ⟨lows, hlows⟩ := exists_map_low_placedRects s g
  have hmem : ∀ p, (∃ r ∈ s.placedRects g, r.low = p) ↔ ∃ low ∈ lows,
      low - ⟨Scalar.least (lows.map (·.x)), Scalar.least (lows.map (·.y))⟩ = p := by
    intro p
    rw [← List.mem_map, hlows, List.mem_map]
  have hne : lows ≠ [] := by
    rintro rfl
    have hlength := length_placedRects s g
    rw [← List.length_map (f := (·.low)), hlows] at hlength
    exact hboxes (List.length_eq_zero_iff.mp hlength.symm)
  refine ⟨?_, ?_, ?_⟩
  · intro r hr
    obtain ⟨low, hlow, heq⟩ := (hmem r.low).mp ⟨r, hr, rfl⟩
    have hx := Scalar.least_le (List.mem_map_of_mem (f := fun p : Point ℚ => p.x) hlow)
    have hy := Scalar.least_le (List.mem_map_of_mem (f := fun p : Point ℚ => p.y) hlow)
    rw [← heq]
    exact ⟨sub_nonneg.mpr hx, sub_nonneg.mpr hy⟩
  · obtain ⟨low, hlow, hzero⟩ := exists_low_eq_zero lows (·.x) hne
    obtain ⟨r, hr, heq⟩ := (hmem _).mpr ⟨low, hlow, rfl⟩
    exact ⟨r, hr, by rw [heq]; exact hzero⟩
  · obtain ⟨low, hlow, hzero⟩ := exists_low_eq_zero lows (·.y) hne
    obtain ⟨r, hr, heq⟩ := (hmem _).mpr ⟨low, hlow, rfl⟩
    exact ⟨r, hr, by rw [heq]; exact hzero⟩

/-! ## Separation -/

theorem Beside.rects {v w : ℕ} {c d : Point ℚ} (h : s.Beside size (v, c) (w, d)) :
    s.direction.across (Rect.around c (size v)).high + s.nodeSeparation ≤
      s.direction.across (Rect.around d (size w)).low := by
  rw [Direction.across_high_around, Direction.across_low_around]
  exact h

theorem Before.rects {v w : ℕ} {c d : Point ℚ} (h : s.Before size (v, c) (w, d)) :
    s.direction.along (Rect.around c (size v)).high + s.rankSeparation ≤
      s.direction.along (Rect.around d (size w)).low := by
  rw [Direction.along_high_around, Direction.along_low_around]
  exact h

/-- No two placed boxes intersect, boxes of one rank keep the space between neighbours across the
ranks, and the smallest left and top coordinates of all boxes are zero. -/
theorem placedRects_separated (s : Spacing ℚ) (g : FileGraph ℚ) (hs : s.NonNegative)
    (hboxes : g.boxes ≠ []) (hg : ∀ box ∈ g.boxes, 0 ≤ box.size.x ∧ 0 ≤ box.size.y) :
    (s.placedRects g).length = g.count ∧
      (∀ (v w : ℕ) (r r' : Rect ℚ), v ≠ w →
        (s.placedRects g)[v]? = some r → (s.placedRects g)[w]? = some r' →
          r.intersects r' = false ∧
            (g.ranks[v]? = g.ranks[w]? →
              s.direction.across r.high + s.nodeSeparation ≤ s.direction.across r'.low ∨
                s.direction.across r'.high + s.nodeSeparation ≤ s.direction.across r.low)) ∧
      (∀ r ∈ s.placedRects g, 0 ≤ r.low.x ∧ 0 ≤ r.low.y) ∧
      (∃ r ∈ s.placedRects g, r.low.x = 0) ∧ ∃ r ∈ s.placedRects g, r.low.y = 0 := by
  refine ⟨length_placedRects s g, ?_, placedRects_start_at_origin s hboxes⟩
  intro v w r r' hvw hr hr'
  obtain ⟨c, hc, rfl⟩ := exists_center_of_getElem?_placedRects hr
  obtain ⟨d, hd, rfl⟩ := exists_center_of_getElem?_placedRects hr'
  refine ⟨(place_apart hs hg hvw hc hd).intersects_eq_false, ?_⟩
  intro hrank
  have hsame : g.ranks.getD v 0 = g.ranks.getD w 0 := by
    rw [List.getD_eq_getElem?_getD, List.getD_eq_getElem?_getD, hrank]
  rcases place_keptApart hs hg hvw hc hd with ⟨-, hbeside | hbeside⟩ | ⟨hlt, -⟩ | ⟨hlt, -⟩
  · exact Or.inl hbeside.rects
  · exact Or.inr hbeside.rects
  · exact absurd hsame (Nat.ne_of_lt hlt)
  · exact absurd hsame.symm (Nat.ne_of_lt hlt)

/-- Two boxes that call each other, and a flat one in the second rank. -/
def crowdedGraph : FileGraph ℚ where
  boxes := [⟨"a.py", ⟨6, 4⟩⟩, ⟨"b.py", ⟨2, 3⟩⟩, ⟨"c.py", ⟨4, 0⟩⟩]
  arcs := [(0, 1), (1, 0), (0, 2), (2, 2), (5, 0)]

def crowdedSpacing : Spacing ℚ :=
  ⟨2, 3, .vertical⟩

theorem crowdedGraph_separated :
    crowdedSpacing.NonNegative ∧ crowdedGraph.boxes ≠ [] ∧
      (∀ box ∈ crowdedGraph.boxes, 0 ≤ box.size.x ∧ 0 ≤ box.size.y) ∧
      ∃ r r' : Rect ℚ,
        (crowdedSpacing.placedRects crowdedGraph)[1]? = some r ∧
          (crowdedSpacing.placedRects crowdedGraph)[2]? = some r' ∧
          crowdedGraph.ranks[1]? = crowdedGraph.ranks[2]? ∧
          r.intersects r' = false ∧ (r.high.x + 2 ≤ r'.low.x ∨ r'.high.x + 2 ≤ r.low.x) := by
  have hs : crowdedSpacing.NonNegative := ⟨by decide, by decide⟩
  have hboxes : crowdedGraph.boxes ≠ [] := by decide
  have hg : ∀ box ∈ crowdedGraph.boxes, 0 ≤ box.size.x ∧ 0 ≤ box.size.y := by decide
  have hrank : crowdedGraph.ranks[1]? = crowdedGraph.ranks[2]? := by decide
  obtain ⟨hlength, hpair, -⟩ := placedRects_separated crowdedSpacing crowdedGraph hs hboxes hg
  have hthree : (crowdedSpacing.placedRects crowdedGraph).length = 3 := hlength
  have hfirst := List.getElem?_eq_getElem (l := crowdedSpacing.placedRects crowdedGraph) (i := 1)
    (by omega)
  have hsecond := List.getElem?_eq_getElem (l := crowdedSpacing.placedRects crowdedGraph) (i := 2)
    (by omega)
  obtain ⟨hdisjoint, hgap⟩ := hpair 1 2 _ _ (by decide) hfirst hsecond
  exact ⟨hs, hboxes, hg, _, _, hfirst, hsecond, hrank, hdisjoint, hgap hrank⟩

end Spacing

end Layout

end CodeAtlas
