import CodeAtlas.Proofs.Layout.Exact
import CodeAtlas.Proofs.Layout.Layers
import Mathlib.Data.List.Pairwise

/-! # Placed boxes are apart

Boxes of one layer follow each other across the ranks, and layers follow each other
along them. Both recursions carry a bound: nothing stands before the offset at which
the rest begins. With every box in the layer of its rank, the ranks of two boxes say
which space is kept between them, and any two placed boxes are apart.
-/

namespace CodeAtlas

/-- With keys that do not repeat, looking up is membership. -/
theorem lookup_eq_some_iff_mem {κ β : Type} [BEq κ] [LawfulBEq κ] {entries : List (κ × β)}
    (h : (entries.map Prod.fst).Nodup) {key : κ} {value : β} :
    entries.lookup key = some value ↔ (key, value) ∈ entries := by
  induction entries with
  | nil => simp
  | cons entry rest ih =>
      obtain ⟨first, found⟩ := entry
      rw [List.map_cons, List.nodup_cons] at h
      rw [List.lookup_cons, List.mem_cons, Prod.mk.injEq]
      by_cases hkey : key = first
      · subst hkey
        have hnot : (key, value) ∉ rest := fun hmem =>
          h.1 (List.mem_map.mpr ⟨(key, value), hmem, rfl⟩)
        simp [hnot, eq_comm]
      · have hbeq : (key == first) = false := beq_eq_false_iff_ne.mpr hkey
        simp [hbeq, hkey, ih h.2]

namespace Direction

variable {α : Type}

@[simp] theorem along_point (d : Direction) (a b : α) : d.along (d.point a b) = a := by
  cases d <;> rfl

@[simp] theorem across_point (d : Direction) (a b : α) : d.across (d.point a b) = b := by
  cases d <;> rfl

@[simp] theorem along_sub (d : Direction) (p q : Point ℚ) :
    d.along (p - q) = d.along p - d.along q := by
  cases d <;> rfl

@[simp] theorem across_sub (d : Direction) (p q : Point ℚ) :
    d.across (p - q) = d.across p - d.across q := by
  cases d <;> rfl

theorem across_nonneg (d : Direction) {size : Point ℚ} (h : 0 ≤ size.x ∧ 0 ≤ size.y) :
    0 ≤ d.across size := by
  cases d
  · exact h.2
  · exact h.1

end Direction

namespace Layout

/-! ## Ranks of the boxes in layers -/

/-- The boxes of a layer have one rank, which is higher than those of the layers before. -/
structure Graded (rank : ℕ → ℕ) (layers : List (List ℕ)) : Prop where
  same : ∀ layer ∈ layers, ∀ v ∈ layer, ∀ w ∈ layer, rank v = rank w
  ascending : layers.Pairwise fun lower higher => ∀ v ∈ lower, ∀ w ∈ higher, rank v < rank w

theorem Graded.tail {rank : ℕ → ℕ} {layer : List ℕ} {rest : List (List ℕ)}
    (h : Graded rank (layer :: rest)) : Graded rank rest where
  same other hother := h.same other (List.mem_cons_of_mem layer hother)
  ascending := (List.pairwise_cons.mp h.ascending).2

theorem LayeredBy.graded {ranks : List ℕ} {layers : List (List ℕ)} (h : LayeredBy ranks layers) :
    Graded (fun v => ranks.getD v 0) layers := by
  have hrank : ∀ i layer, layers[i]? = some layer → ∀ v ∈ layer, ranks.getD v 0 = i := by
    intro i layer hlayer v hv
    rw [List.getD_eq_getElem?_getD, (h.mem_iff hlayer).mp hv, Option.getD_some]
  constructor
  · intro layer hlayer v hv w hw
    obtain ⟨i, hi⟩ := List.mem_iff_getElem?.mp hlayer
    rw [hrank i layer hi v hv, hrank i layer hi w hw]
  · rw [List.pairwise_iff_getElem]
    intro i j hi hj hij v hv w hw
    rw [hrank i _ (List.getElem?_eq_getElem hi) v hv, hrank j _ (List.getElem?_eq_getElem hj) w hw]
    exact hij

namespace Spacing

/-! ## The space between two boxes -/

/-- No distance is negative. -/
structure NonNegative (s : Spacing ℚ) : Prop where
  nodeSeparation : 0 ≤ s.nodeSeparation
  rankSeparation : 0 ≤ s.rankSeparation

variable {s : Spacing ℚ} {size : ℕ → Point ℚ}

/-- The second box stands after the first one across the ranks, with the space between boxes. -/
def Beside (s : Spacing ℚ) (size : ℕ → Point ℚ) (a b : ℕ × Point ℚ) : Prop :=
  s.direction.across a.2 + s.direction.across (size a.1) / 2 + s.nodeSeparation ≤
    s.direction.across b.2 - s.direction.across (size b.1) / 2

/-- The second box stands after the first one along the ranks, with the space between ranks. -/
def Before (s : Spacing ℚ) (size : ℕ → Point ℚ) (a b : ℕ × Point ℚ) : Prop :=
  s.direction.along a.2 + s.direction.along (size a.1) / 2 + s.rankSeparation ≤
    s.direction.along b.2 - s.direction.along (size b.1) / 2

theorem Beside.apart {v w : ℕ} {c d : Point ℚ} (hs : s.NonNegative)
    (h : s.Beside size (v, c) (w, d)) :
    Rect.Apart (Rect.around c (size v)) (Rect.around d (size w)) := by
  have hgap := hs.nodeSeparation
  unfold Beside at h
  cases hd : s.direction with
  | horizontal =>
      rw [hd] at h
      simp only [Direction.across] at h
      exact Rect.apart_of_y_le (by linarith)
  | vertical =>
      rw [hd] at h
      simp only [Direction.across] at h
      exact Rect.apart_of_x_le (by linarith)

theorem Before.apart {v w : ℕ} {c d : Point ℚ} (hs : s.NonNegative)
    (h : s.Before size (v, c) (w, d)) :
    Rect.Apart (Rect.around c (size v)) (Rect.around d (size w)) := by
  have hgap := hs.rankSeparation
  unfold Before at h
  cases hd : s.direction with
  | horizontal =>
      rw [hd] at h
      simp only [Direction.along] at h
      exact Rect.apart_of_x_le (by linarith)
  | vertical =>
      rw [hd] at h
      simp only [Direction.along] at h
      exact Rect.apart_of_y_le (by linarith)

/-- How two boxes are kept apart, by their ranks. -/
def KeptApart (s : Spacing ℚ) (size : ℕ → Point ℚ) (rank : ℕ → ℕ) (a b : ℕ × Point ℚ) : Prop :=
  (rank a.1 = rank b.1 ∧ (s.Beside size a b ∨ s.Beside size b a)) ∨
    (rank a.1 < rank b.1 ∧ s.Before size a b) ∨ (rank b.1 < rank a.1 ∧ s.Before size b a)

theorem KeptApart.symm {rank : ℕ → ℕ} {a b : ℕ × Point ℚ} (h : s.KeptApart size rank a b) :
    s.KeptApart size rank b a := by
  rcases h with ⟨hrank, hbeside⟩ | hbefore | hafter
  · exact Or.inl ⟨hrank.symm, hbeside.symm⟩
  · exact Or.inr (Or.inr hbefore)
  · exact Or.inr (Or.inl hafter)

theorem Beside.sub {v w : ℕ} {c d : Point ℚ} (h : s.Beside size (v, c) (w, d)) (corner : Point ℚ) :
    s.Beside size (v, c - corner) (w, d - corner) := by
  simp only [Beside, Direction.across_sub] at h ⊢
  linarith

theorem Before.sub {v w : ℕ} {c d : Point ℚ} (h : s.Before size (v, c) (w, d)) (corner : Point ℚ) :
    s.Before size (v, c - corner) (w, d - corner) := by
  simp only [Before, Direction.along_sub] at h ⊢
  linarith

theorem KeptApart.sub {rank : ℕ → ℕ} {v w : ℕ} {c d : Point ℚ}
    (h : s.KeptApart size rank (v, c) (w, d)) (corner : Point ℚ) :
    s.KeptApart size rank (v, c - corner) (w, d - corner) := by
  rcases h with ⟨hrank, hbeside | hbeside⟩ | ⟨hrank, hbefore⟩ | ⟨hrank, hafter⟩
  · exact Or.inl ⟨hrank, Or.inl (hbeside.sub corner)⟩
  · exact Or.inl ⟨hrank, Or.inr (hbeside.sub corner)⟩
  · exact Or.inr (Or.inl ⟨hrank, hbefore.sub corner⟩)
  · exact Or.inr (Or.inr ⟨hrank, hafter.sub corner⟩)

theorem KeptApart.before {rank : ℕ → ℕ} {a b : ℕ × Point ℚ} (h : s.KeptApart size rank a b)
    (hlt : rank a.1 < rank b.1) : s.Before size a b := by
  rcases h with ⟨heq, -⟩ | ⟨-, hbefore⟩ | ⟨hgt, -⟩
  · omega
  · exact hbefore
  · omega

theorem KeptApart.apart {rank : ℕ → ℕ} {v w : ℕ} {c d : Point ℚ} (hs : s.NonNegative)
    (h : s.KeptApart size rank (v, c) (w, d)) :
    Rect.Apart (Rect.around c (size v)) (Rect.around d (size w)) := by
  rcases h with ⟨-, hbeside | hbeside⟩ | ⟨-, hbefore⟩ | ⟨-, hafter⟩
  · exact hbeside.apart hs
  · exact (hbeside.apart hs).symm
  · exact hbefore.apart hs
  · exact (hafter.apart hs).symm

/-! ## One layer -/

theorem placeLayer_keys {α : Type} [Scalar α] (s : Spacing α) (size : ℕ → Point α)
    (middle start : α) (layer : List ℕ) :
    (s.placeLayer size middle start layer).map Prod.fst = layer := by
  induction layer generalizing start with
  | nil => rfl
  | cons v rest ih => simp [placeLayer, ih]

theorem mem_of_mem_placeLayer {middle start : ℚ} {layer : List ℕ} {e : ℕ × Point ℚ}
    (he : e ∈ s.placeLayer size middle start layer) : e.1 ∈ layer := by
  have hkey := List.mem_map_of_mem (f := Prod.fst) he
  rwa [placeLayer_keys] at hkey

theorem along_of_mem_placeLayer {middle start : ℚ} {layer : List ℕ} {e : ℕ × Point ℚ}
    (he : e ∈ s.placeLayer size middle start layer) : s.direction.along e.2 = middle := by
  induction layer generalizing start with
  | nil => cases he
  | cons v rest ih =>
      rcases List.mem_cons.mp he with rfl | he
      · simp
      · exact ih he

theorem start_le_of_mem_placeLayer (hs : s.NonNegative)
    (hsize : ∀ v, 0 ≤ (size v).x ∧ 0 ≤ (size v).y) {middle start : ℚ} {layer : List ℕ}
    {e : ℕ × Point ℚ} (he : e ∈ s.placeLayer size middle start layer) :
    start ≤ s.direction.across e.2 - s.direction.across (size e.1) / 2 := by
  induction layer generalizing start with
  | nil => cases he
  | cons v rest ih =>
      rcases List.mem_cons.mp he with rfl | he
      · simp [Scalar.half_eq]
      · have hrest := ih he
        have hextent := s.direction.across_nonneg (hsize v)
        linarith [hs.nodeSeparation]

theorem placeLayer_pairwise (hs : s.NonNegative)
    (hsize : ∀ v, 0 ≤ (size v).x ∧ 0 ≤ (size v).y) (middle start : ℚ) (layer : List ℕ) :
    (s.placeLayer size middle start layer).Pairwise (s.Beside size) := by
  induction layer generalizing start with
  | nil => exact List.Pairwise.nil
  | cons v rest ih =>
      refine List.Pairwise.cons ?_ (ih _)
      intro e he
      have hstart := start_le_of_mem_placeLayer hs hsize he
      simp only [Beside, Direction.across_point, Scalar.half_eq]
      linarith

/-! ## All layers -/

theorem le_foldl_larger (xs : List ℚ) (start : ℚ) :
    start ≤ xs.foldl Scalar.larger start ∧ ∀ x ∈ xs, x ≤ xs.foldl Scalar.larger start := by
  induction xs generalizing start with
  | nil => simp
  | cons first rest ih =>
      obtain ⟨hstart, hrest⟩ := ih (Scalar.larger start first)
      rw [Scalar.larger_eq] at hstart
      refine ⟨le_trans (le_max_left _ _) hstart, ?_⟩
      intro x hx
      rcases List.mem_cons.mp hx with rfl | hx
      · exact le_trans (le_max_right _ _) hstart
      · exact hrest x hx

theorem depth_nonneg (s : Spacing ℚ) (sizes : List (Point ℚ)) : 0 ≤ s.depth sizes :=
  (le_foldl_larger _ 0).1

theorem along_le_depth (s : Spacing ℚ) {sizes : List (Point ℚ)} {p : Point ℚ} (h : p ∈ sizes) :
    s.direction.along p ≤ s.depth sizes :=
  (le_foldl_larger _ 0).2 _ (List.mem_map_of_mem h)

theorem placeLayers_keys {α : Type} [Scalar α] (s : Spacing α) (size : ℕ → Point α) (offset : α)
    (layers : List (List ℕ)) :
    (s.placeLayers size offset layers).map Prod.fst = layers.flatten := by
  induction layers generalizing offset with
  | nil => rfl
  | cons layer rest ih => simp [placeLayers, placeLayer_keys, ih]

/-- A box of a layer that starts at `offset` lies between the sides of that layer. -/
theorem along_bounds_of_mem_placeLayer {offset start : ℚ} {layer : List ℕ} {e : ℕ × Point ℚ}
    (he : e ∈ s.placeLayer size (offset + Scalar.half (s.depth (layer.map size))) start layer) :
    offset ≤ s.direction.along e.2 - s.direction.along (size e.1) / 2 ∧
      s.direction.along e.2 + s.direction.along (size e.1) / 2 ≤
        offset + s.depth (layer.map size) := by
  have hmiddle := along_of_mem_placeLayer he
  have hdepth := s.along_le_depth (List.mem_map_of_mem (f := size) (mem_of_mem_placeLayer he))
  rw [Scalar.half_eq] at hmiddle
  constructor <;> linarith

theorem offset_le_of_mem_placeLayers (hs : s.NonNegative) {offset : ℚ}
    {layers : List (List ℕ)} {e : ℕ × Point ℚ} (he : e ∈ s.placeLayers size offset layers) :
    offset ≤ s.direction.along e.2 - s.direction.along (size e.1) / 2 := by
  induction layers generalizing offset with
  | nil => cases he
  | cons layer rest ih =>
      rcases List.mem_append.mp he with he | he
      · exact (along_bounds_of_mem_placeLayer he).1
      · have hrest := ih he
        have hdepth := s.depth_nonneg (layer.map size)
        linarith [hs.rankSeparation]

/-- Of two placed boxes, those of one layer stand beside each other, and the later layer starts
after the other one. -/
theorem placeLayers_keptApart (hs : s.NonNegative) (hsize : ∀ v, 0 ≤ (size v).x ∧ 0 ≤ (size v).y)
    {rank : ℕ → ℕ} {layers : List (List ℕ)} (h : Graded rank layers) (offset : ℚ) :
    (s.placeLayers size offset layers).Pairwise (s.KeptApart size rank) := by
  induction layers generalizing offset with
  | nil => exact List.Pairwise.nil
  | cons layer rest ih =>
      refine List.pairwise_append.mpr ⟨?_, ih h.tail _, ?_⟩
      · refine (placeLayer_pairwise hs hsize _ _ layer).imp_of_mem ?_
        intro a b ha hb hbeside
        have hsame := h.same layer List.mem_cons_self _ (mem_of_mem_placeLayer ha) _
          (mem_of_mem_placeLayer hb)
        exact Or.inl ⟨hsame, Or.inl hbeside⟩
      · intro a ha b hb
        have hend := (along_bounds_of_mem_placeLayer ha).2
        have hnext := offset_le_of_mem_placeLayers hs hb
        have hkey := List.mem_map_of_mem (f := Prod.fst) hb
        rw [placeLayers_keys] at hkey
        obtain ⟨higher, hhigher, hmem⟩ := List.mem_flatten.mp hkey
        have hlt := (List.pairwise_cons.mp h.ascending).1 higher hhigher _
          (mem_of_mem_placeLayer ha) _ hmem
        refine Or.inr (Or.inl ⟨hlt, ?_⟩)
        unfold Before
        linarith

/-! ## The placement of a graph -/

theorem length_place {α : Type} [Scalar α] (s : Spacing α) (g : FileGraph α) :
    (s.place g).length = g.count := by
  simp [place, moveToOrigin]

theorem sizeOf_nonneg {g : FileGraph ℚ}
    (hg : ∀ box ∈ g.boxes, 0 ≤ box.size.x ∧ 0 ≤ box.size.y) (v : ℕ) :
    0 ≤ (g.sizeOf v).x ∧ 0 ≤ (g.sizeOf v).y := by
  unfold FileGraph.sizeOf
  cases hbox : g.boxes[v]? with
  | none => exact ⟨le_refl _, le_refl _⟩
  | some box => exact hg box (List.mem_of_getElem? hbox)

/-- Every box of the graph is placed, with the center that it is looked up by. -/
theorem exists_lookup_placeLayers {α : Type} [Scalar α] (s : Spacing α) {g : FileGraph α} {v : ℕ}
    (hv : v < g.count) :
    ∃ center, (s.placeLayers g.sizeOf 0 g.layers).lookup v = some center ∧
      (v, center) ∈ s.placeLayers g.sizeOf 0 g.layers := by
  have hkeys := s.placeLayers_keys g.sizeOf 0 g.layers
  have hnodup : ((s.placeLayers g.sizeOf 0 g.layers).map Prod.fst).Nodup := by
    rw [hkeys, g.layers_perm.nodup_iff]
    exact List.nodup_range
  have hmem : v ∈ (s.placeLayers g.sizeOf 0 g.layers).map Prod.fst := by
    rw [hkeys, g.layers_perm.mem_iff]
    exact List.mem_range.mpr hv
  obtain ⟨⟨w, center⟩, hentry, rfl⟩ := List.mem_map.mp hmem
  exact ⟨center, (lookup_eq_some_iff_mem hnodup).mpr hentry, hentry⟩

/-- All centers are moved by the same corner from where the layers put them. -/
theorem place_eq_sub_corner {α : Type} [Scalar α] (s : Spacing α) (g : FileGraph α) :
    ∃ corner, ∀ v c, (s.place g)[v]? = some c →
      ∃ center, (v, center) ∈ s.placeLayers g.sizeOf 0 g.layers ∧ c = center - corner := by
  obtain ⟨corner, hplace⟩ : ∃ corner, s.place g = ((List.range g.count).map fun u =>
      ((s.placeLayers g.sizeOf 0 g.layers).lookup u).getD Point.origin).map (· - corner) :=
    ⟨_, rfl⟩
  refine ⟨corner, ?_⟩
  intro v c hc
  have hv : v < g.count := by
    rw [← s.length_place g]
    exact (List.getElem?_eq_some_iff.mp hc).1
  obtain ⟨center, hlookup, hmem⟩ := s.exists_lookup_placeLayers hv
  rw [hplace] at hc
  simp only [List.getElem?_map, List.getElem?_range hv, hlookup, Option.map_some,
    Option.getD_some, Option.some.injEq] at hc
  exact ⟨center, hmem, hc.symm⟩

/-- Any two boxes of a graph are kept apart where they are placed. -/
theorem place_keptApart {g : FileGraph ℚ} (hs : s.NonNegative)
    (hg : ∀ box ∈ g.boxes, 0 ≤ box.size.x ∧ 0 ≤ box.size.y) {v w : ℕ} (hvw : v ≠ w)
    {c d : Point ℚ} (hc : (s.place g)[v]? = some c) (hd : (s.place g)[w]? = some d) :
    s.KeptApart g.sizeOf (fun u => g.ranks.getD u 0) (v, c) (w, d) := by
  have hsymm : Std.Symm (s.KeptApart g.sizeOf fun u => g.ranks.getD u 0) :=
    ⟨fun _ _ h => h.symm⟩
  have hall := placeLayers_keptApart hs (sizeOf_nonneg hg) g.layeredBy_ranks.graded 0
  obtain ⟨corner, hcorner⟩ := s.place_eq_sub_corner g
  obtain ⟨c₀, hmemv, rfl⟩ := hcorner v c hc
  obtain ⟨d₀, hmemw, rfl⟩ := hcorner w d hd
  have hne : (v, c₀) ≠ (w, d₀) := fun heq => hvw (congrArg Prod.fst heq)
  exact (hall.forall hmemv hmemw hne).sub corner

/-- Any two boxes of a graph are apart where they are placed. -/
theorem place_apart {g : FileGraph ℚ} (hs : s.NonNegative)
    (hg : ∀ box ∈ g.boxes, 0 ≤ box.size.x ∧ 0 ≤ box.size.y) {v w : ℕ} (hvw : v ≠ w)
    {c d : Point ℚ} (hc : (s.place g)[v]? = some c) (hd : (s.place g)[w]? = some d) :
    Rect.Apart (Rect.around c (g.sizeOf v)) (Rect.around d (g.sizeOf w)) :=
  (place_keptApart hs hg hvw hc hd).apart hs

end Spacing

end Layout

end CodeAtlas
