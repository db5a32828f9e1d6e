import CodeAtlas.Layout.CycleBreaking
import Mathlib.Data.Set.Finite.Basic
import Mathlib.Order.WellFounded

/-! # Acyclic graphs

Paths along the arcs of a graph. In a graph without cycles every list of nodes has one
from which no arc leads into the list, and one into which no arc leads out of it.
-/

namespace CodeAtlas.Layout

/-- A path of at least one arc leads from the first node to the second. -/
def Reaches (arcs : List Arc) : ℕ → ℕ → Prop :=
  Relation.TransGen fun s t => (s, t) ∈ arcs

/-- No path leads from a node back to itself. -/
def Acyclic (arcs : List Arc) : Prop :=
  ∀ v, ¬ Reaches arcs v v

/-- Every arc joins two of the nodes `0, 1, …, n - 1`. -/
def InRange (n : ℕ) (arcs : List Arc) : Prop :=
  ∀ arc ∈ arcs, arc.1 < n ∧ arc.2 < n

variable {arcs arcs' : List Arc} {s t v : ℕ}

@[simp] theorem mem_successors : t ∈ successors arcs s ↔ (s, t) ∈ arcs := by
  simp [successors]

@[simp] theorem mem_predecessors : s ∈ predecessors arcs t ↔ (s, t) ∈ arcs := by
  simp [predecessors]

theorem count_successors (arcs : List Arc) (s t : ℕ) :
    (successors arcs s).count t = arcs.count (s, t) := by
  induction arcs with
  | nil => rfl
  | cons arc rest ih =>
      obtain ⟨a, b⟩ := arc
      by_cases ha : a = s
      · by_cases hb : b = t
        · simpa [successors, ha, hb] using ih
        · simpa [successors, ha, hb] using ih
      · simpa [successors, ha] using ih

theorem count_predecessors (arcs : List Arc) (s t : ℕ) :
    (predecessors arcs t).count s = arcs.count (s, t) := by
  induction arcs with
  | nil => rfl
  | cons arc rest ih =>
      obtain ⟨a, b⟩ := arc
      by_cases hb : b = t
      · by_cases ha : a = s
        · simpa [predecessors, ha, hb] using ih
        · simpa [predecessors, ha, hb] using ih
      · simpa [predecessors, hb] using ih

/-! ## Graphs without cycles -/

/-- A map of nodes that sends arcs to arcs sends cycles to cycles. -/
theorem Acyclic.of_map (h : Acyclic arcs') (f : ℕ → ℕ)
    (hf : ∀ s t, (s, t) ∈ arcs → (f s, f t) ∈ arcs') : Acyclic arcs := by
  intro v hv
  exact h (f v) (Relation.TransGen.lift f hf v v hv)

theorem Acyclic.of_subset (h : Acyclic arcs') (hsub : ∀ arc ∈ arcs, arc ∈ arcs') :
    Acyclic arcs :=
  h.of_map id fun s t => hsub (s, t)

theorem Acyclic.ne_of_mem (h : Acyclic arcs) {arc : Arc} (harc : arc ∈ arcs) :
    arc.1 ≠ arc.2 := by
  intro hloop
  apply h arc.1
  apply Relation.TransGen.single
  rw [← Prod.eta arc, ← hloop] at harc
  exact harc

/-- A graph whose arcs all lead upward has no cycle. -/
theorem acyclic_of_height (height : ℕ → ℕ) (h : ∀ arc ∈ arcs, height arc.1 < height arc.2) :
    Acyclic arcs := by
  have hup : ∀ s t, Reaches arcs s t → height s < height t := by
    intro s t hst
    induction hst with
    | single harc => exact h _ harc
    | tail _ harc ih => exact Nat.lt_trans ih (h _ harc)
  exact fun v hv => Nat.lt_irrefl _ (hup v v hv)

/-- Some node of the list has no arc to a node of the list. -/
theorem Acyclic.exists_sink (h : Acyclic arcs) {nodes : List ℕ} (hne : nodes ≠ []) :
    ∃ v ∈ nodes, ∀ t ∈ nodes, (v, t) ∉ arcs := by
  let above : {v // v ∈ nodes} → {v // v ∈ nodes} → Prop := fun a b => Reaches arcs b.1 a.1
  have htrans : IsTrans _ above := ⟨fun _ _ _ hab hbc => Relation.TransGen.trans hbc hab⟩
  have hfinite : Finite {v // v ∈ nodes} := (List.finite_toSet nodes).to_subtype
  have hirrefl : Std.Irrefl above := ⟨fun a ha => h a.1 ha⟩
  have hwf : WellFounded above := Finite.wellFounded_of_trans_of_irrefl above
  obtain ⟨first, hfirst⟩ := List.exists_mem_of_ne_nil nodes hne
  obtain ⟨v, -, hmin⟩ := hwf.has_min Set.univ ⟨⟨first, hfirst⟩, trivial⟩
  exact ⟨v.1, v.2, fun t ht harc => hmin ⟨t, ht⟩ trivial (.single harc)⟩

/-- Some node of the list has no arc from a node of the list. -/
theorem Acyclic.exists_source (h : Acyclic arcs) {nodes : List ℕ} (hne : nodes ≠ []) :
    ∃ v ∈ nodes, ∀ s ∈ nodes, (s, v) ∉ arcs := by
  have hback : Acyclic (arcs.map Prod.swap) := by
    intro v hv
    have hswap : Relation.TransGen (Function.swap fun s t => (s, t) ∈ arcs) v v :=
      Relation.TransGen.mono (fun s t hst => by simpa using hst) v v hv
    exact h v (Relation.transGen_swap.mp hswap)
  obtain ⟨v, hv, hsink⟩ := hback.exists_sink hne
  exact ⟨v, hv, fun s hs harc => hsink s hs (by simpa using harc)⟩

end CodeAtlas.Layout
