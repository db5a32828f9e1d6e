import CodeAtlas.Proofs.Json.Decoding
import CodeAtlas.Proofs.Json.Reals
import CodeAtlas.Proofs.Json.RoundTrip

/-! # What a written document says

A number that is not finite is written `null`, and so is a value that cannot be read. The document
reads back with `null` in those places, and with everything else as it was.
-/

namespace CodeAtlas.Json

open Binary32 (magnitude?)

/-- Has the number a text of its own? -/
def Number.isFinite : Number → Bool
  | .real x => (magnitude? x).isSome
  | _ => true

mutual

/-- The value that a written document holds. -/
def written : Json → Json
  | .number n => if n.isFinite then .number n else .null
  | .array items => .array (writtenItems items)
  | .object fields => .object (writtenFields fields)
  | .unreadable => .null
  | j => j

def writtenItems : List Json → List Json
  | [] => []
  | item :: items => item.written :: writtenItems items

def writtenFields : List (String × Json) → List (String × Json)
  | [] => []
  | (key, value) :: fields => (key, value.written) :: writtenFields fields

end

theorem Number.text_of_not_isFinite {n : Number} (h : n.isFinite = false) :
    n.text = "null".toList := by
  cases n with
  | real x =>
      have hnone : magnitude? x = none := by
        simpa [Number.isFinite] using h
      show ((magnitude? x).map _).getD _ = _
      rw [hnone]
      rfl
  | _ => cases h

mutual

theorem prettyChars_written (level : ℕ) : ∀ j : Json,
    prettyChars level j.written = prettyChars level j
  | .null => rfl
  | .bool _ => rfl
  | .number n => by
      cases h : n.isFinite with
      | true => simp [written, h]
      | false =>
          simp only [written, h]
          exact (n.text_of_not_isFinite h).symm
  | .string _ => rfl
  | .array [] => rfl
  | .array (item :: items) => by
      have hitems := prettyItems_written (level + 1) (item :: items)
      simp only [written, writtenItems, prettyChars] at hitems ⊢
      rw [hitems]
  | .object [] => rfl
  | .object ((key, value) :: fields) => by
      have hfields := prettyFields_written (level + 1) ((key, value) :: fields)
      simp only [written, writtenFields, prettyChars] at hfields ⊢
      rw [hfields]
  | .unreadable => rfl

theorem prettyItems_written (level : ℕ) : ∀ items : List Json,
    prettyItems level (writtenItems items) = prettyItems level items
  | [] => rfl
  | [item] => prettyChars_written level item
  | item :: next :: items => by
      have hitem := prettyChars_written level item
      have hitems := prettyItems_written level (next :: items)
      simp only [writtenItems, prettyItems] at hitems ⊢
      rw [hitem, hitems]

theorem prettyFields_written (level : ℕ) : ∀ fields : List (String × Json),
    prettyFields level (writtenFields fields) = prettyFields level fields
  | [] => rfl
  | [(key, value)] => by
      simp only [writtenFields, prettyFields, prettyChars_written level value]
  | (key, value) :: (next, other) :: fields => by
      have hvalue := prettyChars_written level value
      have hfields := prettyFields_written level ((next, other) :: fields)
      simp only [writtenFields, prettyFields] at hfields ⊢
      rw [hvalue, hfields]

end

/-- A document reads back as it was written. -/
theorem parse?_pretty_eq_written {j : Json} (h : j.written.Legible) :
    parse? j.pretty = some j.written := by
  have htext : j.pretty = j.written.pretty := by
    unfold pretty
    rw [prettyChars_written]
  rw [htext, parse?_pretty h]

/-! ## Floating point numbers -/

theorem legible_written_ofReal (x : Float32) : (ofReal x).written.Legible := by
  cases h : magnitude? x with
  | none =>
      simp only [ofReal, written, Number.isFinite, h]
      trivial
  | some m =>
      simp only [ofReal, written, Number.isFinite, h]
      exact spells_real h

/-- Only a finite number can be read where one was written. -/
theorem real?_written_ofReal (x : Float32) :
    real? (ofReal x).written = if (magnitude? x).isSome then some x else none := by
  cases h : magnitude? x <;> simp [ofReal, written, Number.isFinite, h, real?]

end CodeAtlas.Json
