import CodeAtlas.Proofs.Disk.ReadWrite
import CodeAtlas.Proofs.Json.Written
import CodeAtlas.Settings.Basic

/-! # Settings files that are read back

The whole numbers of settings that were loaded fit in 64 bits, so they can be loaded again. A
length can be loaded again only if it is finite: the others are written `null`.
-/

namespace CodeAtlas

open Json (real?_written_ofReal legible_written_ofReal legible_ofNat legible_string)

/-! ## Metrics -/

namespace Metrics

variable (m : Metrics Float32)

/-- The lengths in some metrics. -/
def lengths : List Float32 :=
  [m.cardWidth, m.cardHeight, m.paddingX, m.paddingTop, m.paddingBottom, m.cardGap,
    m.minFileHeight, m.nodeSeparation, m.rankSeparation]

/-- Are all lengths finite? -/
def IsFinite : Prop :=
  ∀ x ∈ m.lengths, x.isFinite = true

instance : Decidable m.IsFinite :=
  inferInstanceAs (Decidable (∀ x ∈ m.lengths, x.isFinite = true))

theorem ofJson?_written_toJson :
    ofJson? m.toJson.written = if m.IsFinite then some m else none := by
  have hreal (x : Float32) {β : Type} (f : Float32 → Option β) :
      (Json.real? (Json.ofReal x).written).bind f = if x.isFinite = true then f x else none := by
    rw [real?_written_ofReal, Binary32.isSome_magnitude?]
    split <;> rfl
  have hdirection : Direction.ofJson? (.string m.direction.name) = some m.direction := by
    cases m.direction <;> rfl
  simp only [ofJson?, toJson, Json.written, Json.writtenFields, Option.bind_eq_bind]
  refine Json.Record.ofKeys?_object_bind rfl (by decide) fun r hget => ?_
  simp only [List.forall_mem_cons] at hget
  simp only [Json.Record.withDefault, hget, hreal, hdirection, Option.bind_some, Option.pure_def,
    ← ite_and, IsFinite, lengths, List.forall_mem_cons, List.not_mem_nil, false_implies,
    implies_true, and_true]

theorem legible_written_toJson : m.toJson.written.Legible := by
  simp [toJson, Json.written, Json.writtenFields, Json.Legible, Json.LegibleFields,
    legible_written_ofReal]

theorem beq_self_of_isFinite (h : m.IsFinite) : (m == m) = true := by
  have hbeq : ∀ x ∈ m.lengths, (x == x) = true := fun x hx =>
    Binary32.beq_self_of_isFinite (h x hx)
  have hdirection : (m.direction == m.direction) = true := by
    cases m.direction <;> rfl
  simp only [lengths, List.forall_mem_cons] at hbeq
  show instBEqMetrics.beq m m = true
  simp only [instBEqMetrics.beq, hbeq, hdirection, Bool.and_self]

end Metrics

/-! ## The analyzer and polling -/

namespace AnalyzerSettings

variable {s : AnalyzerSettings}

/-- The timeouts fit in 64 bits. -/
def Fits (s : AnalyzerSettings) : Prop :=
  s.requestTimeoutMs < Nat.pow 2 64 ∧ s.healthTimeoutMs < Nat.pow 2 64

theorem fits_of_ofJson? (j : Json) (s : AnalyzerSettings) (h : ofJson? j = some s) : s.Fits := by
  obtain ⟨r, _, h⟩ := Option.bind_eq_some_iff.1 h
  obtain ⟨baseUrl, _, h⟩ := Option.bind_eq_some_iff.1 h
  obtain ⟨requestTimeoutMs, hrequest, h⟩ := Option.bind_eq_some_iff.1 h
  obtain ⟨healthTimeoutMs, hhealth, h⟩ := Option.bind_eq_some_iff.1 h
  cases h
  exact ⟨Json.Record.lt_of_withDefault_nat? hrequest (by decide),
    Json.Record.lt_of_withDefault_nat? hhealth (by decide)⟩

theorem ofJson?_toJson (h : s.Fits) : ofJson? s.toJson = some s := by
  simp only [ofJson?, toJson, Option.bind_eq_bind]
  refine Json.Record.ofKeys?_object_bind rfl (by decide) fun r hget => ?_
  simp only [List.forall_mem_cons] at hget
  simp only [Json.Record.withDefault, hget, Json.string?_string, Json.nat?_ofNat h.1,
    Json.nat?_ofNat h.2, Option.bind_some, Option.pure_def]

theorem legible_toJson (h : s.Fits) : s.toJson.Legible :=
  ⟨legible_string _, legible_ofNat h.1, legible_ofNat h.2, trivial⟩

end AnalyzerSettings

namespace PollSettings

variable {s : PollSettings}

/-- The intervals fit in 64 bits. -/
def Fits (s : PollSettings) : Prop :=
  s.healthIntervalMs < Nat.pow 2 64 ∧ s.snapshotIntervalMs < Nat.pow 2 64

theorem fits_of_ofJson? (j : Json) (s : PollSettings) (h : ofJson? j = some s) : s.Fits := by
  obtain ⟨r, _, h⟩ := Option.bind_eq_some_iff.1 h
  obtain ⟨healthIntervalMs, hhealth, h⟩ := Option.bind_eq_some_iff.1 h
  obtain ⟨snapshotIntervalMs, hsnapshot, h⟩ := Option.bind_eq_some_iff.1 h
  cases h
  exact ⟨Json.Record.lt_of_withDefault_nat? hhealth (by decide),
    Json.Record.lt_of_withDefault_nat? hsnapshot (by decide)⟩

theorem ofJson?_toJson (h : s.Fits) : ofJson? s.toJson = some s := by
  simp only [ofJson?, toJson, Option.bind_eq_bind]
  refine Json.Record.ofKeys?_object_bind rfl (by decide) fun r hget => ?_
  simp only [List.forall_mem_cons] at hget
  simp only [Json.Record.withDefault, hget, Json.nat?_ofNat h.1, Json.nat?_ofNat h.2,
    Option.bind_some, Option.pure_def]

theorem legible_toJson (h : s.Fits) : s.toJson.Legible :=
  ⟨legible_ofNat h.1, legible_ofNat h.2, trivial⟩

end PollSettings

/-! ## All settings -/

namespace Settings

variable {s : Settings} {text path : String} {disk disk' : Disk}

/-- The whole numbers fit in 64 bits. -/
def Fits (s : Settings) : Prop :=
  s.analyzer.Fits ∧ s.polling.Fits

theorem fits_of_ofText? (h : ofText? text = some s) : s.Fits := by
  obtain ⟨j, _, h⟩ := Option.bind_eq_some_iff.1 h
  obtain ⟨r, _, h⟩ := Option.bind_eq_some_iff.1 h
  obtain ⟨analyzer, hanalyzer, h⟩ := Option.bind_eq_some_iff.1 h
  obtain ⟨polling, hpolling, h⟩ := Option.bind_eq_some_iff.1 h
  obtain ⟨layout, _, h⟩ := Option.bind_eq_some_iff.1 h
  cases h
  have hdefault : AnalyzerSettings.Fits {} ∧ PollSettings.Fits {} := by
    simp [AnalyzerSettings.Fits, PollSettings.Fits]
  exact ⟨Json.Record.withDefault_induction hanalyzer hdefault.1 AnalyzerSettings.fits_of_ofJson?,
    Json.Record.withDefault_induction hpolling hdefault.2 PollSettings.fits_of_ofJson?⟩

theorem written_toJson (s : Settings) :
    s.toJson.written = .object [("analyzer", s.analyzer.toJson), ("polling", s.polling.toJson),
      ("layout", s.layout.toJson.written)] :=
  rfl

/-- Settings are read back from their own text, unless a length in them is not finite. -/
theorem ofText?_text (h : s.Fits) :
    ofText? s.text = if s.layout.IsFinite then some s else none := by
  have hlegible : s.toJson.written.Legible := by
    rw [written_toJson]
    exact ⟨AnalyzerSettings.legible_toJson h.1, PollSettings.legible_toJson h.2,
      s.layout.legible_written_toJson, trivial⟩
  rw [ofText?, text, Json.parse?_pretty_eq_written hlegible, Option.bind_some, written_toJson]
  simp only [ofJson?, Option.bind_eq_bind]
  refine Json.Record.ofKeys?_object_bind rfl (by decide) fun r hget => ?_
  simp only [List.forall_mem_cons] at hget
  simp only [Json.Record.withDefault, hget, AnalyzerSettings.ofJson?_toJson h.1,
    PollSettings.ofJson?_toJson h.2, Metrics.ofJson?_written_toJson, Option.bind_some]
  split <;> rfl

theorem beq_self_of_isFinite (h : s.layout.IsFinite) : (s == s) = true := by
  have hanalyzer : (s.analyzer == s.analyzer) = true := by
    show instBEqAnalyzerSettings.beq _ _ = true
    simp [instBEqAnalyzerSettings.beq]
  have hpolling : (s.polling == s.polling) = true := by
    show instBEqPollSettings.beq _ _ = true
    simp [instBEqPollSettings.beq]
  show instBEqSettings.beq s s = true
  simp only [instBEqSettings.beq, hanalyzer, hpolling, s.layout.beq_self_of_isFinite h,
    Bool.and_self]

theorem load_some_eq_ok_iff : load (some text) = .ok s ↔ ofText? text = some s := by
  cases h : ofText? text <;> simp [load, h]

theorem load_of_saveTo? (hfits : s.Fits) (hsave : saveTo? disk path s = some disk') :
    load (disk'.read? path) = if s.layout.IsFinite then .ok s else .error .malformed := by
  rw [Disk.read?_of_write? hsave, load, ofText?_text hfits]
  by_cases h : s.layout.IsFinite <;> simp [h]

/--
Loaded settings that are saved and loaded again are the same as before, if every length in them is
finite. If one is not, the file that was saved is malformed.
-/
theorem load_saved_loaded (hload : load (some text) = .ok s)
    (hsave : saveTo? disk path s = some disk') :
    load (disk'.read? path) = (if s.layout.IsFinite then .ok s else .error .malformed) ∧
      (isSavedAs disk' path s = true ↔ s.layout.IsFinite) := by
  have hagain := load_of_saveTo? (fits_of_ofText? (load_some_eq_ok_iff.1 hload)) hsave
  refine ⟨hagain, ?_⟩
  unfold isSavedAs
  by_cases h : s.layout.IsFinite
  · simp [hagain, h, beq_self_of_isFinite h]
  · simp [hagain, h]

theorem load_saved_tiny_width : ∃ s disk',
    load (some "\x7b\"layout\":\x7b\"card_width\":7.038531e-26\x7d\x7d") = .ok s ∧
      saveTo? {} "nested/settings.json" s = some disk' ∧
      load (disk'.read? "nested/settings.json") = .ok s ∧
      isSavedAs disk' "nested/settings.json" s = true := by
  have hruns : (ofText? "\x7b\"layout\":\x7b\"card_width\":7.038531e-26\x7d\x7d").any
      (fun s => s.layout.IsFinite && (saveTo? {} "nested/settings.json" s).isSome) = true := by
    decide +kernel
  obtain ⟨s, htext, hruns⟩ := (Option.any_eq_true _ _).1 hruns
  obtain ⟨hfinite, hsave⟩ : s.layout.IsFinite ∧ _ := by
    simpa only [Bool.and_eq_true, decide_eq_true_eq] using hruns
  obtain ⟨disk', hsave⟩ := Option.isSome_iff_exists.1 hsave
  have hload := load_some_eq_ok_iff.2 htext
  have hsaved := load_saved_loaded hload hsave
  exact ⟨s, disk', hload, hsave, hsaved.1.trans (if_pos hfinite), hsaved.2.2 hfinite⟩

/-- Too large a length is taken for infinity, and what is then saved cannot be loaded. -/
theorem load_saved_infinite_width : ∃ s disk',
    load (some "\x7b\"layout\":\x7b\"card_width\":1e39\x7d\x7d") = .ok s ∧
      saveTo? {} "settings.json" s = some disk' ∧
      load (disk'.read? "settings.json") = .error .malformed := by
  have hruns : (ofText? "\x7b\"layout\":\x7b\"card_width\":1e39\x7d\x7d").any
      (fun s => !s.layout.IsFinite && (saveTo? {} "settings.json" s).isSome) = true := by
    decide +kernel
  obtain ⟨s, htext, hruns⟩ := (Option.any_eq_true _ _).1 hruns
  obtain ⟨hinfinite, hsave⟩ : ¬s.layout.IsFinite ∧ _ := by
    simpa only [Bool.and_eq_true, Bool.not_eq_true', decide_eq_false_iff_not] using hruns
  obtain ⟨disk', hsave⟩ := Option.isSome_iff_exists.1 hsave
  have hagain := load_of_saveTo? (fits_of_ofText? htext) hsave
  exact ⟨s, disk', load_some_eq_ok_iff.2 htext, hsave, hagain.trans (if_neg hinfinite)⟩

end Settings

end CodeAtlas
