import CodeAtlas.Proofs.Controller.Calls
import CodeAtlas.Proofs.Session.Polling
import CodeAtlas.Proofs.View.Ownership

/-! # Clicks that ask for a dependency

A dependency has no text, and a click on one asks for none. What is clicked is tested, though,
and not the file that is asked for: a click on a member asks for the parent that the member
names, whatever that is. In this way, and in no other, a dependency is asked for like a file.
-/

namespace CodeAtlas

namespace NodeId

theorem cutAt?_append {α : Type} [BEq α] {mark xs before after : List α}
    (h : cutAt? mark xs = some (before, after)) : before <+: xs := by
  induction xs generalizing before after with
  | nil =>
      unfold cutAt? at h
      split at h
      · cases h
        exact List.nil_prefix
      · cases h
  | cons c cs ih =>
      unfold cutAt? at h
      split at h
      · cases h
        exact List.nil_prefix
      · obtain ⟨cut, hcut, heq⟩ := Option.map_eq_some_iff.mp h
        cases heq
        exact List.prefix_cons_inj c |>.mpr (ih hcut)

theorem filePart_isPrefix (id : NodeId) : (filePart id).toList <+: id.toList := by
  unfold filePart
  split
  · rename_i before after hcut
    rw [String.toList_ofList]
    exact cutAt?_append hcut
  · exact List.prefix_rfl

theorem isDependency_iff {id : NodeId} :
    isDependency id = true ↔ dependencyMark.toList <+: id.toList :=
  List.isPrefixOf_iff_prefix

/-- The part of an identifier that names a file names no dependency unless all of it does. -/
theorem isDependency_filePart {id : NodeId} (h : isDependency id = false) :
    isDependency (filePart id) = false := by
  rw [← Bool.not_eq_true, isDependency_iff] at h ⊢
  exact fun hpart => h (hpart.trans (filePart_isPrefix id))

end NodeId

namespace Snapshot

/-- The identifier is that of no dependency, but its first node names one as its parent. -/
def BelongsToDependency (s : Snapshot) (id : NodeId) : Prop :=
  NodeId.isDependency id = false ∧
    ∃ first parent, s.first? id = some first ∧ first.parent = some parent ∧
      NodeId.isDependency parent = true

theorem find?_classify (s : Snapshot) (id : NodeId) :
    ((classify s.nodes).find? fun node => node.id == id) = (s.first? id).map Node.ofRaw := by
  rw [classify, List.find?_map]
  rfl

end Snapshot

theorem RawNode.hasParent_of_dependency {raw : RawNode} {parent : NodeId}
    (hparent : raw.parent = some parent) (h : NodeId.isDependency parent = true) :
    raw.hasParent = true := by
  cases hempty : parent.isEmpty with
  | false => simp [hasParent, hparent, hempty]
  | true =>
      rw [String.isEmpty_iff.mp hempty] at h
      cases h

theorem RawNode.kind_eq_file_iff {raw : RawNode} : raw.kind = .file ↔ raw.hasParent = false := by
  unfold kind
  cases raw.hasParent with
  | false => simp
  | true => cases NodeId.hasClassMark raw.id <;> simp

namespace View

/-- Of the three ways to find the file of a node, only the parent can lead to a dependency. -/
theorem isDependency_owningFile_iff (generation : ℕ) (snapshot : Snapshot)
    (metrics : Metrics Float32) {id : NodeId} (hid : NodeId.isDependency id = false) :
    NodeId.isDependency ((build generation snapshot metrics).owningFile id) = true ↔
      snapshot.BelongsToDependency id := by
  have hnode : (build generation snapshot metrics).node? id = (snapshot.first? id).map Node.ofRaw :=
    snapshot.find?_classify id
  have hpart := NodeId.isDependency_filePart hid
  rw [owningFile, hnode]
  cases hfirst : snapshot.first? id with
  | none => simp [Snapshot.BelongsToDependency, hfirst, hpart]
  | some first =>
      have hfirstId : first.id = id := by simpa using List.find?_some hfirst
      cases hmember : first.hasParent with
      | false =>
          have hkind : (Node.ofRaw first).kind = .file := RawNode.kind_eq_file_iff.mpr hmember
          have hnone : ¬snapshot.BelongsToDependency id := by
            rintro ⟨-, first', parent, hfirst', hparent, hdependency⟩
            cases hfirst.symm.trans hfirst'
            rw [RawNode.hasParent_of_dependency hparent hdependency] at hmember
            cases hmember
          simp only [Option.map_some, if_pos hkind]
          show NodeId.isDependency first.id = true ↔ _
          rw [hfirstId, hid]
          simp [hnone]
      | true =>
          have hkind : (Node.ofRaw first).kind ≠ .file := by
            intro hfile
            rw [RawNode.kind_eq_file_iff.mp hfile] at hmember
            cases hmember
          have hparent : (Node.ofRaw first).parent = first.parent := by simp [Node.ofRaw, hmember]
          simp only [Option.map_some, if_neg hkind, hparent]
          cases hnamed : first.parent with
          | none => simp [Snapshot.BelongsToDependency, hfirst, hnamed, hpart]
          | some parent => simp [Snapshot.BelongsToDependency, hfirst, hnamed, hid]

/-- The file that a click asks for. -/
def requested (v : View) : Target → Option String
  | .graphNode id => if NodeId.isDependency id then none else some (v.owningFile id)
  | .file path => if NodeId.isDependency path then none else some path
  | .folder _ => none
  | .dependency _ => none

theorem requested_dependency_iff (generation : ℕ) (snapshot : Snapshot)
    (metrics : Metrics Float32) (target : Target) :
    (∃ path ∈ (build generation snapshot metrics).requested target,
        NodeId.isDependency path = true) ↔
      ∃ id, target = .graphNode id ∧ snapshot.BelongsToDependency id := by
  cases target with
  | folder path => simp [requested]
  | dependency name => simp [requested]
  | file path =>
      cases hpath : NodeId.isDependency path with
      | true => simp [requested, hpath]
      | false => simp [requested, hpath]
  | graphNode id =>
      cases hid : NodeId.isDependency id with
      | true => simp [requested, hid, Snapshot.BelongsToDependency]
      | false => simp [requested, hid, isDependency_owningFile_iff generation snapshot metrics hid]

end View

namespace Interaction

/-- What a click publishes holds one request for a file or none. -/
theorem openFile_mem_activate_iff (i : Interaction) (v : View) (target : Target) (path : String) :
    (∃ focus, Event.openFile path focus ∈ (i.activate v target).2) ↔
      v.requested target = some path := by
  cases target with
  | folder folder =>
      simp only [activate, toggle, View.requested]
      split <;> simp
  | dependency name => simp [activate, announce, openModule, View.requested]
  | file file =>
      cases hfile : NodeId.isDependency file with
      | true =>
          simp [activate, announce, openModule, View.requested, NodeId.dependencyName?, hfile]
      | false =>
          simp [activate, announce, openFile, View.requested, NodeId.dependencyName?, hfile,
            eq_comm]
  | graphNode id =>
      cases hid : NodeId.isDependency id with
      | true => simp [activate, announce, openModule, View.requested, NodeId.dependencyName?, hid]
      | false =>
          simp [activate, announce, openFile, View.requested, NodeId.dependencyName?, hid, eq_comm]

end Interaction

namespace Session

/-- A file is asked for by one call, and by none while the analyzer is offline. -/
theorem calls_loadFile (script : Script) (path : String) (focus : Option NodeId)
    (s : Session World) :
    (loadFile script.analyzer path focus s).2.world.calls =
      s.world.calls ++
        if s.controller.status.backendOnline then [⟨s.world.now, .file path⟩] else [] := by
  cases honline : s.controller.status.backendOnline with
  | false => simp [loadFile_offline _ _ _ _ honline]
  | true =>
      rw [loadFile_online _ _ _ _ honline]
      exact congrArg Prod.fst (ScriptM.log_performAsides (script.file path).during _)

/-- Following what a click has published asks for the file that it requests. -/
theorem calls_followEach_activate (script : Script) (s : Session World) (i : Interaction)
    (v : View) (target : Target) :
    (followEach script.analyzer (i.activate v target).2 s).2.world.calls =
      s.world.calls ++ if s.controller.status.backendOnline then
        (v.requested target).toList.map fun path => ⟨s.world.now, .file path⟩ else [] := by
  cases target with
  | folder folder =>
      simp only [Interaction.activate, Interaction.toggle, View.requested, Option.toList_none,
        List.map_nil, ite_self, List.append_nil]
      split <;> rfl
  | dependency name =>
      simp only [View.requested, Option.toList_none, List.map_nil, ite_self, List.append_nil]
      rfl
  | file file =>
      cases hfile : NodeId.isDependency file with
      | true =>
          simp only [Interaction.activate, NodeId.dependencyName?, View.requested, hfile, if_true,
            Option.toList_none, List.map_nil, ite_self, List.append_nil]
          rfl
      | false =>
          simp only [Interaction.activate, NodeId.dependencyName?, View.requested, hfile]
          exact calls_loadFile script file none s
  | graphNode id =>
      cases hid : NodeId.isDependency id with
      | true =>
          simp only [Interaction.activate, NodeId.dependencyName?, View.requested, hid, if_true,
            Option.toList_none, List.map_nil, ite_self, List.append_nil]
          rfl
      | false =>
          simp only [Interaction.activate, NodeId.dependencyName?, View.requested, hid]
          exact calls_loadFile script (v.owningFile id) (some id) s

end Session

namespace View

/--
A click publishes a request for the text of a dependency exactly if it is a click on a node
that is no dependency and whose first report names one as its parent. Following what the click
has published then asks the analyzer for this text, if it is online.
-/
theorem asks_for_dependency_iff (generation : ℕ) (snapshot : Snapshot)
    (metrics : Metrics Float32) (i : Interaction) (target : Target) :
    let events := (i.activate (build generation snapshot metrics) target).2
    ((∃ path focus, Event.openFile path focus ∈ events ∧ NodeId.isDependency path = true) ↔
      ∃ id, target = .graphNode id ∧ snapshot.BelongsToDependency id) ∧
    ∀ (script : Script) (s : Session World), ∃ asked : List String,
      (Session.followEach script.analyzer events s).2.world.calls =
        s.world.calls ++ asked.map (fun path => ⟨s.world.now, .file path⟩) ∧
      ((∃ path ∈ asked, NodeId.isDependency path = true) ↔
        s.controller.status.backendOnline = true ∧
          ∃ id, target = .graphNode id ∧ snapshot.BelongsToDependency id) := by
  intro events
  have hrequest := requested_dependency_iff generation snapshot metrics target
  constructor
  · rw [← hrequest]
    refine exists_congr fun path => ?_
    rw [exists_and_right, Interaction.openFile_mem_activate_iff, Option.mem_def]
  · intro script s
    have hcalls := Session.calls_followEach_activate script s i (build generation snapshot metrics)
      target
    cases honline : s.controller.status.backendOnline with
    | false =>
        refine ⟨[], ?_, by simp⟩
        rw [hcalls, honline]
        rfl
    | true =>
        refine ⟨((build generation snapshot metrics).requested target).toList, ?_, ?_⟩
        · rw [hcalls, honline]
          rfl
        · simpa using hrequest

/-- A function that is said to belong to a library. -/
def libraryMember : Snapshot where
  nodes := [{ id := "f", parent := some "module:os" }]

/-- A click on the function asks for the library as if it were a file. -/
theorem libraryMember_asks_for_dependency :
    Event.openFile "module:os" (some "f") ∈
        (({} : Interaction).activate (build 1 libraryMember Metrics.standard) (.graphNode "f")).2 ∧
      NodeId.isDependency "module:os" = true :=
  ⟨List.mem_of_getElem? (i := 1) rfl, by decide⟩

end View

end CodeAtlas
