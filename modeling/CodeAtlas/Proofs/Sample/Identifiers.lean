import CodeAtlas.Proofs.Explorer.Trails
import CodeAtlas.Sample

/-! # The identifiers of a sample project

A file is named by its number and a member by its file and its own number. The names can be taken
apart again: the member mark ends the path of the file, the last segment of the path holds the
number of the file, and numerals name numbers one to one. So no two nodes have one identifier.
-/

namespace CodeAtlas

namespace NodeId

/-- Before the first mark stands what is put before a mark, if it has no character of the mark. -/
theorem cutAt?_append_mark {mark : Char} {before after : List Char} (h : mark ∉ before) :
    cutAt? [mark, mark] (before ++ mark :: mark :: after) = some (before, after) := by
  induction before with
  | nil => simp [cutAt?]
  | cons c before ih =>
      rw [List.mem_cons, not_or] at h
      rw [List.cons_append, cutAt?, ih h.2]
      simp [h.1]

theorem cutAt?_eq_none {mark : Char} {cs : List Char} (h : mark ∉ cs) :
    cutAt? [mark, mark] cs = none := by
  induction cs with
  | nil => rfl
  | cons c cs ih =>
      rw [List.mem_cons, not_or] at h
      rw [cutAt?, ih h.2]
      simp [h.1]

theorem filePart_member {file : String} (h : ':' ∉ file.toList) (name : String) :
    filePart (member file name) = file := by
  have hcut : cutAt? memberMark.toList (member file name).toList =
      some (file.toList, name.toList) := by
    rw [member, String.toList_append, String.toList_append, List.append_assoc]
    exact cutAt?_append_mark h
  simp [filePart, hcut]

theorem filePart_of_not_mem {id : NodeId} (h : ':' ∉ id.toList) : filePart id = id := by
  have hcut : cutAt? memberMark.toList id.toList = none := cutAt?_eq_none h
  simp [filePart, hcut]

theorem member_inj {file name name' : String} : member file name = member file name' ↔ name = name' :=
  String.append_right_inj (file ++ memberMark)

theorem member_ne_file (file name : String) : member file name ≠ file := by
  intro h
  have hlength := congrArg String.length h
  rw [member, String.length_append, String.length_append] at hlength
  have hmark : memberMark.length = 2 := rfl
  omega

end NodeId

namespace Sample

/-! ## Numerals and names -/

theorem not_mem_toDigits {c : Char} (hc : c.isDigit = false) (n : ℕ) : c ∉ Nat.toDigits 10 n := by
  intro hmem
  rw [Nat.isDigit_of_mem_toDigits (by decide) (by decide) hmem] at hc
  cases hc

/-- A numeral is read back, so it stands for one number. -/
theorem numeral_inj {k l : ℕ} (h : Nat.repr k = Nat.repr l) : k = l := by
  rw [Nat.repr_eq_ofList_toDigits, Nat.repr_eq_ofList_toDigits, String.ofList_inj] at h
  have hread := congrArg (Nat.ofDigitChars 10 · 0) h
  simpa [Nat.ofDigitChars_toDigits] using hread

theorem memberName_inj {file k l : ℕ} (h : memberName file k = memberName file l) : k = l := by
  -- The name of the class and that of a function differ in their first character.
  have hclass : ∀ k, memberName file 0 ≠ memberName file (k + 1) := by
    intro k h
    have hfirst := congrArg (fun name => name.toList.head?) h
    simp [memberName] at hfirst
  cases k with
  | zero =>
      cases l with
      | zero => rfl
      | succ l => exact absurd h (hclass l)
  | succ k =>
      cases l with
      | zero => exact absurd h.symm (hclass k)
      | succ l => exact numeral_inj ((String.append_right_inj "func_").mp h)

/-! ## Paths -/

theorem path_eq_ofSegments (file : ℕ) :
    path file = NodeId.ofSegments ["pkg", "mod_" ++ Nat.repr (file % folderCount),
      "file_" ++ Nat.repr file ++ ".py"] := by
  rw [← String.toList_inj]
  simp [path, NodeId.ofSegments, NodeId.pathMark]

theorem segments_path (file : ℕ) :
    NodeId.segments (path file) = ["pkg", "mod_" ++ Nat.repr (file % folderCount),
      "file_" ++ Nat.repr file ++ ".py"] := by
  have hslash : ∀ n, '/' ∉ Nat.toDigits 10 n := not_mem_toDigits (by decide)
  rw [path_eq_ofSegments, NodeId.segments_ofSegments (by simp)]
  simp [NodeId.IsSegment, hslash, NodeId.pathMark]

theorem path_inj {file file' : ℕ} (h : path file = path file') : file = file' := by
  have hsegments := congrArg NodeId.segments h
  rw [segments_path, segments_path] at hsegments
  simp only [List.cons.injEq, and_true, true_and] at hsegments
  exact numeral_inj ((String.append_right_inj "file_").mp
    ((String.append_left_inj ".py").mp hsegments.2))

theorem not_mem_path (file : ℕ) : ':' ∉ (path file).toList := by
  have hcolon : ∀ n, ':' ∉ Nat.toDigits 10 n := not_mem_toDigits (by decide)
  simp [path, hcolon]

theorem isEmpty_path (file : ℕ) : (path file).isEmpty = false := by
  rw [Bool.eq_false_iff, ne_eq, String.isEmpty_iff, ← String.toList_inj]
  simp [path]

/-! ## Identifiers -/

/-- The name that calls use, written out in one piece, is put together from path and member. -/
theorem entryPoint_eq_id (file : ℕ) : entryPoint file = (memberNode file 1).id := by
  have hname : memberName file 1 = "func_1" := rfl
  show entryPoint file = path file ++ NodeId.memberMark ++ memberName file 1
  rw [hname, ← String.toList_inj]
  simp [entryPoint, path, folderCount, NodeId.memberMark]

/-- The identifier of a node leads back to its file. -/
theorem filePart_of_mem_fileNodes {members file : ℕ} {raw : RawNode}
    (h : raw ∈ fileNodes members file) : NodeId.filePart raw.id = path file := by
  rcases List.mem_cons.mp h with rfl | hmember
  · exact NodeId.filePart_of_not_mem (not_mem_path file)
  · obtain ⟨k, -, rfl⟩ := List.mem_map.mp hmember
    exact NodeId.filePart_member (not_mem_path file) (memberName file k)

theorem nodup_ids_fileNodes (members file : ℕ) : ((fileNodes members file).map (·.id)).Nodup := by
  rw [fileNodes, List.map_cons, List.nodup_cons, List.map_map]
  constructor
  · intro hmem
    obtain ⟨k, -, hk⟩ := List.mem_map.mp hmem
    exact NodeId.member_ne_file _ _ hk
  · apply List.nodup_range.map_on
    intro k _ l _ hsame
    exact memberName_inj (NodeId.member_inj.mp hsame)

/-- No two nodes of a project have one identifier. -/
theorem nodup_ids_project (files members : ℕ) :
    ((project files members).nodes.map (·.id)).Nodup := by
  rw [project, List.map_flatMap, List.nodup_flatMap]
  refine ⟨fun file _ => nodup_ids_fileNodes members file, ?_⟩
  refine List.nodup_range.imp ?_
  intro file file' hne id hid hid'
  obtain ⟨raw, hraw, rfl⟩ := List.mem_map.mp hid
  obtain ⟨raw', hraw', hsame⟩ := List.mem_map.mp hid'
  -- A common identifier would lead back to the paths of both files.
  apply hne
  apply path_inj
  rw [← filePart_of_mem_fileNodes hraw, ← filePart_of_mem_fileNodes hraw', hsame]

end Sample

end CodeAtlas
