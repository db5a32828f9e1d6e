import CodeAtlas.Disk

/-! # Reading what was written

Writing a file makes the folders that lead to it. Afterwards they can be followed, and the file is
found at their end.
-/

namespace CodeAtlas.Disk

variable {d d' : Disk} {here there segments : List String}

/-- No folder gets lost while folders are made. -/
theorem isFolder_of_makeFolders? (h : d.makeFolders? here segments = some (d', there))
    {place : List String} (hplace : d.isFolder place = true) : d'.isFolder place = true := by
  fun_induction makeFolders? d here segments with
  | case1 d here =>
      cases h
      exact hplace
  | case2 d here segment rest hstep ih => exact ih h hplace
  | case3 => cases h
  | case4 d here segment rest hstep next hfree hfolder ih => exact ih h hplace
  | case5 d here segment rest hstep next hfree hfolder ih =>
      refine ih h ?_
      rw [isFolder, Bool.or_eq_true] at hplace ⊢
      refine hplace.imp_right fun hmem => ?_
      rw [List.contains_cons, hmem, Bool.or_true]

/-- Folders that were made can be followed, also with other files and more folders around. -/
theorem descend?_of_makeFolders? (h : d.makeFolders? here segments = some (d', there))
    {later : Disk} (hlater : ∀ place, d'.isFolder place = true → later.isFolder place = true) :
    later.descend? here segments = some there := by
  fun_induction makeFolders? d here segments with
  | case1 d here =>
      cases h
      rfl
  | case2 d here segment rest hstep ih =>
      rw [descend?, if_pos hstep]
      exact ih h
  | case3 => cases h
  | case4 d here segment rest hstep next hfree hfolder ih =>
      rw [descend?, if_neg hstep, if_pos (hlater _ (isFolder_of_makeFolders? h hfolder))]
      exact ih h
  | case5 d here segment rest hstep next hfree hfolder ih =>
      have hmade : isFolder { d with folders := next :: d.folders } next = true := by
        simp [isFolder]
      rw [descend?, if_neg hstep, if_pos (hlater _ (isFolder_of_makeFolders? h hmade))]
      exact ih h

/-- A written file holds its text. -/
theorem read?_of_write? {path text : String} (h : d.write? path text = some d') :
    d'.read? path = some text := by
  obtain ⟨⟨folders, name⟩, hsplit, h⟩ := Option.bind_eq_some_iff.1 h
  obtain ⟨⟨made, place⟩, hmake, h⟩ := Option.bind_eq_some_iff.1 h
  simp only at h
  split at h
  · cases h
  · next hfits =>
      cases h
      have hdescend : descend? { made with files := (place ++ [name], text) :: made.files } []
          folders = some place :=
        descend?_of_makeFolders? hmake fun _ hfolder => hfolder
      have hlimit : path.utf8ByteSize ≤ pathLimit := by
        simp only [Bool.or_eq_true, decide_eq_true_eq, not_or] at hfits
        omega
      simp only [read?, hsplit, Option.bind_eq_bind, Option.bind_some, hdescend, if_pos hlimit,
        List.lookup_cons, beq_self_eq_true]

end CodeAtlas.Disk
