import CodeAtlas.Proofs.Layout.ListingOrder
import CodeAtlas.Proofs.Sample.Identifiers

/-! # Sample projects of every size

A project is listed file by file, each file followed by its members. Every member finds its file,
and every call finds the member it is meant for, in another file. The calls lead around all files
and back to the first one.
-/

namespace CodeAtlas.Sample

variable {files members file k step : ℕ}

/-! ## Nodes -/

/-- The classified node of a file. -/
def nodeOfFile (file : ℕ) : Node :=
  Node.ofRaw (RawNode.file (path file))

/-- The classified node of a member. -/
def nodeOfMember (file k : ℕ) : Node :=
  Node.ofRaw (memberNode file k)

/-- The classified nodes of a file and of its members. -/
def block (members file : ℕ) : List Node :=
  nodeOfFile file :: (List.range members).map (nodeOfMember file)

/-- The classified nodes of a project. -/
def nodes (files members : ℕ) : List Node :=
  classify (project files members).nodes

theorem hasParent_memberNode (file k : ℕ) : (memberNode file k).hasParent = true := by
  simp [RawNode.hasParent, memberNode, RawNode.member, isEmpty_path]

theorem kind_nodeOfMember (file k : ℕ) : (nodeOfMember file k).kind ≠ .file := by
  rw [nodeOfMember, Node.ofRaw, RawNode.kind, hasParent_memberNode]
  cases NodeId.hasClassMark (memberNode file k).id <;> simp

theorem parent_nodeOfMember (file k : ℕ) : (nodeOfMember file k).parent = some (path file) := by
  rw [nodeOfMember, Node.ofRaw, hasParent_memberNode]
  rfl

theorem nodes_eq_flatMap (files members : ℕ) :
    nodes files members = (List.range files).flatMap (block members) := by
  rw [nodes, classify, project, List.map_flatMap]
  congr 1
  funext file
  simp [fileNodes, block, nodeOfFile, nodeOfMember, Function.comp_def]

theorem nodes_succ (files members : ℕ) :
    nodes (files + 1) members = nodes files members ++ block members files := by
  simp [nodes_eq_flatMap, List.range_succ]

theorem length_nodes (files members : ℕ) :
    (nodes files members).length = files * (members + 1) := by
  induction files with
  | zero => simp [nodes_eq_flatMap]
  | succ files ih =>
      rw [nodes_succ, List.length_append, ih, Nat.succ_mul]
      simp [block]

theorem getElem?_nodes (h : file < files) :
    (nodes files members)[file * (members + 1)]? = some (nodeOfFile file) := by
  induction files with
  | zero => cases h
  | succ files ih =>
      rw [nodes_succ]
      rcases Nat.lt_succ_iff_lt_or_eq.mp h with hlt | rfl
      · rw [List.getElem?_append_left, ih hlt]
        rw [length_nodes]
        exact Nat.mul_lt_mul_of_pos_right hlt (Nat.succ_pos members)
      · rw [List.getElem?_append_right (Nat.le_of_eq (length_nodes file members)), length_nodes,
          Nat.sub_self]
        rfl

theorem mem_nodes {node : Node} :
    node ∈ nodes files members ↔
      ∃ file < files, node = nodeOfFile file ∨ ∃ k < members, node = nodeOfMember file k := by
  simp [nodes_eq_flatMap, block, eq_comm]

theorem countP_files (files members : ℕ) :
    (nodes files members).countP (·.kind.isContainer) = files := by
  have hmembers : ∀ file, ((List.range members).map (nodeOfMember file)).countP
      (·.kind.isContainer) = 0 := by
    intro file
    rw [List.countP_eq_zero]
    intro node hnode
    obtain ⟨k, -, rfl⟩ := List.mem_map.mp hnode
    simp [NodeKind.isContainer_eq_false (kind_nodeOfMember file k)]
  induction files with
  | zero => simp [nodes_eq_flatMap]
  | succ files ih =>
      rw [nodes_succ, List.countP_append, ih, block, List.countP_cons, hmembers]
      rfl

theorem isMemberOf_nodeOfMember (file file' k : ℕ) :
    Model.isMemberOf (path file) (nodeOfMember file' k) = true ↔ file' = file := by
  have hpath : path file' = path file ↔ file' = file := ⟨path_inj, congrArg path⟩
  simp [Model.isMemberOf, parent_nodeOfMember, hpath,
    NodeKind.isContainer_eq_false (kind_nodeOfMember file' k)]

theorem countP_block (members file file' : ℕ) :
    (block members file').countP (Model.isMemberOf (path file)) =
      if file' = file then members else 0 := by
  have hcontainer : ¬ Model.isMemberOf (path file) (nodeOfFile file') = true := Bool.false_ne_true
  rw [block, List.countP_cons_of_neg hcontainer]
  split
  · rename_i hfile
    have hall : ∀ node ∈ (List.range members).map (nodeOfMember file'),
        Model.isMemberOf (path file) node = true := by
      intro node hnode
      obtain ⟨k, -, rfl⟩ := List.mem_map.mp hnode
      exact (isMemberOf_nodeOfMember file file' k).mpr hfile
    rw [List.countP_eq_length.mpr hall, List.length_map, List.length_range]
  · rename_i hfile
    rw [List.countP_eq_zero]
    intro node hnode
    obtain ⟨k, -, rfl⟩ := List.mem_map.mp hnode
    exact mt (isMemberOf_nodeOfMember file file' k).mp hfile

/-- A file has as many members as every other one. -/
theorem countP_members (files members file : ℕ) :
    (nodes files members).countP (Model.isMemberOf (path file)) =
      if file < files then members else 0 := by
  induction files with
  | zero => simp [nodes_eq_flatMap]
  | succ files ih =>
      rw [nodes_succ, List.countP_append, ih, countP_block]
      split <;> split <;> split <;> omega

/-! ## Files, members and orphans -/

/-- The model of a project. -/
def model (files members : ℕ) : Model :=
  Model.ofNodes (nodes files members) (project files members).edges

theorem nodup_ids_nodes (files members : ℕ) : ((nodes files members).map (·.id)).Nodup := by
  rw [nodes, classify, List.map_map]
  exact nodup_ids_project files members

theorem distinctIds_model (files members : ℕ) : (model files members).DistinctIds :=
  Model.distinctIds_ofNodes _ _

theorem nodes_model (files members : ℕ) : (model files members).nodes = nodes files members :=
  firstByKey_eq_self (nodup_ids_nodes files members)

theorem length_files_model (files members : ℕ) : (model files members).files.length = files := by
  rw [Model.files_eq_positionsWhere, length_positionsWhere, nodes_model, countP_files]

theorem length_childrenOf_model {i : ℕ} (hi : i ∈ (model files members).files) :
    ((model files members).childrenOf i).length = members := by
  obtain ⟨owner, howner, hkind⟩ := Model.isFile_iff.mp (Model.mem_files.mp hi)
  have hmem := List.mem_of_getElem? howner
  rw [nodes_model, mem_nodes] at hmem
  obtain ⟨file, hfile, rfl | ⟨k, -, rfl⟩⟩ := hmem
  · rw [Model.length_childrenOf howner hkind, nodes_model]
    exact (countP_members files members file).trans (if_pos hfile)
  · exact absurd hkind (kind_nodeOfMember file k)

theorem orphans_model (files members : ℕ) : (model files members).orphans = [] := by
  rw [Model.orphans_eq_positionsWhere, nodes_model, ← List.length_eq_zero_iff,
    length_positionsWhere, List.countP_eq_zero]
  intro node hnode horphan
  obtain ⟨hkind, hparent⟩ := Model.isOrphan_iff.mp horphan
  obtain ⟨file, hfile, rfl | ⟨k, -, rfl⟩⟩ := mem_nodes.mp hnode
  · exact hkind rfl
  · exact hparent (nodeOfFile file) (mem_nodes.mpr ⟨file, hfile, Or.inl rfl⟩) rfl
      (parent_nodeOfMember file k)

theorem fileOf?_memberNode (hfile : file < files) (hk : k < members) :
    (model files members).fileOf? (memberNode file k).id = some (file * (members + 1)) := by
  rw [Model.fileOf?_eq_some_iff (distinctIds_model files members), nodes_model]
  refine ⟨nodeOfFile file, getElem?_nodes hfile, mem_nodes.mpr ⟨file, hfile, Or.inl rfl⟩, rfl,
    nodeOfMember file k, mem_nodes.mpr ⟨file, hfile, Or.inr ⟨k, hk, rfl⟩⟩, rfl, Or.inr ?_⟩
  exact ⟨kind_nodeOfMember file k, parent_nodeOfMember file k⟩

/-! ## Calls -/

/-- The call of a member to the entry point of another file. -/
def call (file k target : ℕ) : Edge :=
  { source := (memberNode file k).id, target := entryPoint target }

/-- Going on from file to file leads back to the same file after whole turns only. -/
theorem add_mod_eq_iff (hfile : file < files) : (file + step) % files = file ↔ files ∣ step := by
  constructor
  · intro hback
    have hturns := Nat.dvd_sub_mod (n := files) (file + step)
    rwa [hback, Nat.add_sub_cancel_left] at hturns
  · rintro ⟨turns, rfl⟩
    rw [Nat.add_mul_mod_self_left, Nat.mod_eq_of_lt hfile]

theorem mem_edges {edge : Edge} :
    edge ∈ (project files members).edges ↔
      ∃ file < files, ∃ k < members, ∃ step ∈ [1, 2], (file + step) % files ≠ file ∧
        call file k ((file + step) % files) = edge := by
  simp [project, calls, call]

/-- Every file has a second member, so a call finds the member it is meant for. -/
theorem liftEdge?_call {target : ℕ} (hmembers : 2 ≤ members) (hfile : file < files)
    (hk : k < members) (htarget : target < files) (hne : target ≠ file) :
    (model files members).liftEdge? (call file k target) =
      some (file * (members + 1), target * (members + 1)) := by
  rw [Model.liftEdge?_eq_some_iff]
  refine ⟨?_, fileOf?_memberNode hfile hk, ?_⟩
  · intro hsame
    exact hne (Nat.eq_of_mul_eq_mul_right (Nat.succ_pos members) hsame).symm
  · rw [call, entryPoint_eq_id]
    exact fileOf?_memberNode htarget hmembers

theorem exists_liftEdge? (hmembers : 2 ≤ members) {edge : Edge}
    (hedge : edge ∈ (project files members).edges) :
    ∃ pair, (model files members).liftEdge? edge = some pair := by
  obtain ⟨file, hfile, k, hk, step, -, hne, rfl⟩ := mem_edges.mp hedge
  exact ⟨_, liftEdge?_call hmembers hfile hk (Nat.mod_lt _ (by omega)) hne⟩

theorem length_fileEdges (hmembers : 2 ≤ members) :
    (model files members).fileEdges.length = (project files members).edges.length := by
  rw [Model.fileEdges, List.length_filterMap_eq_countP]
  apply List.countP_eq_length.mpr
  intro edge hedge
  obtain ⟨pair, hpair⟩ := exists_liftEdge? hmembers hedge
  rw [hpair, Option.isSome_some]

theorem length_calls (hfile : file < files) (k : ℕ) :
    (calls files file k).length = [1, 2].countP fun step => ¬ files ∣ step := by
  rw [calls, List.length_filterMap_eq_countP]
  apply List.countP_congr
  intro step _
  simp [add_mod_eq_iff hfile]

theorem length_flatMap_range {α : Type} {n size : ℕ} {part : ℕ → List α}
    (h : ∀ i < n, (part i).length = size) : ((List.range n).flatMap part).length = n * size := by
  induction n with
  | zero => simp
  | succ n ih =>
      have hbefore := ih fun i hi => h i (Nat.lt_succ_of_lt hi)
      rw [List.range_succ, List.flatMap_append, List.length_append, hbefore, List.flatMap_singleton,
        h n (Nat.lt_succ_self n), Nat.succ_mul]

theorem length_edges (files members : ℕ) :
    (project files members).edges.length =
      files * (members * [1, 2].countP fun step => ¬ files ∣ step) :=
  length_flatMap_range fun _ hfile => length_flatMap_range fun k _ => length_calls hfile k

theorem length_edges_of_three_le (hfiles : 3 ≤ files) (members : ℕ) :
    (project files members).edges.length = 2 * files * members := by
  have hcount : ([1, 2].countP fun step => ¬ files ∣ step) = 2 := by
    apply List.countP_eq_length.mpr
    intro step hstep
    have hlt : step < files ∧ 0 < step := by
      simp only [List.mem_cons, List.not_mem_nil, or_false] at hstep
      omega
    simpa using Nat.not_dvd_of_pos_of_lt hlt.2 hlt.1
  rw [length_edges, hcount, ← Nat.mul_assoc, Nat.mul_comm, ← Nat.mul_assoc]

theorem length_edges_two (members : ℕ) : (project 2 members).edges.length = 2 * members := by
  rw [length_edges, show ([1, 2].countP fun step => ¬ 2 ∣ step) = 1 from by decide, Nat.mul_one]

theorem length_edges_of_le_one (hfiles : files ≤ 1) (members : ℕ) :
    (project files members).edges.length = 0 := by
  rw [length_edges]
  rcases Nat.le_one_iff_eq_zero_or_eq_one.mp hfiles with rfl | rfl <;> simp

/-! ## The way around -/

theorem mem_fileEdges (hmembers : 2 ≤ members) (hfiles : 2 ≤ files) (hfile : file < files) :
    (file * (members + 1), (file + 1) % files * (members + 1)) ∈
      (model files members).fileEdges := by
  have hne : (file + 1) % files ≠ file := by
    rw [ne_eq, add_mod_eq_iff hfile, Nat.dvd_one]
    omega
  refine List.mem_filterMap.mpr ⟨call file 0 ((file + 1) % files), ?_, ?_⟩
  · exact mem_edges.mpr ⟨file, hfile, 0, by omega, 1, by simp, hne, rfl⟩
  · exact liftEdge?_call hmembers hfile (by omega) (Nat.mod_lt _ (by omega)) hne

theorem mem_fileEdges_next (hmembers : 2 ≤ members) (hfile : file + 1 < files) :
    (file * (members + 1), (file + 1) * (members + 1)) ∈ (model files members).fileEdges := by
  have hnext := mem_fileEdges hmembers (by omega) (Nat.lt_of_succ_lt hfile)
  rwa [Nat.mod_eq_of_lt hfile] at hnext

theorem reaches_file (hmembers : 2 ≤ members) (hfile : file + 1 < files) :
    Layout.Reaches (model files members).fileEdges 0 ((file + 1) * (members + 1)) := by
  have hstep := mem_fileEdges_next hmembers hfile
  induction file with
  | zero =>
      rw [Nat.zero_mul] at hstep
      exact .single hstep
  | succ file ih =>
      have hbefore : file + 1 < files := Nat.lt_of_succ_lt hfile
      exact .tail (ih hbefore (mem_fileEdges_next hmembers hbefore)) hstep

/-- From the first file calls lead through all files and back. -/
theorem reaches_first (hmembers : 2 ≤ members) (hfiles : 2 ≤ files) :
    Layout.Reaches (model files members).fileEdges 0 0 := by
  obtain ⟨last, rfl⟩ := Nat.exists_eq_add_of_le' hfiles
  -- Only the last file has the first one as the next.
  have hback : ((last + 1) * (members + 1), 0) ∈ (model (last + 2) members).fileEdges := by
    have hnext := mem_fileEdges hmembers hfiles (Nat.lt_succ_self (last + 1))
    rwa [Nat.mod_self, Nat.zero_mul] at hnext
  exact .tail (reaches_file hmembers (Nat.lt_succ_self (last + 1))) hback

/--
A project with at least two members in each file is well formed, whatever its size. No identifier
repeats, no member is an orphan, and each file has its members. Every call leads from one file to
another one, so all of them are edges between files; there are two for each member, one if there
are only two files, and none if there is only one. The calls between files form a cycle as soon as
there are two files.
-/
theorem project_well_formed (files members : ℕ) (hmembers : 2 ≤ members) :
    let nodes : List Node := classify (project files members).nodes
    let edges : List Edge := (project files members).edges
    let m : Model := Model.ofNodes nodes edges
    (nodes.length = files * (members + 1) ∧ (nodes.map (·.id)).Nodup) ∧
      (m.orphans = [] ∧ m.files.length = files ∧
        ∀ file ∈ m.files, (m.childrenOf file).length = members) ∧
      (∀ edge ∈ edges, ∃ source target, m.fileOf? edge.source = some source ∧
        m.fileOf? edge.target = some target ∧ source ≠ target) ∧
      m.fileEdges.length = edges.length ∧
      ((3 ≤ files → edges.length = 2 * files * members) ∧
        (files = 2 → edges.length = files * members) ∧ (files ≤ 1 → edges.length = 0)) ∧
      (2 ≤ files → ∃ file, Layout.Reaches m.fileEdges file file) := by
  intro nodes edges m
  refine ⟨⟨length_nodes files members, nodup_ids_nodes files members⟩,
    ⟨orphans_model files members, length_files_model files members,
      fun file => length_childrenOf_model⟩, ?_, length_fileEdges hmembers, ⟨?_, ?_, ?_⟩, ?_⟩
  · intro edge hedge
    obtain ⟨⟨source, target⟩, hpair⟩ := exists_liftEdge? hmembers hedge
    obtain ⟨hne, hsource, htarget⟩ := Model.liftEdge?_eq_some_iff.mp hpair
    exact ⟨source, target, hsource, htarget, hne⟩
  · exact fun hfiles => length_edges_of_three_le hfiles members
  · rintro rfl
    exact length_edges_two members
  · exact fun hfiles => length_edges_of_le_one hfiles members
  · exact fun hfiles => ⟨0, reaches_first hmembers hfiles⟩

/-- With two files a member calls into the other file once, and the two files call each other. -/
theorem smallest_cycle_well_formed :
    let edges : List Edge := (project 2 2).edges
    let m : Model := Model.ofNodes (classify (project 2 2).nodes) edges
    (m.orphans = [] ∧ m.files.length = 2) ∧ edges.length = 4 ∧ m.fileEdges.length = 4 ∧
      ∃ file, Layout.Reaches m.fileEdges file file := by
  intro edges m
  obtain ⟨-, ⟨horphans, hfiles, -⟩, -, hlifted, ⟨-, hcount, -⟩, hcycle⟩ :=
    project_well_formed 2 2 (Nat.le_refl 2)
  exact ⟨⟨horphans, hfiles⟩, hcount rfl, hlifted.trans (hcount rfl), hcycle (Nat.le_refl 2)⟩

end CodeAtlas.Sample
