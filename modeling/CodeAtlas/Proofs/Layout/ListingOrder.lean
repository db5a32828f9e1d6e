import CodeAtlas.Proofs.Graph.Listing
import CodeAtlas.Proofs.Layout.Completeness
import CodeAtlas.Proofs.Layout.Relabelling

/-! # The order of a listing does not move anything

A drawing numbers its files in the order in which they are listed, and its arcs in the
order of the edges. If the edges between files form no cycle, then another listing of the
same nodes and edges leads to a relabelled graph of files, which is placed alike. Members
and orphans stay where they are as long as they keep their order among themselves.
-/

namespace CodeAtlas

namespace Model

variable {m m' : Model} {π : Equiv.Perm ℕ} {edge : Edge} {id : NodeId} {a b f k s t : ℕ}

/-! ## Arcs between the numbers of files -/

/-- The arc between the numbers of two files that an edge is lifted to. -/
def arcOf? (m : Model) (edge : Edge) : Option Layout.Arc :=
  (m.liftEdge? edge).bind fun (source, target) => do
    some (← m.files.idxOf? source, ← m.files.idxOf? target)

/-- The file with the number `k` holds the node with the identifier. -/
def HoldsAt (m : Model) (k : ℕ) (id : NodeId) : Prop :=
  ∃ owner, m.fileNodes[k]? = some owner ∧ Holds m.nodes owner id

theorem idxOf?_files : m.files.idxOf? f = some k ↔ m.files[k]? = some f := by
  rw [List.idxOf?_eq_some_iff, List.getElem?_eq_some_iff]
  constructor
  · rintro ⟨hk, heq, -⟩
    exact ⟨hk, heq⟩
  · rintro ⟨hk, heq⟩
    refine ⟨hk, heq, ?_⟩
    intro j hj hfile
    have hjk := m.nodup_files.getElem_inj_iff.mp (hfile.trans heq.symm)
    omega

theorem liftEdge?_eq_some_iff :
    m.liftEdge? edge = some (s, t) ↔
      s ≠ t ∧ m.fileOf? edge.source = some s ∧ m.fileOf? edge.target = some t := by
  unfold liftEdge?
  cases hs : m.fileOf? edge.source with
  | none => simp
  | some s' =>
      cases ht : m.fileOf? edge.target with
      | none => simp
      | some t' =>
          simp only [Option.some.injEq, Option.ite_none_left_eq_some, Prod.mk.injEq]
          constructor
          · rintro ⟨hne, rfl, rfl⟩
            exact ⟨hne, rfl, rfl⟩
          · rintro ⟨hne, rfl, rfl⟩
            exact ⟨hne, rfl, rfl⟩

theorem arcOf?_eq_some_iff_liftEdge? :
    m.arcOf? edge = some (a, b) ↔
      ∃ s t, m.liftEdge? edge = some (s, t) ∧ m.files[a]? = some s ∧ m.files[b]? = some t := by
  simp [arcOf?, Option.bind_eq_some_iff, idxOf?_files]

theorem holdsAt_iff (hids : m.DistinctIds) :
    m.HoldsAt k id ↔ ∃ f, m.files[k]? = some f ∧ m.fileOf? id = some f := by
  simp only [HoldsAt, getElem?_fileNodes, fileOf?_eq_some_iff hids]
  constructor
  · rintro ⟨owner, ⟨f, hk, hf⟩, hholds⟩
    exact ⟨f, hk, owner, hf, hholds⟩
  · rintro ⟨f, hk, owner, hf, hholds⟩
    exact ⟨owner, ⟨f, hk, hf⟩, hholds⟩

/-- An edge becomes an arc between the files that hold its ends, if these are two. -/
theorem arcOf?_eq_some_iff (hids : m.DistinctIds) :
    m.arcOf? edge = some (a, b) ↔ a ≠ b ∧ m.HoldsAt a edge.source ∧ m.HoldsAt b edge.target := by
  rw [arcOf?_eq_some_iff_liftEdge?, holdsAt_iff hids, holdsAt_iff hids]
  simp only [liftEdge?_eq_some_iff]
  constructor
  · rintro ⟨s, t, ⟨hst, hs, ht⟩, ha, hb⟩
    refine ⟨?_, ⟨s, ha, hs⟩, ⟨t, hb, ht⟩⟩
    rintro rfl
    exact hst (Option.some.inj (ha.symm.trans hb))
  · rintro ⟨hab, ⟨s, ha, hs⟩, ⟨t, hb, ht⟩⟩
    refine ⟨s, t, ⟨?_, hs, ht⟩, ha, hb⟩
    rintro rfl
    have hlt : a < m.files.length := (List.getElem?_eq_some_iff.mp ha).1
    exact hab ((List.getElem?_inj hlt m.nodup_files).mp (ha.trans hb.symm))

theorem holdsAt_relabelled (hnodes : m'.nodes.Perm m.nodes)
    (hπ : Layout.Relabelled π m.fileNodes m'.fileNodes) :
    m'.HoldsAt (π k) id ↔ m.HoldsAt k id := by
  unfold HoldsAt
  rw [hπ k]
  constructor
  · rintro ⟨owner, howner, hholds⟩
    exact ⟨owner, howner, hholds.of_perm hnodes.symm⟩
  · rintro ⟨owner, howner, hholds⟩
    exact ⟨owner, howner, hholds.of_perm hnodes⟩

theorem arcOf?_relabelled (hids : m.DistinctIds) (hids' : m'.DistinctIds)
    (hnodes : m'.nodes.Perm m.nodes) (hπ : Layout.Relabelled π m.fileNodes m'.fileNodes)
    (edge : Edge) : m'.arcOf? edge = (m.arcOf? edge).map (Prod.map π π) := by
  apply Option.ext
  rintro ⟨a', b'⟩
  obtain ⟨a, rfl⟩ := π.surjective a'
  obtain ⟨b, rfl⟩ := π.surjective b'
  have harc : m'.arcOf? edge = some (π a, π b) ↔ m.arcOf? edge = some (a, b) := by
    rw [arcOf?_eq_some_iff hids', arcOf?_eq_some_iff hids, holdsAt_relabelled hnodes hπ,
      holdsAt_relabelled hnodes hπ, π.injective.ne_iff]
  rw [harc, Option.map_eq_some_iff]
  constructor
  · intro h
    exact ⟨(a, b), h, rfl⟩
  · rintro ⟨⟨s, t⟩, h, hst⟩
    rw [Prod.map_apply, Prod.mk.injEq, π.injective.eq_iff, π.injective.eq_iff] at hst
    rwa [← hst.1, ← hst.2]

end Model

theorem Layout.FileGraph.arcs_ofModel {α : Type} (m : Model) (sizes : List (Point α)) :
    (ofModel m sizes).arcs = m.edges.filterMap m.arcOf? := by
  unfold ofModel Model.fileEdges
  rw [List.filterMap_filterMap]
  rfl

namespace Diagram

variable {m m' : Model} {π : Equiv.Perm ℕ}

section FileGraph

variable {α : Type} [Scalar α]

theorem fileGraph_arcs (metrics : Metrics α) (m : Model) :
    (fileGraph metrics m).arcs = m.edges.filterMap m.arcOf? :=
  Layout.FileGraph.arcs_ofModel m (fileSizes metrics m)

/-- The size of a file counts the members that name it. -/
theorem fileGraph_boxes_eq_map (metrics : Metrics α) (m : Model) :
    (fileGraph metrics m).boxes = m.fileNodes.map fun node =>
      ⟨node.id, metrics.fileSize (m.nodes.countP (Model.isMemberOf node.id))⟩ := by
  rw [fileGraph_boxes]
  apply List.ext_getElem?
  intro k
  rw [List.getElem?_map, List.getElem?_map]
  cases hk : m.files[k]? with
  | none =>
      have hnone : m.fileNodes[k]? = none := by
        rw [Option.eq_none_iff_forall_ne_some]
        intro node hnode
        obtain ⟨f, hf, -⟩ := Model.getElem?_fileNodes.mp hnode
        rw [hk] at hf
        cases hf
      rw [hnone]
      rfl
  | some f =>
      obtain ⟨node, hnode, hkind⟩ := Model.isFile_iff.mp (Model.mem_files.mp (List.mem_of_getElem? hk))
      rw [Model.getElem?_fileNodes.mpr ⟨f, hk, hnode⟩]
      simp [identifierAt, hnode, fileSizeOf, Model.length_childrenOf hnode hkind]

theorem nodup_keys_fileGraph (metrics : Metrics α) (hids : m.DistinctIds) :
    ((fileGraph metrics m).boxes.map (·.key)).Nodup := by
  rw [fileGraph_boxes_eq_map, List.map_map]
  exact hids.sublist (List.filter_sublist.map _)

theorem acyclic_fileGraph (metrics : Metrics α) (h : Layout.Acyclic m.fileEdges) :
    Layout.Acyclic (fileGraph metrics m).arcs := by
  apply h.of_map fun k => m.files.getD k 0
  intro a b harc
  rw [fileGraph_arcs, List.mem_filterMap] at harc
  obtain ⟨edge, hedge, harc⟩ := harc
  obtain ⟨s, t, hlift, ha, hb⟩ := Model.arcOf?_eq_some_iff_liftEdge?.mp harc
  rw [List.getD_eq_getElem?_getD, List.getD_eq_getElem?_getD, ha, hb]
  exact List.mem_filterMap.mpr ⟨edge, hedge, hlift⟩

end FileGraph

/-- Another listing of the nodes and edges relabels the graph of files. -/
theorem relabels_fileGraph (metrics : Metrics ℚ) (hids : m.DistinctIds) (hids' : m'.DistinctIds)
    (hnodes : m'.nodes.Perm m.nodes) (hedges : m'.edges.Perm m.edges)
    (hπ : Layout.Relabelled π m.fileNodes m'.fileNodes) :
    (fileGraph metrics m).Relabels π (fileGraph metrics m') where
  boxes := by
    rw [fileGraph_boxes_eq_map, fileGraph_boxes_eq_map]
    simp only [hnodes.countP_eq]
    exact hπ.map _
  arcs := by
    rw [fileGraph_arcs, fileGraph_arcs, List.map_filterMap]
    refine (hedges.filterMap _).trans (List.Perm.of_eq ?_)
    exact List.filterMap_congr fun edge _ => Model.arcOf?_relabelled hids hids' hnodes hπ edge

/-! ## Drawings of two listings -/

/-- Two listings of the same nodes, in which every file has the same box and the same center. -/
structure PlacedAlike (metrics : Metrics ℚ) (place : Layout.FileGraph ℚ → List (Point ℚ))
    (m m' : Model) (π : Equiv.Perm ℕ) : Prop where
  ids : m.DistinctIds
  ids' : m'.DistinctIds
  nodes : Model.Relisted m.nodes m'.nodes
  files : Layout.Relabelled π m.fileNodes m'.fileNodes
  boxes : Layout.Relabelled π (fileGraph metrics m).boxes (fileGraph metrics m').boxes
  centers : Layout.Relabelled π (place (fileGraph metrics m)) (place (fileGraph metrics m'))

theorem exists_placedAlike (metrics : Metrics ℚ) (hids : m.DistinctIds)
    (hnodes : Model.Relisted m.nodes m'.nodes) (hedges : m'.edges.Perm m.edges)
    (hacyclic : Layout.Acyclic m.fileEdges) :
    ∃ π, PlacedAlike metrics (Layout.Spacing.ofMetrics metrics).place m m' π := by
  have hids' := hnodes.distinctIds hids
  have hfiles : m'.fileNodes.Perm m.fileNodes := hnodes.perm.filter _
  obtain ⟨π, hπ⟩ := Layout.exists_relabelled hfiles
  have hgraph := relabels_fileGraph metrics hids hids' hnodes.perm hedges hπ
  have hcenters := hgraph.place (acyclic_fileGraph metrics hacyclic)
    (nodup_keys_fileGraph metrics hids) (Layout.Spacing.ofMetrics metrics)
  exact ⟨π, hids, hids', hnodes, hπ, hgraph.boxes, hcenters⟩

section Rects

variable {α : Type} [Scalar α]

theorem getElem?_map_fileRects (metrics : Metrics α) (m : Model) (centers : List (Point α))
    (k : ℕ) :
    ((fileRects metrics m centers).map (·.2))[k]? =
      ((fileGraph metrics m).boxes[k]?).map fun box =>
        Rect.around (centers.getD k box.size.half) box.size := by
  rw [List.getElem?_map, getElem?_fileRects, fileGraph_boxes, List.getElem?_map, Option.map_map,
    Option.map_map]
  rfl

theorem map_orphanRects (metrics : Metrics α) (m : Model) (bounds : Option (Rect α)) :
    (orphanRects metrics m bounds).map (·.2) =
      (List.range m.orphans.length).map (orphanRectAt metrics bounds) := by
  rw [List.range_eq_range', ← List.zipIdx_map_snd, List.map_map, orphanRects, List.map_map]
  rfl

theorem bounds_ofModel (metrics : Metrics α) (place : Layout.FileGraph α → List (Point α))
    (m : Model) :
    (ofModel metrics place m).bounds =
      (Rect.unionAll? ((fileRects metrics m (place (fileGraph metrics m))).map (·.2) ++
        (orphanRects metrics m (fileBounds? metrics place m)).map (·.2))).getD Rect.empty := by
  unfold ofModel
  by_cases hempty : m.isEmpty = true
  · have hnil : m.nodes = [] := List.isEmpty_iff.mp hempty
    rw [if_pos hempty]
    simp [fileRects, orphanRects, Model.files, Model.orphans, Model.indices, hnil, empty,
      Rect.unionAll?]
  · rw [if_neg hempty]
    rfl

theorem mem_nodes_iff {metrics : Metrics α} {place : Layout.FileGraph α → List (Point α)}
    {p : PlacedNode α} :
    p ∈ (ofModel metrics place m).nodes ↔
      ∃ i node, m.nodes[i]? = some node ∧ placedAt metrics place m i node = p := by
  simp only [List.mem_iff_getElem?, getElem?_nodes, Option.map_eq_some_iff]

theorem nodup_ids_ofModel (metrics : Metrics α) (place : Layout.FileGraph α → List (Point α))
    (hids : m.DistinctIds) : ((ofModel metrics place m).nodes.map (·.node.id)).Nodup := by
  have hmap := congrArg (List.map (·.id)) (map_node_ofModel metrics place m)
  rw [List.map_map] at hmap
  exact hmap ▸ hids

/-- A drawn node is found by its identifier. -/
theorem node?_eq_some_of_mem {metrics : Metrics α} {place : Layout.FileGraph α → List (Point α)}
    (hids : m.DistinctIds) {p : PlacedNode α} (hp : p ∈ (ofModel metrics place m).nodes) :
    (ofModel metrics place m).node? p.node.id = some p := by
  have hkept : p ∈ firstByKey (fun q => q.node.id) (ofModel metrics place m).nodes := by
    rwa [firstByKey_eq_self (nodup_ids_ofModel metrics place hids)]
  exact mem_firstByKey_iff.mp hkept

end Rects

namespace PlacedAlike

variable {metrics : Metrics ℚ} {place : Layout.FileGraph ℚ → List (Point ℚ)} {i i' : ℕ}
  {node : Node}

theorem fileRects (h : PlacedAlike metrics place m m' π) :
    Layout.Relabelled π
      ((Diagram.fileRects metrics m (place (fileGraph metrics m))).map (·.2))
      ((Diagram.fileRects metrics m' (place (fileGraph metrics m'))).map (·.2)) := by
  intro k
  rw [getElem?_map_fileRects, getElem?_map_fileRects, h.boxes k]
  simp only [h.centers.getD]

theorem fileBounds?_eq (h : PlacedAlike metrics place m m' π) :
    fileBounds? metrics place m' = fileBounds? metrics place m :=
  Rect.unionAll?_congr h.fileRects.mem_iff

theorem bounds_eq (h : PlacedAlike metrics place m m' π) :
    (ofModel metrics place m').bounds = (ofModel metrics place m).bounds := by
  have horphans : m'.orphans.length = m.orphans.length := by
    rw [Model.orphans_eq_positionsWhere, Model.orphans_eq_positionsWhere, length_positionsWhere,
      length_positionsWhere, List.countP_eq_length_filter, List.countP_eq_length_filter,
      h.nodes.orphans]
  rw [bounds_ofModel, bounds_ofModel, map_orphanRects, map_orphanRects, h.fileBounds?_eq, horphans]
  congr 1
  apply Rect.unionAll?_congr
  intro r
  rw [List.mem_append, List.mem_append, h.fileRects.mem_iff]

theorem placedAt_file_eq (h : PlacedAlike metrics place m m' π) (hi : m.nodes[i]? = some node)
    (hi' : m'.nodes[i']? = some node) (hfile : m.isFile i = true) :
    placedAt metrics place m' i' node = placedAt metrics place m i node := by
  obtain ⟨k, hk⟩ := List.mem_iff_getElem?.mp (Model.mem_files.mpr hfile)
  have hk' : m'.files[π k]? = some i' := by
    rw [Model.files_eq_positionsWhere] at hk ⊢
    exact h.ids'.getElem?_positionsWhere (h.files k) hi hi' hk
  have hrect := h.fileRects k
  rw [List.getElem?_map, List.getElem?_map, getElem?_fileRects, getElem?_fileRects, hk, hk'] at hrect
  simp only [Option.map_some, Option.some.injEq] at hrect
  simp only [placedAt, placeNode, lookup_fileRects hk, lookup_fileRects hk', hrect]

theorem placedAt_member_eq (h : PlacedAlike metrics place m m' π) {f slot : ℕ}
    (hi : m.nodes[i]? = some node) (hi' : m'.nodes[i']? = some node)
    (hslot : (m.childrenOf f)[slot]? = some i) :
    placedAt metrics place m' i' node = placedAt metrics place m i node := by
  obtain ⟨hfile, hisFile, -⟩ := Model.mem_childrenOf.mp (List.mem_of_getElem? hslot)
  have hfile' : m'.isFile i' = false := by rwa [Model.isFile_eq hi', ← Model.isFile_eq hi]
  obtain ⟨owner, howner, hkind⟩ := Model.isFile_iff.mp hisFile
  have hmem := List.mem_of_getElem? howner
  obtain ⟨f', howner'⟩ := List.mem_iff_getElem?.mp (h.nodes.perm.mem_iff.mpr hmem)
  have hslot' : (m'.childrenOf f')[slot]? = some i' := by
    rw [Model.childrenOf_eq_positions howner hkind] at hslot
    rw [Model.childrenOf_eq_positions howner' hkind]
    exact h.ids'.getElem?_positionsWhere (by rw [h.nodes.members owner hmem hkind]) hi hi' hslot
  simp only [placedAt, placeNode, lookup_fileRects_eq_none hfile, lookup_fileRects_eq_none hfile',
    lookup_slots h.ids hslot, lookup_slots h.ids' hslot', identifierAt, howner, howner']

theorem placedAt_orphan_eq (h : PlacedAlike metrics place m m' π) {row : ℕ}
    (hi : m.nodes[i]? = some node) (hi' : m'.nodes[i']? = some node)
    (hrow : m.orphans[row]? = some i) :
    placedAt metrics place m' i' node = placedAt metrics place m i node := by
  have hrow' : m'.orphans[row]? = some i' := by
    rw [Model.orphans_eq_positionsWhere] at hrow ⊢
    exact h.ids'.getElem?_positionsWhere (by rw [h.nodes.orphans]) hi hi' hrow
  obtain ⟨-, hfile, hmember⟩ := Model.mem_orphans.mp (List.mem_of_getElem? hrow)
  obtain ⟨-, hfile', hmember'⟩ := Model.mem_orphans.mp (List.mem_of_getElem? hrow')
  simp only [placedAt, placeNode, lookup_fileRects_eq_none hfile, lookup_fileRects_eq_none hfile',
    lookup_slots_eq_none hmember, lookup_slots_eq_none hmember', lookup_orphanRects hrow,
    lookup_orphanRects hrow', h.fileBounds?_eq]

theorem placedAt_eq (h : PlacedAlike metrics place m m' π) (hi : m.nodes[i]? = some node)
    (hi' : m'.nodes[i']? = some node) :
    placedAt metrics place m' i' node = placedAt metrics place m i node := by
  cases hfile : m.isFile i with
  | true => exact h.placedAt_file_eq hi hi' hfile
  | false =>
      rcases Model.member_or_orphan hi hfile with ⟨f, slot, hslot⟩ | ⟨row, hrow⟩
      · exact h.placedAt_member_eq hi hi' hslot
      · exact h.placedAt_orphan_eq hi hi' hrow

theorem nodes_perm (h : PlacedAlike metrics place m m' π) :
    (ofModel metrics place m').nodes.Perm (ofModel metrics place m).nodes := by
  rw [List.perm_ext_iff_of_nodup (nodup_ids_ofModel metrics place h.ids').of_map
    (nodup_ids_ofModel metrics place h.ids).of_map]
  intro p
  rw [mem_nodes_iff, mem_nodes_iff]
  constructor
  · rintro ⟨i', node, hi', rfl⟩
    obtain ⟨i, hi⟩ := List.mem_iff_getElem?.mp (h.nodes.perm.mem_iff.mp (List.mem_of_getElem? hi'))
    exact ⟨i, node, hi, (h.placedAt_eq hi hi').symm⟩
  · rintro ⟨i, node, hi, rfl⟩
    obtain ⟨i', hi'⟩ := List.mem_iff_getElem?.mp (h.nodes.perm.mem_iff.mpr (List.mem_of_getElem? hi))
    exact ⟨i', node, hi', h.placedAt_eq hi hi'⟩

end PlacedAlike

/--
If the edges between files form no cycle, then the nodes may be listed in any order that
keeps the members of each file and the orphans in line, and the edges in any order at all:
every node is found by its identifier in the same place, with the same size and in the
same space, nothing else is drawn, and the bounds are the same.
-/
theorem draw_independent_of_listing (metrics : Metrics ℚ) (nodes nodes' : List Node)
    (edges edges' : List Edge) (hids : (nodes.map (·.id)).Nodup)
    (hacyclic : Layout.Acyclic (Model.ofNodes nodes edges).fileEdges)
    (hnodes : Model.Relisted nodes nodes') (hedges : edges'.Perm edges) :
    (∀ node ∈ nodes, ∃ p, p.node = node ∧
      (draw metrics nodes edges).node? node.id = some p ∧
      (draw metrics nodes' edges').node? node.id = some p) ∧
    (draw metrics nodes' edges').nodes.Perm (draw metrics nodes edges).nodes ∧
    (draw metrics nodes' edges').bounds = (draw metrics nodes edges).bounds := by
  have hids' : (nodes'.map (·.id)).Nodup := (hnodes.perm.map _).nodup_iff.mpr hids
  have hkept : (Model.ofNodes nodes edges).nodes = nodes := firstByKey_eq_self hids
  have hkept' : (Model.ofNodes nodes' edges').nodes = nodes' := firstByKey_eq_self hids'
  have hrelisted : Model.Relisted (Model.ofNodes nodes edges).nodes
      (Model.ofNodes nodes' edges').nodes := by rwa [hkept, hkept']
  obtain ⟨π, halike⟩ := exists_placedAlike metrics (Model.distinctIds_ofNodes nodes edges)
    hrelisted hedges hacyclic
  refine ⟨?_, halike.nodes_perm, halike.bounds_eq⟩
  intro node hnode
  rw [← hkept, ← map_node_ofModel metrics (Layout.Spacing.ofMetrics metrics).place] at hnode
  obtain ⟨p, hp, rfl⟩ := List.mem_map.mp hnode
  exact ⟨p, rfl, node?_eq_some_of_mem halike.ids hp,
    node?_eq_some_of_mem halike.ids' (halike.nodes_perm.mem_iff.mpr hp)⟩

/-- A file and the members of another one. -/
def callerNodes : List Node :=
  classify [RawNode.file "a.py", RawNode.member "b.py" "g", RawNode.member "b.py" "k"]

/-- Two files, the member of the file that is missing here, and an orphan. -/
def calleeNodes : List Node :=
  classify [RawNode.file "b.py", RawNode.member "a.py" "f", RawNode.member "c.py" "h",
    RawNode.file "d.py"]

def crossingEdges : List Edge :=
  [{ source := "a.py::f", target := "b.py::g" }, { source := "a.py::f", target := "d.py" },
    { source := "d.py", target := "b.py::k" }, { source := "a.py", target := "b.py::k" }]

/-- The files are listed as `a, b, d` and as `b, d, a`, and the edges from both ends. -/
theorem callerNodes_drawn_alike :
    (∀ node ∈ callerNodes ++ calleeNodes, ∃ p, p.node = node ∧
      (draw (Metrics.standard : Metrics ℚ) (callerNodes ++ calleeNodes) crossingEdges).node?
        node.id = some p ∧
      (draw Metrics.standard (calleeNodes ++ callerNodes) crossingEdges.reverse).node?
        node.id = some p) ∧
    (draw (Metrics.standard : Metrics ℚ) (calleeNodes ++ callerNodes) crossingEdges.reverse).nodes.Perm
      (draw Metrics.standard (callerNodes ++ calleeNodes) crossingEdges).nodes ∧
    (draw (Metrics.standard : Metrics ℚ) (calleeNodes ++ callerNodes) crossingEdges.reverse).bounds =
      (draw Metrics.standard (callerNodes ++ calleeNodes) crossingEdges).bounds := by
  have hacyclic : Layout.Acyclic
      (Model.ofNodes (callerNodes ++ calleeNodes) crossingEdges).fileEdges :=
    Layout.acyclic_of_height (fun v => if v = 0 then 0 else if v = 6 then 1 else 2) (by decide)
  exact draw_independent_of_listing Metrics.standard (callerNodes ++ calleeNodes)
    (calleeNodes ++ callerNodes) crossingEdges crossingEdges.reverse (by decide) hacyclic
    ⟨List.perm_append_comm, by decide, by decide⟩ (List.reverse_perm _)

end Diagram

end CodeAtlas
