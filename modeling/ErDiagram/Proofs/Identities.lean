import ErDiagram.Proofs.Sessions

/-!
Ids under any use of a builder. A checkpoint may be gone back to however stale it is: the next id
then falls, or jumps ahead over a gap, and nodes that were open are lost, so ids are given out again.
Still no node is ever replaced. What is in the graph and what is open have ids of their own, all
below the next one, and this is what every operation needs and leaves.
-/

namespace ErDiagram

namespace Graph

/-- A graph has a node that another lacks, and for the rest the nodes of the other. -/
structure Gains (graph : Graph) (node : Node) (after : Graph) : Prop where
  lacked : graph.get? node.id = none
  size : after.size = graph.size + 1
  nodes : ∀ id, after.get? id = if node.id = id then some node else graph.get? id

theorem get?_eq_none {graph : Graph} {id : Nat} (h : id ∉ graph.ids) : graph.get? id = none := by
  rw [Option.eq_none_iff_forall_ne_some]
  intro node hnode
  obtain ⟨hmem, rfl⟩ := mem_nodes_of_get? hnode
  exact h (List.mem_map_of_mem hmem)

theorem perm_insertNode {node : Node} {nodes : List Node} (h : node.id ∉ nodes.map (·.id)) :
    (insertNode node nodes).Perm (node :: nodes) := by
  induction nodes with
  | nil => exact List.Perm.refl _
  | cons first rest ih =>
      rw [List.map_cons, List.mem_cons, not_or] at h
      rw [insertNode, if_neg h.1]
      split
      · exact List.Perm.refl _
      · exact ((ih h.2).cons first).trans (List.Perm.swap node first rest)

theorem perm_ids_insert {graph : Graph} {node : Node} (h : node.id ∉ graph.ids) :
    (graph.insert node).ids.Perm (node.id :: graph.ids) :=
  (perm_insertNode h).map _

theorem gains_insert {graph : Graph} {node : Node} (h : node.id ∉ graph.ids) :
    graph.Gains node (graph.insert node) where
  lacked := get?_eq_none h
  size := (perm_insertNode h).length_eq
  nodes := get?_insert graph node

theorem ids_before_sublist (graph : Graph) (first : Nat) :
    (graph.before first).ids.Sublist graph.ids :=
  List.filter_sublist.map _

theorem lt_of_mem_ids_before {graph : Graph} {first id : Nat} (h : id ∈ (graph.before first).ids) :
    id < first := by
  obtain ⟨node, hnode, rfl⟩ := List.mem_map.1 h
  exact of_decide_eq_true (List.mem_filter.1 hnode).2

end Graph

namespace Builder

variable {builder after : Builder}

/-! ### What operations do to the frames -/

theorem frames_eq (builder : Builder) : builder.frames = builder.top :: builder.frames.tail := by
  unfold frames top
  cases builder.inner <;> rfl

theorem frames_modifyTop (builder : Builder) (change : Frame → Frame) :
    (builder.modifyTop change).frames = change builder.top :: builder.frames.tail := by
  unfold frames top modifyTop
  cases hinner : builder.inner with
  | nil => simp
  | cons frame outer => rfl

theorem frames_opened (builder : Builder) (kind : Node.Kind) (name : String) :
    (builder.opened kind name).frames =
      Frame.ofNode (Node.bare kind builder.nextId name) ::
        { builder.top.link builder.nextId with
          scope := builder.top.scope.bind kind name builder.nextId } :: builder.frames.tail :=
  congrArg (List.cons _) (frames_modifyTop builder _)

theorem frames_grown (builder : Builder) (leaf : Node) :
    (builder.grown leaf).frames = builder.top.link leaf.id :: builder.frames.tail :=
  frames_modifyTop builder _

theorem root_modifyTop (builder : Builder) (change : Frame → Frame) :
    (builder.modifyTop change).root = builder.root ∨
      (builder.modifyTop change).root = change builder.root := by
  unfold modifyTop
  split
  · exact Or.inr rfl
  · exact Or.inl rfl

theorem openNode_ok {kind : Node.Kind} {name : String} {id : Nat} :
    builder.openNode kind name = .ok (id, after) ↔ builder.top.scope.get? kind name = none ∧
      id = builder.nextId ∧ after = builder.opened kind name := by
  unfold openNode
  cases builder.top.scope.get? kind name with
  | some other => simp
  | none =>
      constructor
      · intro h
        cases h
        exact ⟨rfl, rfl, rfl⟩
      · rintro ⟨-, rfl, rfl⟩
        rfl

theorem closeNode_ok {id : Nat} :
    builder.closeNode = .ok (id, after) ↔ ∃ frame outer, builder.inner = frame :: outer ∧
      id = frame.node.id ∧
        after = { builder with inner := outer, graph := builder.graph.insert frame.node } := by
  unfold closeNode
  cases builder.inner with
  | nil => simp
  | cons frame outer =>
      constructor
      · intro h
        cases h
        exact ⟨frame, outer, rfl, rfl, rfl⟩
      · rintro ⟨_, _, hinner, rfl, rfl⟩
        cases hinner
        rfl

/-- A leaf that is added takes the next id. -/
theorem exists_leaf_of_addLeaf {kind : Node.Kind} {links : List Nat}
    {cardinality : Option Cardinality} {id : Nat}
    (h : builder.addLeaf kind links cardinality = .ok (id, after)) :
    ∃ leaf : Node, leaf.id = id ∧ (leafSuffix? leaf.kind).isSome ∧ id = builder.nextId ∧
      after = builder.grown leaf := by
  cases hsuffix : leafSuffix? kind with
  | none =>
      unfold addLeaf at h
      rw [hsuffix] at h
      cases h
  | some suffix =>
      rw [addLeaf_ok hsuffix] at h
      cases h
      exact ⟨_, rfl, by simp [hsuffix], rfl, rfl⟩

/-! ### The invariant -/

def openIds (builder : Builder) : List Nat :=
  builder.frames.map (·.node.id)

def allIds (builder : Builder) : List Nat :=
  builder.graph.ids ++ builder.openIds

theorem allIds_modifyTop (builder : Builder) {change : Frame → Frame}
    (h : ∀ frame, (change frame).node.id = frame.node.id) :
    (builder.modifyTop change).allIds = builder.allIds := by
  unfold allIds openIds
  rw [graph_modifyTop, frames_modifyTop, frames_eq builder, List.map_cons, List.map_cons, h]
  rfl

/-- All nodes, closed or open, have ids of their own, and these and the ids that names are bound to
are below the next one. The start node is the outermost. -/
structure Identified (builder : Builder) : Prop where
  rootKind : builder.root.node.kind = .start
  rootId : builder.root.node.id = Node.startId
  distinct : (builder.allIds).Nodup
  below : ∀ id ∈ builder.allIds, id < builder.nextId
  bindings : ∀ frame ∈ builder.frames, ∀ binding ∈ frame.scope.bindings,
    binding.id < builder.nextId

namespace Identified

theorem empty : Builder.empty.Identified where
  rootKind := rfl
  rootId := rfl
  distinct := by decide
  below := by decide
  bindings := by
    intro frame hframe binding hbinding
    rw [List.mem_singleton.1 hframe] at hbinding
    cases hbinding

/-- The next id is that of no node. -/
theorem fresh (h : builder.Identified) : builder.nextId ∉ builder.allIds :=
  fun hmem => Nat.lt_irrefl _ (h.below _ hmem)

theorem nextId_pos (h : builder.Identified) : 0 < builder.nextId := by
  have hroot : builder.root.node.id ∈ builder.openIds :=
    List.mem_map_of_mem (List.mem_append_right _ List.mem_cons_self)
  exact Nat.zero_lt_of_lt (h.below _ (List.mem_append_right _ hroot))

/-- More ids may be given out. -/
theorem later (h : builder.Identified) {nextId : Nat} (hnext : builder.nextId ≤ nextId) :
    Identified { builder with nextId } where
  rootKind := h.rootKind
  rootId := h.rootId
  distinct := h.distinct
  below id hid := Nat.lt_of_lt_of_le (h.below id hid) hnext
  bindings frame hframe binding hbinding :=
    Nat.lt_of_lt_of_le (h.bindings frame hframe binding hbinding) hnext

/-- The innermost frame may change, as long as its node keeps its kind and id and it has no names of
later ids. -/
theorem modifyTop (h : builder.Identified) (change : Frame → Frame)
    (hkind : ∀ frame, (change frame).node.kind = frame.node.kind)
    (hid : ∀ frame, (change frame).node.id = frame.node.id)
    (hbindings : ∀ frame, ∀ binding ∈ (change frame).scope.bindings,
      binding ∈ frame.scope.bindings ∨ binding.id < builder.nextId) :
    (builder.modifyTop change).Identified ∧
      (builder.modifyTop change).allIds = builder.allIds := by
  have hids := allIds_modifyTop builder hid
  have hnext : (builder.modifyTop change).nextId = builder.nextId := by
    unfold Builder.modifyTop
    split <;> rfl
  refine ⟨⟨?_, ?_, ?_, ?_, ?_⟩, hids⟩
  · rcases root_modifyTop builder change with hroot | hroot
    · rw [hroot, h.rootKind]
    · rw [hroot, hkind, h.rootKind]
  · rcases root_modifyTop builder change with hroot | hroot
    · rw [hroot, h.rootId]
    · rw [hroot, hid, h.rootId]
  · rw [hids]
    exact h.distinct
  · rw [hids, hnext]
    exact h.below
  · have hframes := h.bindings
    rw [frames_eq, List.forall_mem_cons] at hframes
    rw [frames_modifyTop, hnext, List.forall_mem_cons]
    refine ⟨fun binding hbinding => ?_, hframes.2⟩
    rcases hbindings builder.top binding hbinding with hold | hnew
    · exact hframes.1 binding hold
    · exact hnew

/-- A node may be opened if its id is that of no other. -/
theorem push (h : builder.Identified) {node : Node}
    (hfresh : node.id ∉ builder.allIds) (hbelow : node.id < builder.nextId) :
    Identified { builder with inner := Frame.ofNode node :: builder.inner } := by
  have hperm : (builder.graph.ids ++ node.id :: builder.openIds).Perm
      (node.id :: (builder.allIds)) := List.perm_middle
  refine ⟨h.rootKind, h.rootId, ?_, fun id hid => ?_, ?_⟩
  · exact hperm.nodup_iff.2 (List.nodup_cons.2 ⟨hfresh, h.distinct⟩)
  · rcases List.mem_cons.1 (hperm.mem_iff.1 hid) with rfl | hid
    · exact hbelow
    · exact h.below id hid
  · exact List.forall_mem_cons.2 ⟨by simp [Frame.ofNode, Scope.empty], h.bindings⟩

/-- A node may be closed if its id is that of no other. -/
theorem insert (h : builder.Identified) {node : Node}
    (hfresh : node.id ∉ builder.allIds) (hbelow : node.id < builder.nextId) :
    Identified { builder with graph := builder.graph.insert node } := by
  have hperm : ((builder.graph.insert node).ids ++ builder.openIds).Perm
      (node.id :: (builder.allIds)) :=
    (Graph.perm_ids_insert (mt (List.mem_append_left _) hfresh)).append_right _
  refine ⟨h.rootKind, h.rootId, ?_, fun id hid => ?_, h.bindings⟩
  · exact hperm.nodup_iff.2 (List.nodup_cons.2 ⟨hfresh, h.distinct⟩)
  · rcases List.mem_cons.1 (hperm.mem_iff.1 hid) with rfl | hid
    · exact hbelow
    · exact h.below id hid

/-- Without the innermost node, its id is that of no other. -/
theorem pop (h : builder.Identified) {frame : Frame} {outer : List Frame}
    (hinner : builder.inner = frame :: outer) :
    Identified { builder with inner := outer } ∧
      frame.node.id ∉ allIds { builder with inner := outer } ∧
        frame.node.id < builder.nextId := by
  have hperm : builder.allIds.Perm (frame.node.id :: allIds { builder with inner := outer }) := by
    unfold allIds openIds frames
    rw [hinner]
    exact List.perm_middle
  have hdistinct := List.nodup_cons.1 (hperm.nodup_iff.1 h.distinct)
  have hbelow := List.forall_mem_cons.1 fun id hid => h.below id (hperm.mem_iff.2 hid)
  have hbindings := h.bindings
  rw [frames, hinner] at hbindings
  exact ⟨⟨h.rootKind, h.rootId, hdistinct.2, hbelow.2, (List.forall_mem_cons.1 hbindings).2⟩,
    hdistinct.1, hbelow.1⟩

theorem opened (h : builder.Identified) (kind : Node.Kind) (name : String) :
    (builder.opened kind name).Identified := by
  have hbindings : ∀ frame : Frame,
      ∀ binding ∈ (frame.scope.bind kind name builder.nextId).bindings,
        binding ∈ frame.scope.bindings ∨ binding.id < builder.nextId + 1 := by
    intro frame binding hbinding
    rcases List.mem_cons.1 hbinding with rfl | hbinding
    · exact Or.inr (Nat.lt_succ_self _)
    · exact Or.inl hbinding
  obtain ⟨houter, hids⟩ := (h.later (Nat.le_succ _)).modifyTop (fun frame =>
      { frame.link builder.nextId with scope := frame.scope.bind kind name builder.nextId })
    (fun _ => rfl) (fun _ => rfl) hbindings
  rw [modifyTop_later] at houter hids
  have hfresh := h.fresh
  exact houter.push (hids ▸ hfresh) (Nat.lt_succ_self _)

theorem grown (h : builder.Identified) {leaf : Node} (hleaf : leaf.id = builder.nextId) :
    (builder.grown leaf).Identified := by
  obtain ⟨hlink, hids⟩ := (h.later (Nat.le_succ _)).modifyTop (·.link leaf.id)
    (fun _ => rfl) (fun _ => rfl) fun _ _ => Or.inl
  rw [modifyTop_later] at hlink hids
  have hfresh : leaf.id ∉ builder.allIds := hleaf ▸ h.fresh
  have hinsert := hlink.insert (hids ▸ hfresh) (hleaf ▸ Nat.lt_succ_self _)
  dsimp only at hinsert
  rwa [graph_modifyTop] at hinsert

theorem close (h : builder.Identified) {frame : Frame} {outer : List Frame}
    (hinner : builder.inner = frame :: outer) :
    Identified { builder with inner := outer, graph := builder.graph.insert frame.node } := by
  obtain ⟨hpop, hfresh, hbelow⟩ := h.pop hinner
  exact hpop.insert hfresh hbelow

/-- Even where a checkpoint is ahead of the builder, ids stay apart. -/
theorem rollback (h : builder.Identified) {checkpoint : Checkpoint} (hpos : 0 < checkpoint.nextId) :
    (builder.rollback checkpoint).Identified := by
  have hids : (builder.rollback checkpoint).allIds =
      (builder.graph.before checkpoint.nextId).ids ++ [Node.startId] := by
    rw [← h.rootId]
    rfl
  have hroot : [Node.startId].Sublist builder.openIds := by
    rw [← h.rootId, openIds, frames, List.map_append]
    exact List.sublist_append_right _ _
  refine ⟨h.rootKind, h.rootId, ?_, ?_, ?_⟩
  · rw [hids]
    exact h.distinct.sublist ((builder.graph.ids_before_sublist _).append hroot)
  · intro id hid
    rw [hids] at hid
    rcases List.mem_append.1 hid with hid | hid
    · exact Graph.lt_of_mem_ids_before hid
    · rw [List.mem_singleton.1 hid]
      exact hpos
  · intro frame hframe binding hbinding
    rw [List.mem_singleton.1 hframe] at hbinding
    exact of_decide_eq_true (List.mem_filter.1 hbinding).2

end Identified

/-! ### Any use of a builder -/

/-- The builder with other links and details of the node that is being built. -/
def edited (builder : Builder) (links : List Nat) (cardinality : Option Cardinality)
    (type : Option HierarchyType) : Builder :=
  builder.modifyCurrent fun node => { node with links, cardinality, hierarchyType := type }

/-- Builders that any use leads to, with the checkpoints that were taken on the way, the newest
first. Every one of them may be gone back to at any time. -/
inductive Reached : List Checkpoint → Builder → Prop where
  | empty : Reached [] Builder.empty
  | opens {taken : List Checkpoint} {builder after : Builder} {kind : Node.Kind} {name : String}
      {id : Nat} (h : Reached taken builder) (hopen : builder.openNode kind name = .ok (id, after)) :
      Reached taken after
  | closes {taken : List Checkpoint} {builder after : Builder} {id : Nat} (h : Reached taken builder)
      (hclose : builder.closeNode = .ok (id, after)) : Reached taken after
  | grows {taken : List Checkpoint} {builder after : Builder} {kind : Node.Kind} {links : List Nat}
      {cardinality : Option Cardinality} {id : Nat} (h : Reached taken builder)
      (hleaf : builder.addLeaf kind links cardinality = .ok (id, after)) : Reached taken after
  | edits {taken : List Checkpoint} {builder : Builder} (h : Reached taken builder)
      (links : List Nat) (cardinality : Option Cardinality) (type : Option HierarchyType) :
      Reached taken (builder.edited links cardinality type)
  | takes {taken : List Checkpoint} {builder : Builder} (h : Reached taken builder) :
      Reached (builder.checkpoint :: taken) builder
  | returns {taken : List Checkpoint} {builder : Builder} {checkpoint : Checkpoint}
      (h : Reached taken builder) (hmem : checkpoint ∈ taken) :
      Reached taken (builder.rollback checkpoint)

namespace Reached

variable {taken : List Checkpoint}

/-- Whatever leaves the node that is being built its kind, id and name is an edit. -/
theorem modifyCurrent (h : Reached taken builder) (change : Node → Node)
    (hchange : ∀ node, change node = { node with
      links := (change node).links
      cardinality := (change node).cardinality
      hierarchyType := (change node).hierarchyType }) :
    Reached taken (builder.modifyCurrent change) := by
  have hedited : builder.modifyCurrent change = builder.edited (change builder.current).links
      (change builder.current).cardinality (change builder.current).hierarchyType := by
    unfold edited Builder.modifyCurrent modifyTop current top
    cases builder.inner with
    | nil =>
        dsimp only [List.headD]
        rw [hchange]
    | cons frame outer =>
        dsimp only [List.headD]
        rw [hchange]
  rw [hedited]
  exact h.edits _ _ _

/-- An operation of a session is a use of its builder. -/
theorem perform {session : Session} (h : Reached (session.slots.map (·.2)) session.builder)
    (op : Op) :
    Reached ((session.perform op).2.slots.map (·.2)) (session.perform op).2.builder := by
  have hproceed : ∀ result, (∀ id after, result = .ok (id, after) →
      Reached (session.slots.map (·.2)) after) →
        Reached ((session.proceed result).2.slots.map (·.2)) (session.proceed result).2.builder := by
    intro result hok
    cases result with
    | error error => exact h
    | ok found => exact hok found.1 found.2 rfl
  cases op with
  | openNode kind name => exact hproceed _ fun _ _ => h.opens
  | closeNode => exact hproceed _ fun _ _ => h.closes
  | addLeaf kind links cardinality => exact hproceed _ fun _ _ => h.grows
  | findVisible | findOwn | findAttribute | hasLinkTo | graph => exact h
  | link id =>
      exact h.modifyCurrent (fun node => { node with links := node.links ++ [id] }) fun _ => rfl
  | setCardinality cardinality =>
      exact h.modifyCurrent ({ · with cardinality := some cardinality }) fun _ => rfl
  | setHierarchyType type =>
      exact h.modifyCurrent ({ · with hierarchyType := some type }) fun _ => rfl
  | save slot => exact h.takes
  | isCurrent slot =>
      unfold Session.perform
      dsimp only
      split <;> exact h
  | restore slot =>
      unfold Session.perform
      dsimp only
      split
      · rename_i checkpoint hlookup
        obtain ⟨newer, older, hslots, -⟩ := List.lookup_eq_some_iff.1 hlookup
        have hmem : (slot, checkpoint) ∈ session.slots := by
          rw [hslots]
          exact List.mem_append_right _ List.mem_cons_self
        exact h.returns (List.mem_map_of_mem hmem)
      · exact h

/-- Whatever operations a session has carried out, its builder has been used by them. -/
theorem run (ops : List Op) :
    Reached ((Session.empty.run ops).slots.map (·.2)) (Session.empty.run ops).builder := by
  suffices hrun : ∀ session : Session, Reached (session.slots.map (·.2)) session.builder →
      Reached ((session.run ops).slots.map (·.2)) (session.run ops).builder from
    hrun Session.empty .empty
  induction ops with
  | nil => exact fun _ h => h
  | cons op ops ih => exact fun session h => ih _ (h.perform op)

end Reached

theorem identified_of_reached {taken : List Checkpoint} (h : Reached taken builder) :
    builder.Identified ∧ ∀ checkpoint ∈ taken, 0 < checkpoint.nextId := by
  induction h with
  | empty => exact ⟨.empty, by simp⟩
  | opens _ hopen ih =>
      obtain ⟨-, -, rfl⟩ := openNode_ok.1 hopen
      exact ⟨ih.1.opened _ _, ih.2⟩
  | closes _ hclose ih =>
      obtain ⟨frame, outer, hinner, -, rfl⟩ := closeNode_ok.1 hclose
      exact ⟨ih.1.close hinner, ih.2⟩
  | grows _ hleaf ih =>
      obtain ⟨leaf, hid, -, hnext, rfl⟩ := exists_leaf_of_addLeaf hleaf
      exact ⟨ih.1.grown (hid.trans hnext), ih.2⟩
  | edits _ links cardinality type ih =>
      have hedited := ih.1.modifyTop (fun frame =>
          { frame with node := { frame.node with links, cardinality, hierarchyType := type } })
        (fun _ => rfl) (fun _ => rfl) fun _ _ => Or.inl
      exact ⟨hedited.1, ih.2⟩
  | takes _ ih => exact ⟨ih.1, List.forall_mem_cons.2 ⟨ih.1.nextId_pos, ih.2⟩⟩
  | returns _ hmem ih => exact ⟨ih.1.rollback (ih.2 _ hmem), ih.2⟩

/-- What ids are good for: nodes are told apart by them, and no operation replaces a node. -/
structure Identities (builder : Builder) : Prop where
  /-- The outermost is the start node. -/
  bottom : ∃ frame, builder.frames.getLast? = some frame ∧ frame.node.kind = .start ∧
    frame.node.id = Node.startId
  keyed : ∀ id node, builder.graph.get? id = some node → node.id = id
  distinct : (builder.allIds).Nodup
  below : ∀ id ∈ builder.allIds, id < builder.nextId
  bindings : ∀ frame ∈ builder.frames, ∀ kind name id, frame.scope.get? kind name = some id →
    id < builder.nextId
  opens : ∀ kind name id after, builder.openNode kind name = .ok (id, after) →
    id ∉ builder.allIds
  closes : ∀ id after, builder.closeNode = .ok (id, after) →
    builder.current.id = id ∧ builder.graph.Gains builder.current after.graph
  grows : ∀ kind links cardinality id after,
    builder.addLeaf kind links cardinality = .ok (id, after) →
      id ∉ builder.allIds ∧
        ∃ leaf, leaf.id = id ∧ builder.graph.Gains leaf after.graph
  finishes : ∀ graph, builder.finish = .ok graph → builder.graph.Gains builder.root.node graph

theorem Identified.identities (h : builder.Identified) : builder.Identities where
  bottom := ⟨builder.root, by simp [frames], h.rootKind, h.rootId⟩
  keyed := fun id node hnode => (Graph.mem_nodes_of_get? hnode).2
  distinct := h.distinct
  below := h.below
  bindings := by
    intro frame hframe kind name id hid
    obtain ⟨binding, hbinding, rfl⟩ := Option.map_eq_some_iff.1 hid
    exact h.bindings frame hframe binding (List.mem_of_find?_eq_some hbinding)
  opens := by
    intro kind name id after hopen
    obtain ⟨-, rfl, -⟩ := openNode_ok.1 hopen
    exact h.fresh
  closes := by
    intro id after hclose
    obtain ⟨frame, outer, hinner, rfl, rfl⟩ := closeNode_ok.1 hclose
    have hcurrent : builder.current = frame.node := by rw [current, top, hinner]; rfl
    have hopen : frame.node.id ∈ builder.openIds := by
      rw [openIds, frames, hinner]
      exact List.mem_cons_self
    rw [hcurrent]
    refine ⟨rfl, Graph.gains_insert fun hgraph => ?_⟩
    exact (List.nodup_append.1 h.distinct).2.2 _ hgraph _ hopen rfl
  grows := by
    intro kind links cardinality id after hleaf
    obtain ⟨leaf, rfl, -, hnext, rfl⟩ := exists_leaf_of_addLeaf hleaf
    have hfresh : leaf.id ∉ builder.allIds := hnext ▸ h.fresh
    exact ⟨hfresh, leaf, rfl, Graph.gains_insert (mt (List.mem_append_left _) hfresh)⟩
  finishes := by
    intro graph hfinish
    unfold finish at hfinish
    split at hfinish
    · cases hfinish
      have hopen : builder.root.node.id ∈ builder.openIds :=
        List.mem_map_of_mem (List.mem_append_right _ List.mem_cons_self)
      refine Graph.gains_insert fun hgraph => ?_
      exact (List.nodup_append.1 h.distinct).2.2 _ hgraph _ hopen rfl
    · cases hfinish

end Builder
end ErDiagram
