import ErDiagram.Proofs.Building
import ErDiagram.Proofs.Keeping
import ErDiagram.Proofs.References

/-!
A declaration that stops has no effect. Wherever it stops, the builder has only gained since the
declaration began: ids, open nodes, and nodes, names and links with the ids that it gained. Going
back to the checkpoint takes all of that away again.
-/

namespace ErDiagram

/-- What is left of the frame of the start node when a builder goes back to a checkpoint. -/
def Frame.before (frame : Frame) (checkpoint : Checkpoint) : Frame where
  node := { frame.node with links := frame.node.links.take checkpoint.rootLinks }
  scope := frame.scope.before checkpoint.nextId

theorem Frame.before_link {frame : Frame} {checkpoint : Checkpoint}
    (h : checkpoint.rootLinks ≤ frame.node.links.length) (id : Nat) :
    (frame.link id).before checkpoint = frame.before checkpoint := by
  unfold Frame.before Frame.link
  rw [List.take_append_of_le_length h]

theorem Scope.before_bind {scope : Scope} {first id : Nat} (h : first ≤ id) (kind : Node.Kind)
    (name : String) : (scope.bind kind name id).before first = scope.before first := by
  unfold Scope.before Scope.bind
  rw [List.filter_cons_of_neg (by simpa using h)]

theorem Frame.before_bind {frame : Frame} {checkpoint : Checkpoint} {id : Nat}
    (h : checkpoint.nextId ≤ id) (kind : Node.Kind) (name : String) :
    Frame.before { frame with scope := frame.scope.bind kind name id } checkpoint =
      frame.before checkpoint :=
  congrArg (Frame.mk _) (Scope.before_bind h kind name)

theorem Graph.filter_insertNode {node : Node} {first : Nat} (h : first ≤ node.id)
    (nodes : List Node) :
    (insertNode node nodes).filter (·.id < first) = nodes.filter (·.id < first) := by
  have hnode : ¬node.id < first := Nat.not_lt.2 h
  induction nodes with
  | nil => simp [insertNode, hnode]
  | cons other rest ih =>
      rw [insertNode]
      split
      · simp [hnode]
      · split
        · rename_i heq
          simp [hnode, ← heq]
        · rw [List.filter_cons, List.filter_cons, ih]

theorem Graph.before_insert {graph : Graph} {node : Node} {first : Nat} (h : first ≤ node.id) :
    (graph.insert node).before first = graph.before first :=
  eq_of_nodes (filter_insertNode h graph.nodes)

namespace Builder

variable {before now : Builder}

/-- A builder has only gained since an earlier one, which it becomes again by going back. -/
structure Since (before now : Builder) : Prop where
  restores : now.rollback before.checkpoint = before
  later : before.nextId ≤ now.nextId
  frames : ∀ frame ∈ now.inner, before.nextId ≤ frame.node.id
  links : before.root.node.links.length ≤ now.root.node.links.length

namespace Since

/-- The innermost node may change, but the start node no more than going back undoes. -/
theorem modifyTop (h : Since before now) {change : Frame → Frame}
    (hid : ∀ frame, (change frame).node.id = frame.node.id)
    (hlinks : ∀ frame, frame.node.links.length ≤ (change frame).node.links.length)
    (hroot : now.inner = [] →
      (change now.root).before before.checkpoint = now.root.before before.checkpoint) :
    Since before (now.modifyTop change) := by
  obtain ⟨nextId, root, inner, graph⟩ := now
  cases inner with
  | nil =>
      refine ⟨?_, h.later, h.frames, Nat.le_trans h.links (hlinks root)⟩
      calc rollback ⟨nextId, change root, [], graph⟩ before.checkpoint
          = ⟨before.nextId, (change root).before before.checkpoint, [],
              graph.before before.nextId⟩ := rfl
        _ = before := by
            rw [hroot rfl]
            exact h.restores
  | cons frame outer =>
      refine ⟨h.restores, h.later, fun other hother => ?_, h.links⟩
      rcases List.mem_cons.1 hother with rfl | hother
      · rw [hid]
        exact h.frames frame List.mem_cons_self
      · exact h.frames other (List.mem_cons_of_mem _ hother)

theorem link (h : Since before now) (id : Nat) : Since before (now.link id) := by
  apply h.modifyTop
  · exact fun _ => rfl
  · intro frame
    simp [Frame.link]
  · exact fun _ => Frame.before_link h.links id

theorem insert (h : Since before now) {node : Node} (hnode : before.nextId ≤ node.id) :
    Since before { now with graph := now.graph.insert node } where
  restores := by
    calc rollback { now with graph := now.graph.insert node } before.checkpoint
        = ⟨before.nextId, now.root.before before.checkpoint, [],
            (now.graph.insert node).before before.nextId⟩ := rfl
      _ = before := by
          rw [Graph.before_insert hnode]
          exact h.restores
  later := h.later
  frames := h.frames
  links := h.links

theorem opened (h : Since before now) (kind : Node.Kind) (name : String) :
    Since before (now.opened kind name) := by
  have houter : Since before (now.modifyTop fun frame =>
      { frame.link now.nextId with scope := frame.scope.bind kind name now.nextId }) := by
    apply h.modifyTop
    · exact fun _ => rfl
    · intro frame
      simp [Frame.link]
    · intro _
      exact (Frame.before_bind h.later kind name).trans (Frame.before_link h.links now.nextId)
  refine ⟨houter.restores, Nat.le_succ_of_le h.later, fun frame hframe => ?_, houter.links⟩
  rcases List.mem_cons.1 hframe with rfl | hframe
  · exact h.later
  · exact houter.frames frame hframe

theorem grown (h : Since before now) {leaf : Node} (hleaf : leaf.id = now.nextId) :
    Since before (now.grown leaf) := by
  have hinsert := (h.link leaf.id).insert (hleaf ▸ h.later)
  refine ⟨?_, Nat.le_succ_of_le h.later, hinsert.frames, hinsert.links⟩
  calc rollback (now.grown leaf) before.checkpoint
      = rollback { now.link leaf.id with graph := (now.link leaf.id).graph.insert leaf }
          before.checkpoint := by
        unfold Builder.link
        rw [graph_modifyTop]
        rfl
    _ = before := hinsert.restores

theorem setting (h : Since before now) (hinner : now.inner ≠ []) {change : Node → Node}
    (hid : ∀ node, (change node).id = node.id) (hlinks : ∀ node, (change node).links = node.links) :
    Since before (now.modifyCurrent change) := by
  apply h.modifyTop
  · exact fun frame => hid frame.node
  · intro frame
    rw [hlinks]
  · exact fun hnil => absurd hnil hinner

end Since

/-- All that a builder knows has ids below the next one. -/
structure Bounded (builder : Builder) : Prop where
  bindings : ∀ binding ∈ builder.root.scope.bindings, binding.id < builder.nextId
  nodes : ∀ node ∈ builder.graph.nodes, node.id < builder.nextId
  frames : ∀ frame ∈ builder.inner, frame.node.id < builder.nextId

/-- As long as nothing is done, there is nothing to undo. -/
theorem Bounded.since (h : before.Bounded) (hinner : before.inner = []) : Since before before where
  restores := by
    obtain ⟨nextId, ⟨node, scope⟩, inner, graph⟩ := before
    obtain rfl : inner = [] := hinner
    have hscope : scope.before nextId = scope := by
      unfold Scope.before
      rw [List.filter_eq_self.2]
      intro binding hbinding
      exact decide_eq_true (h.bindings binding hbinding)
    have hgraph : graph.before nextId = graph := by
      apply Graph.eq_of_nodes
      exact List.filter_eq_self.2 fun node hnode => decide_eq_true (h.nodes node hnode)
    have hlinks : node.links.take node.links.length = node.links := List.take_length
    simp only [rollback, checkpoint, hscope, hgraph, hlinks]
  later := Nat.le_refl _
  frames := by
    intro frame hframe
    rw [hinner] at hframe
    cases hframe
  links := Nat.le_refl _

/-- Whatever actions are carried out after a builder, they can be undone. -/
theorem guards_since (before : Builder) :
    meaning.Guards (Since before) fun now => Since before now ∧ now.inner ≠ [] where
  safe_of_inside _ h := h.1
  declare := by
    intro kind name now after h hact
    obtain ⟨-, rfl⟩ := act_declare.1 hact
    exact ⟨h.opened kind name, List.cons_ne_nil _ _⟩
  detail := by
    intro action now after haction h hact
    cases action with
    | classify type =>
        rw [act_classify] at hact
        cases hact
        exact h.1.setting h.2 (fun _ => rfl) fun _ => rfl
    | bound cardinality =>
        rw [act_bound] at hact
        cases hact
        exact h.1.setting h.2 (fun _ => rfl) fun _ => rfl
    | _ => exact haction.elim
  other := by
    intro action now after haction h hact
    cases action with
    | classify | bound => exact absurd trivial haction
    | declare kind name =>
        obtain ⟨-, rfl⟩ := act_declare.1 hact
        exact h.opened kind name
    | close =>
        cases hinner : now.inner with
        | nil =>
            change (Refusal.ofScope now.closeNode >>= fun found => pure found.2) = _ at hact
            obtain ⟨found, hclose, -⟩ := ofScope_bind_ok.1 hact
            rw [closeNode, hinner] at hclose
            cases hclose
        | cons frame outer =>
            rw [act_close hinner] at hact
            cases hact
            have hinsert := h.insert (h.frames frame (hinner ▸ List.mem_cons_self))
            refine ⟨hinsert.restores, hinsert.later, fun other hother => ?_, hinsert.links⟩
            exact h.frames other (hinner ▸ List.mem_cons_of_mem _ hother)
    | lacksKey =>
        obtain ⟨-, rfl⟩ := act_lacksKey.1 hact
        exact h
    | ownsAttribute name =>
        obtain ⟨-, rfl⟩ := act_ownsAttribute.1 hact
        exact h
    | knows kind name =>
        obtain ⟨-, rfl⟩ := act_knows.1 hact
        exact h
    | primaryKey names =>
        obtain ⟨-, rfl⟩ := act_primaryKey.1 hact
        exact h.grown rfl
    | branch entity cardinality =>
        obtain ⟨id, -, rfl⟩ := act_branch.1 hact
        exact h.grown rfl
    | attributeOf name entity =>
        obtain ⟨owner, id, -, -, rfl⟩ := act_attributeOf.1 hact
        exact h.link id
    | mention kind name =>
        obtain ⟨id, -, rfl⟩ := act_mention.1 hact
        exact h.link id

end Builder

namespace Diagram

theorem id_lt_of_mem_scope {diagram : Diagram} {binding : Binding}
    (h : binding ∈ diagram.scope.bindings) : binding.id < diagram.nextId := by
  obtain ⟨place, hplace, rfl⟩ := List.mem_map.1 (List.mem_reverse.1 h)
  obtain ⟨front, declaration, back, hsplit, hmem⟩ := mem_inOrder.1 hplace
  rw [List.nil_append, List.mem_singleton] at hmem
  subst hmem
  rw [hsplit]
  exact nextId_lt front declaration back

/-- Behind some declarations, there is nothing to undo. -/
theorem since_builder (diagram : Diagram) : diagram.builder.Since diagram.builder := by
  refine Builder.Bounded.since ⟨fun binding => id_lt_of_mem_scope, fun node hnode => ?_, ?_⟩ rfl
  · rw [builder, Graph.nodes_insertAll_empty (Tree.ascending_allNodes _ _)] at hnode
    have hid := (Tree.id_mem_allNodes hnode).2
    rw [sizes_trees] at hid
    exact hid
  · intro frame hframe
    cases hframe

/-- A declaration that stops behind some declarations has no effect. -/
theorem undo_builder {diagram : Diagram} {budget : Nat} {owner : Node.Kind}
    {before after : Reading Builder} {fault : Fault Refusal} (hbefore : before.state = diagram.builder)
    (h : Reader.field Builder.meaning budget owner before = .error fault after) :
    Builder.meaning.undo before.state after.state = before.state := by
  rw [hbefore]
  refine Builder.Since.restores ((Keeps.field (Builder.guards_since diagram.builder) budget owner).error
    ?_ h)
  rw [hbefore]
  exact diagram.since_builder

end Diagram
end ErDiagram
