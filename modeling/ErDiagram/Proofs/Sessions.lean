import ErDiagram.Builder.Session
import ErDiagram.Proofs.Undo

/-!
Sessions of any length. Whatever has been done with a builder, all that it knows has ids below the
next one. So whenever none but the start node is open, the present can be kept as two numbers:
operations that follow, refused or not, add nothing but newer ids and links behind the old ones, and
going back takes away just those. Checkpoints that are kept and gone back to on the way do no harm,
as they are no older.

Details are the exception. They are set in place, so setting one of the start node is not undone.
-/

namespace ErDiagram

theorem Scope.before_before {first later : Nat} (h : first ≤ later) (scope : Scope) :
    (scope.before later).before first = scope.before first := by
  unfold before
  rw [List.filter_filter]
  congr 2
  funext binding
  grind

theorem Graph.before_before {first later : Nat} (h : first ≤ later) (graph : Graph) :
    (graph.before later).before first = graph.before first := by
  have hnodes : (graph.nodes.filter (·.id < later)).filter (·.id < first) =
      graph.nodes.filter (·.id < first) := by
    rw [List.filter_filter]
    congr 1
    funext node
    grind
  exact eq_of_nodes hnodes

namespace Builder

/-- An operation that sets a detail of the node that is being built. -/
def Op.SetsDetail : Op → Prop
  | .setCardinality _ => True
  | .setHierarchyType _ => True
  | _ => False

instance (op : Op) : Decidable op.SetsDetail := by
  cases op <;> unfold Op.SetsDetail <;> infer_instance

namespace Session

/-- A session that goes on with a builder and has kept no checkpoints yet. -/
def ofBuilder (builder : Builder) : Session :=
  ⟨builder, []⟩

/-- Details are only set while a construct is open, never those of the start node. -/
def SparesStart (session : Session) : List Op → Prop
  | [] => True
  | op :: ops =>
    (op.SetsDetail → 1 < session.builder.depth) ∧ SparesStart (session.perform op).2 ops

instance decidableSparesStart : (session : Session) → (ops : List Op) →
    Decidable (session.SparesStart ops)
  | _, [] => isTrue trivial
  | session, op :: ops =>
    have := decidableSparesStart (session.perform op).2 ops
    inferInstanceAs (Decidable ((op.SetsDetail → 1 < session.builder.depth) ∧
      SparesStart (session.perform op).2 ops))

/-! ### What one operation can do -/

/-- What one operation may make of the builder of a session. -/
inductive Moves (session : Session) (op : Op) : Builder → Prop where
  | stays : Moves session op session.builder
  | opens (kind : Node.Kind) (name : String) : Moves session op (session.builder.opened kind name)
  | closes {frame : Frame} {outer : List Frame} (h : session.builder.inner = frame :: outer) :
    Moves session op { session.builder with
      inner := outer
      graph := session.builder.graph.insert frame.node }
  | grows {leaf : Node} (h : leaf.id = session.builder.nextId) :
    Moves session op (session.builder.grown leaf)
  | links (id : Nat) : Moves session op (session.builder.link id)
  | sets {change : Node → Node} (hdetail : op.SetsDetail) (hid : ∀ node, (change node).id = node.id)
    (hlinks : ∀ node, (change node).links = node.links) :
    Moves session op (session.builder.modifyCurrent change)
  | returns {slot : String} {checkpoint : Checkpoint} (h : (slot, checkpoint) ∈ session.slots) :
    Moves session op (session.builder.rollback checkpoint)

theorem moves_perform (session : Session) (op : Op) :
    Moves session op (session.perform op).2.builder := by
  cases op with
  | openNode kind name =>
      change Moves _ _ (session.proceed (session.builder.openNode kind name)).2.builder
      unfold openNode
      split
      · exact .stays
      · exact .opens kind name
  | closeNode =>
      change Moves _ _ (session.proceed session.builder.closeNode).2.builder
      unfold closeNode
      split
      · exact .stays
      · rename_i frame outer hinner
        exact .closes hinner
  | addLeaf kind links cardinality =>
      change Moves _ _ (session.proceed (session.builder.addLeaf kind links cardinality)).2.builder
      cases hsuffix : leafSuffix? kind with
      | none =>
          unfold addLeaf
          rw [hsuffix]
          exact .stays
      | some suffix =>
          rw [addLeaf_ok hsuffix]
          exact .grows rfl
  | findVisible | findOwn | findAttribute | hasLinkTo | save | graph => exact .stays
  | link id => exact .links id
  | setCardinality cardinality =>
      change Moves _ _ (session.builder.modifyCurrent ({ · with cardinality := some cardinality }))
      apply Moves.sets
      · trivial
      · exact fun _ => rfl
      · exact fun _ => rfl
  | setHierarchyType type =>
      change Moves _ _ (session.builder.modifyCurrent ({ · with hierarchyType := some type }))
      apply Moves.sets
      · trivial
      · exact fun _ => rfl
      · exact fun _ => rfl
  | isCurrent slot =>
      unfold perform
      dsimp only
      split <;> exact .stays
  | restore slot =>
      unfold perform
      dsimp only
      split
      · rename_i checkpoint hlookup
        obtain ⟨newer, older, hslots, -⟩ := List.lookup_eq_some_iff.1 hlookup
        have hmem : (slot, checkpoint) ∈ session.slots := by
          rw [hslots]
          exact List.mem_append_right _ List.mem_cons_self
        exact .returns hmem
      · exact .stays

/-- Checkpoints are kept of the present only. -/
theorem slots_perform {session : Session} {op : Op} {slot : String} {checkpoint : Checkpoint}
    (h : (slot, checkpoint) ∈ (session.perform op).2.slots) :
    (slot, checkpoint) ∈ session.slots ∨ checkpoint = session.builder.checkpoint := by
  have hproceed : ∀ result, (session.proceed result).2.slots = session.slots := by
    intro result
    cases result <;> rfl
  cases op with
  | save other =>
      rcases List.mem_cons.1 h with heq | h
      · exact Or.inr (Prod.mk.inj heq).2
      · exact Or.inl h
  | openNode | closeNode | addLeaf => exact Or.inl (hproceed _ ▸ h)
  | isCurrent other | restore other =>
      unfold perform at h
      dsimp only at h
      split at h <;> exact Or.inl h
  | _ => exact Or.inl h

end Session

/-! ### All ids stay below the next one -/

variable {builder : Builder}

theorem modifyTop_later (builder : Builder) (nextId : Nat) (change : Frame → Frame) :
    { builder with nextId }.modifyTop change = { builder.modifyTop change with nextId } := by
  unfold modifyTop
  split <;> simp_all

namespace Bounded

theorem empty : Builder.empty.Bounded where
  bindings _ h := by cases h
  nodes _ h := by cases h
  frames _ h := by cases h

/-- More ids may be given out. -/
theorem later (h : builder.Bounded) {nextId : Nat} (hnext : builder.nextId ≤ nextId) :
    Bounded { builder with nextId } where
  bindings binding hbinding := Nat.lt_of_lt_of_le (h.bindings binding hbinding) hnext
  nodes node hnode := Nat.lt_of_lt_of_le (h.nodes node hnode) hnext
  frames frame hframe := Nat.lt_of_lt_of_le (h.frames frame hframe) hnext

/-- The innermost node may change as long as it keeps its id and has no names of later ids. -/
theorem modifyTop (h : builder.Bounded) {change : Frame → Frame}
    (hid : ∀ frame, (change frame).node.id = frame.node.id)
    (hbindings : ∀ frame, ∀ binding ∈ (change frame).scope.bindings,
      binding ∈ frame.scope.bindings ∨ binding.id < builder.nextId) :
    (builder.modifyTop change).Bounded := by
  obtain ⟨nextId, root, inner, graph⟩ := builder
  cases inner with
  | nil =>
      refine ⟨fun binding hbinding => ?_, h.nodes, h.frames⟩
      rcases hbindings root binding hbinding with hold | hnew
      · exact h.bindings binding hold
      · exact hnew
  | cons frame outer =>
      refine ⟨h.bindings, h.nodes, fun other hother => ?_⟩
      rcases List.mem_cons.1 hother with rfl | hother
      · rw [hid]
        exact h.frames frame List.mem_cons_self
      · exact h.frames other (List.mem_cons_of_mem _ hother)

theorem link (h : builder.Bounded) (id : Nat) : (builder.link id).Bounded :=
  h.modifyTop (fun _ => rfl) fun _ _ => Or.inl

theorem insert (h : builder.Bounded) {node : Node} (hnode : node.id < builder.nextId) :
    Bounded { builder with graph := builder.graph.insert node } where
  bindings := h.bindings
  nodes := by
    intro other hother
    rcases Graph.eq_or_mem_of_mem_insertNode hother with rfl | hother
    · exact hnode
    · exact h.nodes other hother
  frames := h.frames

theorem opened (h : builder.Bounded) (kind : Node.Kind) (name : String) :
    (builder.opened kind name).Bounded := by
  have houter : Bounded ({ builder with nextId := builder.nextId + 1 }.modifyTop fun frame =>
      { frame.link builder.nextId with scope := frame.scope.bind kind name builder.nextId }) := by
    apply (h.later (Nat.le_succ _)).modifyTop
    · exact fun _ => rfl
    · intro frame binding hbinding
      rcases List.mem_cons.1 hbinding with rfl | hbinding
      · exact Or.inr (Nat.lt_succ_self _)
      · exact Or.inl hbinding
  rw [modifyTop_later] at houter
  refine ⟨houter.bindings, houter.nodes, fun frame hframe => ?_⟩
  rcases List.mem_cons.1 hframe with rfl | hframe
  · exact Nat.lt_succ_self _
  · exact houter.frames frame hframe

theorem grown (h : builder.Bounded) {leaf : Node} (hleaf : leaf.id = builder.nextId) :
    (builder.grown leaf).Bounded := by
  have hlink := (h.later (Nat.le_succ _)).link leaf.id
  unfold Builder.link at hlink
  rw [modifyTop_later] at hlink
  have hid : leaf.id < builder.nextId + 1 := hleaf ▸ Nat.lt_succ_self _
  have hinsert := hlink.insert hid
  dsimp only at hinsert
  rwa [graph_modifyTop] at hinsert

theorem rollback (builder : Builder) (checkpoint : Checkpoint) :
    (builder.rollback checkpoint).Bounded where
  bindings _ h := of_decide_eq_true (List.mem_filter.1 h).2
  nodes _ h := of_decide_eq_true (List.mem_filter.1 h).2
  frames _ h := by cases h

theorem moves {session : Session} {op : Op} {after : Builder} (h : session.builder.Bounded)
    (hmoves : Session.Moves session op after) : after.Bounded := by
  cases hmoves with
  | stays => exact h
  | opens kind name => exact h.opened kind name
  | @closes frame outer hinner =>
      have hinsert := h.insert (h.frames frame (hinner ▸ List.mem_cons_self))
      exact ⟨hinsert.bindings, hinsert.nodes,
        fun other hother => h.frames other (hinner ▸ List.mem_cons_of_mem _ hother)⟩
  | grows hleaf => exact h.grown hleaf
  | links id => exact h.link id
  | sets _ hid _ => exact h.modifyTop (fun frame => hid frame.node) fun _ _ => Or.inl
  | returns => exact rollback _ _

end Bounded

/-- Whatever has been done since the beginning, with checkpoints new or stale. -/
theorem bounded_run {session : Session} (h : session.builder.Bounded) (ops : List Op) :
    (session.run ops).builder.Bounded := by
  induction ops generalizing session with
  | nil => exact h
  | cons op ops ih => exact ih (h.moves (session.moves_perform op))

/-! ### Whatever is done can be undone -/

/-- A checkpoint that is not older than a builder. -/
structure Follows (checkpoint : Checkpoint) (before : Builder) : Prop where
  nextId : before.nextId ≤ checkpoint.nextId
  rootLinks : before.root.node.links.length ≤ checkpoint.rootLinks

variable {before now : Builder}

/-- Going back in two steps is going back in one. -/
theorem rollback_rollback (now : Builder) {checkpoint : Checkpoint}
    (h : Follows checkpoint before) :
    (now.rollback checkpoint).rollback before.checkpoint = now.rollback before.checkpoint := by
  have hlinks : (now.root.node.links.take checkpoint.rootLinks).take
      before.root.node.links.length = now.root.node.links.take before.root.node.links.length := by
    rw [List.take_take, Nat.min_eq_left h.rootLinks]
  unfold Builder.rollback Builder.checkpoint
  dsimp only
  rw [Scope.before_before h.nextId, Graph.before_before h.nextId, hlinks]

namespace Since

theorem follows (h : Since before now) : Follows now.checkpoint before :=
  ⟨h.later, h.links⟩

/-- Going back on the way does not change what going back all the way leads to. -/
theorem rollback (h : Since before now) {checkpoint : Checkpoint}
    (hfollows : Follows checkpoint before) : Since before (now.rollback checkpoint) where
  restores := (rollback_rollback now hfollows).trans h.restores
  later := hfollows.nextId
  frames _ hframe := by cases hframe
  links := by
    change before.root.node.links.length ≤ (now.root.node.links.take checkpoint.rootLinks).length
    rw [List.length_take]
    exact Nat.le_min.2 ⟨hfollows.rootLinks, h.links⟩

theorem trans {first : Builder} (h : Since first before) (h' : Since before now) :
    Since first now where
  restores := by
    calc now.rollback first.checkpoint
        = (now.rollback before.checkpoint).rollback first.checkpoint :=
          (rollback_rollback now h.follows).symm
      _ = before.rollback first.checkpoint := by rw [h'.restores]
      _ = first := h.restores
  later := Nat.le_trans h.later h'.later
  frames frame hframe := Nat.le_trans h.later (h'.frames frame hframe)
  links := Nat.le_trans h.links h'.links

theorem moves {session : Session} {op : Op} {after : Builder} (h : Since before session.builder)
    (hslots : ∀ slot checkpoint, (slot, checkpoint) ∈ session.slots → Follows checkpoint before)
    (hspares : op.SetsDetail → 1 < session.builder.depth) (hmoves : Session.Moves session op after) :
    Since before after := by
  cases hmoves with
  | stays => exact h
  | opens kind name => exact h.opened kind name
  | @closes frame outer hinner =>
      have hinsert := h.insert (h.frames frame (hinner ▸ List.mem_cons_self))
      exact ⟨hinsert.restores, hinsert.later,
        fun other hother => h.frames other (hinner ▸ List.mem_cons_of_mem _ hother), hinsert.links⟩
  | grows hleaf => exact h.grown hleaf
  | links id => exact h.link id
  | sets hdetail hid hlinks =>
      have hinner : session.builder.inner ≠ [] := by
        intro hnil
        have hdepth := hspares hdetail
        rw [depth, hnil] at hdepth
        exact Nat.lt_irrefl _ hdepth
      exact h.setting hinner hid hlinks
  | @returns slot checkpoint hslot => exact h.rollback (hslots slot checkpoint hslot)

end Since

theorem since_run {session : Session} (h : Since before session.builder)
    (hslots : ∀ slot checkpoint, (slot, checkpoint) ∈ session.slots → Follows checkpoint before)
    {ops : List Op} (hspares : session.SparesStart ops) : Since before (session.run ops).builder := by
  induction ops generalizing session with
  | nil => exact h
  | cons op ops ih =>
      obtain ⟨hop, hops⟩ := hspares
      refine ih (h.moves hslots hop (session.moves_perform op)) (fun slot checkpoint hslot => ?_) hops
      rcases Session.slots_perform hslot with hold | rfl
      · exact hslots slot checkpoint hold
      · exact h.follows

/-- Take any builder that some operations on a fresh one have led to, with none but the start node
open. Whatever operations follow, refused or carried out, with checkpoints kept and gone back to
among themselves: as long as none sets a detail of the start node, going back to the checkpoint of
that builder gives the same builder again. -/
theorem rollback_run {history later : List Op} {builder : Builder}
    (hreached : (Session.empty.run history).builder = builder) (hdepth : builder.depth = 1)
    (hspares : (Session.ofBuilder builder).SparesStart later) :
    ((Session.ofBuilder builder).run later).builder.rollback builder.checkpoint = builder := by
  have hbounded : builder.Bounded := hreached ▸ bounded_run .empty history
  have hinner : builder.inner = [] := List.eq_nil_of_length_eq_zero (Nat.succ.inj hdepth)
  refine (since_run (hbounded.since hinner) (fun slot checkpoint hslot => ?_) hspares).restores
  cases hslot

/-- A declaration that is given up half way, behind a stale checkpoint, a refused name and a link to
nowhere. -/
theorem rollback_run_half_way :
    (Session.empty.run [.openNode .entity "a", .save "in a", .closeNode, .restore "in a"]).builder.depth
        = 1 ∧
      ((Session.ofBuilder (Session.empty.run
          [.openNode .entity "a", .save "in a", .closeNode, .restore "in a"]).builder).run
        [.openNode .entity "b", .openNode .attribute "x", .setCardinality ⟨.many, .many⟩, .save "in x",
          .closeNode, .openNode .attribute "x", .addLeaf .primaryKey [3] none, .restore "in x",
          .openNode .entity "a", .link 7]).builder.rollback
        (Session.empty.run
          [.openNode .entity "a", .save "in a", .closeNode, .restore "in a"]).builder.checkpoint =
      (Session.empty.run
        [.openNode .entity "a", .save "in a", .closeNode, .restore "in a"]).builder :=
  ⟨by decide, rollback_run rfl (by decide) (by decide)⟩

end Builder
end ErDiagram
