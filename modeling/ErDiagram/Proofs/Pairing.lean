import ErDiagram.Proofs.Stacking

/-!
Two stacks in any use. Calls that are refused half-way and returns to stale checkpoints included, the
stacks are of one height and the start node stays at the bottom; they are the stacks of a builder that
is used in the same way, so its ids are told apart in them as well.
-/

namespace ErDiagram.Builder

namespace Stacks

/-- A call that may be made when some checkpoints were taken: an edit leaves a node its kind, id and
name, and a return goes to one of the checkpoints. -/
def Call.Allowed (taken : List Checkpoint) : Call → Prop
  | .edit change => ∀ node, change node = { node with
      links := (change node).links
      cardinality := (change node).cardinality
      hierarchyType := (change node).hierarchyType }
  | .rollback past => past ∈ taken
  | _ => True

/-- Stacks that any use leads to, with the checkpoints that were taken on the way, the newest
first. -/
inductive Reached : List Checkpoint → Stacks → Prop where
  | fresh : Reached [] fresh
  | performs {taken : List Checkpoint} {state : Stacks} (h : Reached taken state) (call : Call)
      (hcall : call.Allowed taken) : Reached taken (state.perform call).2
  | takes {taken : List Checkpoint} {state : Stacks} (h : Reached taken state) :
      Reached (state.checkpoint :: taken) state

/-- The stacks are of one height, and the start node is at the bottom. -/
structure Paired (state : Stacks) : Prop where
  level : state.nodes.length = state.scopes.length
  nonempty : 1 ≤ state.nodes.length
  bottom : ∃ node ∈ state.nodes.getLast?, node.kind = .start ∧ node.id = Node.startId

variable {builder : Builder} {taken : List Checkpoint}

theorem paired_ofBuilder (h : builder.Identities) : (ofBuilder builder).Paired where
  level := by simp [ofBuilder]
  nonempty := by simp [ofBuilder, frames]
  bottom := by
    obtain ⟨frame, hframe, hkind, hid⟩ := h.bottom
    exact ⟨frame.node, by simp [ofBuilder, hframe], hkind, hid⟩

/-! ### What calls lead to -/

/-- Stacks of a builder in some use. -/
def Shows (taken : List Checkpoint) (state : Stacks) : Prop :=
  ∃ builder, Builder.Reached taken builder ∧ state = ofBuilder builder

theorem shows_carry_leftBy (h : Builder.Reached taken builder) {action : Action Nat}
    {result : Except ScopeError (Nat × Builder)}
    (haction : action (ofBuilder builder) = leftBy builder result)
    (hresult : ∀ id after, result = .ok (id, after) → Builder.Reached taken after) :
    Shows taken (carry .id action (ofBuilder builder)).2 := by
  rw [carry, haction]
  cases result with
  | ok found => exact ⟨found.2, hresult found.1 found.2 rfl, rfl⟩
  | error error => exact ⟨builder, h, rfl⟩

theorem shows_carry_answered (h : Builder.Reached taken builder) {action : Action Nat}
    {result : Except ScopeError Nat}
    (haction : action (ofBuilder builder) = answered builder result) :
    Shows taken (carry .id action (ofBuilder builder)).2 := by
  rw [carry, haction]
  cases result <;> exact ⟨builder, h, rfl⟩

theorem shows_carry_ok {α : Type} {action : Action α} {answer : α → Answer} {value : α}
    (h : Builder.Reached taken builder) {before : Builder}
    (haction : action (ofBuilder before) = .ok value (ofBuilder builder)) :
    Shows taken (carry answer action (ofBuilder before)).2 := by
  rw [carry, haction]
  exact ⟨builder, h, rfl⟩

/-- A call uses the builder of the stacks. -/
theorem shows_perform (h : Builder.Reached taken builder) {call : Call}
    (hcall : call.Allowed taken) : Shows taken ((ofBuilder builder).perform call).2 := by
  cases call with
  | openNode kind name =>
      exact shows_carry_leftBy h (openNode_ofBuilder builder kind name) fun _ _ => h.opens
  | closeNode => exact shows_carry_leftBy h (closeNode_ofBuilder builder) fun _ _ => h.closes
  | addLeaf kind links cardinality =>
      exact shows_carry_leftBy h (addLeaf_ofBuilder builder kind links cardinality) fun _ _ =>
        h.grows
  | edit change => exact shows_carry_ok (h.modifyCurrent change hcall) (edit_ofBuilder builder change)
  | rollback checkpoint =>
      exact shows_carry_ok (h.returns hcall) (rollback_ofBuilder builder checkpoint)
  | findVisible kind name => exact shows_carry_answered h (findVisible_ofBuilder builder kind name)
  | findOwn kind name => exact shows_carry_answered h (findOwn_ofBuilder builder kind name)
  | findAttribute owner name =>
      exact shows_carry_answered h (findAttribute_ofBuilder builder owner name)
  | current => exact shows_carry_ok h (current_ofBuilder builder)
  | hasLinkTo kind => exact shows_carry_ok h (hasLinkTo_ofBuilder builder kind)
  | checkpoint | depth | graph => exact ⟨builder, h, rfl⟩

/-- Stacks that are used show a builder that is used. -/
theorem Reached.shows {state : Stacks} (h : Reached taken state) : Shows taken state := by
  induction h with
  | fresh => exact ⟨Builder.empty, .empty, ofBuilder_empty.symm⟩
  | performs _ call hcall ih =>
      obtain ⟨builder, hbuilder, rfl⟩ := ih
      exact shows_perform hbuilder hcall
  | takes _ ih =>
      obtain ⟨builder, hbuilder, rfl⟩ := ih
      rw [checkpoint_ofBuilder]
      exact ⟨builder, hbuilder.takes, rfl⟩

end Stacks

/-- Whatever is done with a builder, and to whatever checkpoint it goes back, its nodes keep ids of
their own below the next one, and no operation replaces a node. On two stacks nothing else is reached:
they stay of one height above the start node. -/
theorem identities_of_reached {taken : List Checkpoint} :
    (∀ builder, Reached taken builder → builder.Identities) ∧
      ∀ state, Stacks.Reached taken state → state.Paired ∧
        ∃ builder, Reached taken builder ∧ state = Stacks.ofBuilder builder := by
  have hbuilder : ∀ builder, Reached taken builder → builder.Identities :=
    fun builder h => (identified_of_reached h).1.identities
  refine ⟨hbuilder, fun state h => ?_⟩
  obtain ⟨builder, hreached, rfl⟩ := h.shows
  exact ⟨Stacks.paired_ofBuilder (hbuilder builder hreached), builder, hreached, rfl⟩

/-- A session that goes back to the beginning, and then ahead of it to a checkpoint inside a
declaration that is gone; and stacks on which a name is declared twice and a checkpoint is gone back
to from inside the declaration. -/
theorem identities_of_reached_ahead :
    (∃ taken builder, Reached taken builder ∧ builder = (Session.empty.run
        [.save "start", .openNode .entity "a", .openNode .attribute "x", .save "in x",
          .restore "start", .restore "in x", .openNode .entity "b", .link 7, .closeNode]).builder ∧
      builder.graph.ids = [3] ∧ builder.nextId = 4 ∧ builder.Identities) ∧
    ∃ taken state, Stacks.Reached taken state ∧ state = Stacks.fresh.after
        [.openNode .entity "a", .openNode .attribute "x", .closeNode, .openNode .attribute "x",
          .openNode .attribute "y", .rollback ⟨2, 1⟩, .openNode .entity "b"] ∧
      state.nodes.map (·.id) = [2, 0] ∧ state.Paired := by
  have hrun := Reached.run
    [.save "start", .openNode .entity "a", .openNode .attribute "x", .save "in x",
      .restore "start", .restore "in x", .openNode .entity "b", .link 7, .closeNode]
  have htaken := (Stacks.Reached.fresh.performs (.openNode .entity "a") trivial).takes
  have hstacks := (((((htaken.performs (.openNode .attribute "x") trivial).performs .closeNode
    trivial).performs (.openNode .attribute "x") trivial).performs (.openNode .attribute "y")
    trivial).performs (.rollback ⟨2, 1⟩) List.mem_cons_self).performs (.openNode .entity "b") trivial
  exact ⟨⟨_, _, hrun, rfl, by decide, by decide, identities_of_reached.1 _ hrun⟩,
    _, _, hstacks, rfl, by decide, (identities_of_reached.2 _ hstacks).1⟩

end ErDiagram.Builder
