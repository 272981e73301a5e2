import ErDiagram.Builder.Stacks
import ErDiagram.Proofs.Identities
import Mathlib.Data.Bool.Basic

/-!
Two stacks that begin with the start node stay the frames of a builder, whatever is called: every
operation on them does what the operation of that builder does. So there always is a top of both to
work on, and what is left to fail is what is checked before the first change. An operation that fails
has changed nothing.
-/

namespace ErDiagram.Builder.Stacks

/-! ### The stacks of a builder -/

/-- The frames of a builder taken apart. -/
def ofBuilder (builder : Builder) : Stacks where
  nextId := builder.nextId
  nodes := builder.frames.map (·.node)
  scopes := builder.frames.map (·.scope)
  graph := builder.graph

variable (builder : Builder)

theorem ofBuilder_empty : ofBuilder Builder.empty = fresh := rfl

@[simp] theorem graph_ofBuilder : (ofBuilder builder).graph = builder.graph := rfl

theorem nodes_ofBuilder :
    (ofBuilder builder).nodes = builder.current :: builder.frames.tail.map (·.node) :=
  congrArg (List.map Frame.node) (frames_eq builder)

theorem scopes_ofBuilder :
    (ofBuilder builder).scopes = builder.top.scope :: builder.frames.tail.map (·.scope) :=
  congrArg (List.map Frame.scope) (frames_eq builder)

theorem ofBuilder_eq :
    ofBuilder builder =
      ⟨builder.nextId, builder.current :: builder.frames.tail.map (·.node),
        builder.top.scope :: builder.frames.tail.map (·.scope), builder.graph⟩ := by
  rw [← nodes_ofBuilder, ← scopes_ofBuilder]
  rfl

@[simp] theorem depth_ofBuilder : (ofBuilder builder).depth = builder.depth := by
  simp [depth, Builder.depth, ofBuilder, frames]

theorem ofBuilder_modifyTop (change : Frame → Frame) :
    ofBuilder (builder.modifyTop change) =
      ⟨builder.nextId, (change builder.top).node :: builder.frames.tail.map (·.node),
        (change builder.top).scope :: builder.frames.tail.map (·.scope), builder.graph⟩ := by
  have hnext : (builder.modifyTop change).nextId = builder.nextId := by
    unfold modifyTop
    split <;> rfl
  unfold ofBuilder
  rw [hnext, frames_modifyTop, graph_modifyTop]
  rfl

/-! ### The operations -/

/-- What is left of the stacks of a builder by one of its operations. -/
def leftBy : Except ScopeError (Nat × Builder) → EStateM.Result Failure Stacks Nat
  | .ok (id, after) => .ok id (ofBuilder after)
  | .error error => .error (.refused error) (ofBuilder builder)

/-- What a look-up in a builder comes to on its stacks. -/
def answered : Except ScopeError Nat → EStateM.Result Failure Stacks Nat
  | .ok id => .ok id (ofBuilder builder)
  | .error error => .error (.refused error) (ofBuilder builder)

/-! Actions are carried out step by step. -/

section

variable {α β : Type} (state : Stacks)

@[simp] theorem bind_apply (action : Action α) (next : α → Action β) :
    (action >>= next) state =
      match action state with
      | .ok value after => next value after
      | .error failure after => .error failure after := by
  cases h : action state <;> simp only [bind, EStateM.bind, h]

@[simp] theorem map_apply (change : α → β) (action : Action α) :
    (change <$> action) state =
      match action state with
      | .ok value after => .ok (change value) after
      | .error failure after => .error failure after := by
  cases h : action state <;> simp only [Functor.map, EStateM.map, h]

@[simp] theorem pure_apply (value : α) : (pure value : Action α) state = .ok value state := rfl

@[simp] theorem get_apply : (get : Action Stacks) state = .ok state state := rfl

@[simp] theorem set_apply (after : Stacks) : (set after : Action PUnit) state = .ok ⟨⟩ after := rfl

@[simp] theorem modify_apply (change : Stacks → Stacks) :
    (modify change : Action PUnit) state = .ok ⟨⟩ (change state) := rfl

@[simp] theorem throw_apply (failure : Failure) :
    (throw failure : Action α) state = .error failure state := rfl

end

theorem edit_ofBuilder (change : Node → Node) :
    edit change (ofBuilder builder) = .ok () (ofBuilder (builder.modifyCurrent change)) := by
  unfold modifyCurrent
  rw [ofBuilder_modifyTop, ofBuilder_eq]
  rfl

theorem openNode_ofBuilder (kind : Node.Kind) (name : String) :
    openNode kind name (ofBuilder builder) = leftBy builder (builder.openNode kind name) := by
  cases hbound : builder.top.scope.get? kind name with
  | some id =>
      have hopen : builder.openNode kind name = .error (.duplicate kind name) := by
        simp only [Builder.openNode, hbound]
      rw [hopen]
      simp [openNode, bindName, scopes_ofBuilder, hbound, leftBy]
  | none =>
      have hleft : ofBuilder (builder.opened kind name) =
          ⟨builder.nextId + 1,
            Node.bare kind builder.nextId name :: (builder.top.link builder.nextId).node ::
              builder.frames.tail.map (·.node),
            Scope.empty :: builder.top.scope.bind kind name builder.nextId ::
              builder.frames.tail.map (·.scope), builder.graph⟩ := by
        rw [ofBuilder, frames_opened]
        change Stacks.mk _ _ _ (builder.modifyTop _).graph = _
        rw [graph_modifyTop]
        rfl
      rw [openNode_ok.2 ⟨hbound, rfl, rfl⟩, leftBy, hleft, ofBuilder_eq]
      simp [openNode, bindName, hbound, allocate, link, edit, Builder.current, Frame.link]

theorem closeNode_ofBuilder :
    closeNode (ofBuilder builder) = leftBy builder builder.closeNode := by
  obtain ⟨nextId, root, inner, graph⟩ := builder
  cases inner with
  | nil => rfl
  | cons frame outer => simp [closeNode, leftBy, ofBuilder, frames, Builder.closeNode]

theorem addLeaf_ofBuilder (kind : Node.Kind) (links : List Nat)
    (cardinality : Option Cardinality) :
    addLeaf kind links cardinality (ofBuilder builder) =
      leftBy builder (builder.addLeaf kind links cardinality) := by
  cases hsuffix : leafSuffix? kind with
  | none => simp [addLeaf, Builder.addLeaf, hsuffix, leftBy]
  | some suffix =>
      have hleft (leaf : Node) : ofBuilder (builder.grown leaf) =
          ⟨builder.nextId + 1,
            (builder.top.link leaf.id).node :: builder.frames.tail.map (·.node),
            builder.top.scope :: builder.frames.tail.map (·.scope),
            builder.graph.insert leaf⟩ := by
        rw [ofBuilder, frames_grown]
        rfl
      rw [addLeaf_ok hsuffix, leftBy, hleft, ofBuilder_eq]
      simp [addLeaf, hsuffix, allocate, link, edit, Builder.current, Frame.link]

theorem rollback_ofBuilder (checkpoint : Checkpoint) :
    rollback checkpoint (ofBuilder builder) = .ok () (ofBuilder (builder.rollback checkpoint)) := by
  simp [rollback, ofBuilder, frames, Builder.rollback]

theorem checkpoint_ofBuilder : (ofBuilder builder).checkpoint = builder.checkpoint := by
  simp [checkpoint, ofBuilder, frames, Builder.checkpoint]

theorem findVisible_ofBuilder (kind : Node.Kind) (name : String) :
    findVisible kind name (ofBuilder builder) =
      answered builder (builder.findVisible kind name) := by
  have hscopes : (ofBuilder builder).scopes.findSome? (·.get? kind name) =
      builder.frames.findSome? (·.scope.get? kind name) := by
    simp [ofBuilder, List.findSome?_map, Function.comp_def]
  cases hfind : builder.frames.findSome? (·.scope.get? kind name) <;>
    simp [findVisible, Builder.findVisible, hscopes, hfind, answered]

theorem findOwn_ofBuilder (kind : Node.Kind) (name : String) :
    findOwn kind name (ofBuilder builder) = answered builder (builder.findOwn kind name) := by
  cases hfind : builder.top.scope.get? kind name <;>
    simp [findOwn, Builder.findOwn, scopes_ofBuilder, hfind, answered]

theorem findAttribute_ofBuilder (owner : Nat) (name : String) :
    findAttribute owner name (ofBuilder builder) =
      answered builder (builder.findAttribute owner name) := by
  simp only [findAttribute, Builder.findAttribute, bind_apply, get_apply, graph_ofBuilder]
  cases builder.graph.get? owner with
  | none => rfl
  | some node =>
      cases hfind : (builder.graph.linkedNodes owner).find? fun child =>
          child.kind = .attribute && child.name = name <;>
        simp [answered]

theorem current_ofBuilder : current (ofBuilder builder) = .ok builder.current (ofBuilder builder) := by
  simp [current, nodes_ofBuilder]

theorem hasLinkTo_ofBuilder (kind : Node.Kind) :
    hasLinkTo kind (ofBuilder builder) = .ok (builder.hasLinkTo kind) (ofBuilder builder) := by
  simp [hasLinkTo, current_ofBuilder, Builder.hasLinkTo]

theorem finish_ofBuilder :
    finish (ofBuilder builder) =
      match builder.finish with
      | .ok graph => .ok graph ⟨builder.nextId, [], [builder.root.scope], graph⟩
      | .error error => .error (.refused error) (ofBuilder builder) := by
  obtain ⟨nextId, root, inner, graph⟩ := builder
  cases inner with
  | nil => rfl
  | cons frame outer => simp [finish, ofBuilder, frames, Builder.finish]

/-! ### What one call does -/

/-- What a call may come to on the stacks of a builder: it answers and leaves those of some builder,
or it is refused and leaves the same. -/
inductive Served : Answer × Stacks → Prop where
  | answers {answer : Answer} (hanswer : ∀ failure, answer ≠ .failed failure) (after : Builder) :
    Served (answer, ofBuilder after)
  | refuses (error : ScopeError) : Served (.failed (.refused error), ofBuilder builder)

variable {builder}

theorem served_carry_ok {α : Type} {action : Action α} {value : α} {after : Builder}
    (h : action (ofBuilder builder) = .ok value (ofBuilder after)) {answer : α → Answer}
    (hanswer : ∀ value failure, answer value ≠ .failed failure) :
    Served builder (carry answer action (ofBuilder builder)) := by
  rw [carry, h]
  exact .answers (hanswer value) after

theorem served_carry_leftBy {action : Action Nat} {result : Except ScopeError (Nat × Builder)}
    (h : action (ofBuilder builder) = leftBy builder result) :
    Served builder (carry .id action (ofBuilder builder)) := by
  rw [carry, h]
  cases result with
  | ok found => exact .answers (fun _ => Answer.noConfusion) found.2
  | error error => exact .refuses error

theorem served_carry_answered {action : Action Nat} {result : Except ScopeError Nat}
    (h : action (ofBuilder builder) = answered builder result) :
    Served builder (carry .id action (ofBuilder builder)) := by
  rw [carry, h]
  cases result with
  | ok id => exact .answers (fun _ => Answer.noConfusion) builder
  | error error => exact .refuses error

/-- Every call is served as by a builder. -/
theorem served_perform (builder : Builder) (call : Call) :
    Served builder ((ofBuilder builder).perform call) := by
  have hdone : ∀ (_ : Unit) failure, Answer.done ≠ .failed failure := by simp
  cases call with
  | openNode kind name => exact served_carry_leftBy (openNode_ofBuilder builder kind name)
  | closeNode => exact served_carry_leftBy (closeNode_ofBuilder builder)
  | addLeaf kind links cardinality =>
      exact served_carry_leftBy (addLeaf_ofBuilder builder kind links cardinality)
  | edit change => exact served_carry_ok (edit_ofBuilder builder change) hdone
  | rollback checkpoint => exact served_carry_ok (rollback_ofBuilder builder checkpoint) hdone
  | findVisible kind name => exact served_carry_answered (findVisible_ofBuilder builder kind name)
  | findOwn kind name => exact served_carry_answered (findOwn_ofBuilder builder kind name)
  | findAttribute owner name =>
      exact served_carry_answered (findAttribute_ofBuilder builder owner name)
  | current => exact served_carry_ok (current_ofBuilder builder) (by simp)
  | hasLinkTo kind => exact served_carry_ok (hasLinkTo_ofBuilder builder kind) (by simp)
  | checkpoint | depth | graph => exact .answers (by simp) builder

/-- Whatever is called, the stacks stay those of a builder. -/
theorem exists_after (calls : List Call) : ∃ builder, fresh.after calls = ofBuilder builder := by
  suffices h : ∀ builder, ∃ later, (ofBuilder builder).after calls = ofBuilder later from
    h Builder.empty
  induction calls with
  | nil => exact fun builder => ⟨builder, rfl⟩
  | cons call calls ih =>
      intro builder
      have hstep : ∃ next, ((ofBuilder builder).perform call).2 = ofBuilder next := by
        have hserved := served_perform builder call
        generalize (ofBuilder builder).perform call = outcome at hserved
        cases hserved with
        | answers hanswer after => exact ⟨after, rfl⟩
        | refuses error => exact ⟨builder, rfl⟩
      obtain ⟨next, hnext⟩ := hstep
      change ∃ later, ((ofBuilder builder).perform call).2.after calls = _
      rw [hnext]
      exact ih next

/-! ### When operations fail -/

/-- An action fails just if something is the case, with one failure and without effect. -/
structure FailsIff {α : Type} (action : Action α) (state : Stacks) (due : Prop) (failure : Failure) :
    Prop where
  fails : due → action state = .error failure state
  succeeds : ¬due → ∃ value after, action state = .ok value after

def BindsInnermost (state : Stacks) (kind : Node.Kind) (name : String) : Prop :=
  ∃ scope ∈ state.scopes.head?, ∃ id, ⟨kind, name, id⟩ ∈ scope.bindings

/-- A node links to an attribute of a name that is in the graph. -/
def LinksToAttribute (state : Stacks) (node : Node) (name : String) : Prop :=
  ∃ id ∈ node.links, ∃ child, state.graph.get? id = some child ∧ child.kind = .attribute ∧
    child.name = name

/-- Operations fail just when they should, never for want of an entry on a stack, and a call that
fails cannot be told from one that was not made. -/
structure FailsWhenDue (state : Stacks) : Prop where
  opening : ∀ kind name,
    FailsIff (openNode kind name) state (state.BindsInnermost kind name)
      (.refused (.duplicate kind name))
  closing : FailsIff closeNode state (state.depth = 1) (.refused (.misuse .closingStart))
  leaf : ∀ kind links cardinality,
    FailsIff (addLeaf kind links cardinality) state (kind ≠ .primaryKey ∧ kind ≠ .cardinality)
      (.refused (.misuse .leafKind))
  ownerless : ∀ owner name, owner ∉ state.graph.ids →
    findAttribute owner name state = .error (.refused (.unresolved .attribute name)) state
  owned : ∀ owner node name, state.graph.get? owner = some node →
    FailsIff (findAttribute owner name) state (¬state.LinksToAttribute node name)
      (.refused (.missingAttribute node.kind node.name name))
  finishing : FailsIff finish state (1 < state.depth) (.refused (.misuse .unfinished))
  current : ∃ node ∈ state.nodes.head?, Stacks.current state = .ok node state
  editing : ∀ change, ∃ after, edit change state = .ok () after
  hasLinkTo : ∀ kind, ∃ answer, Stacks.hasLinkTo kind state = .ok answer state
  checkpoint : ∃ start ∈ state.nodes.getLast?,
    state.checkpoint = ⟨state.nextId, start.links.length⟩
  rollback : ∀ checkpoint, ∃ after, Stacks.rollback checkpoint state = .ok () after
  refuses : ∀ call failure, (state.perform call).1 = .failed failure →
    ∃ error, failure = .refused error
  unchanged : ∀ call failure, (state.perform call).1 = .failed failure →
    (state.perform call).2 = state
  unseen : ∀ call failure, (state.perform call).1 = .failed failure →
    ∀ later, state.observe (call :: later) =
      (.failed failure :: (state.observe later).1, (state.observe later).2)

/-! ### Every operation of a builder -/

theorem failsIff_leftBy {action : Action Nat} {result : Except ScopeError (Nat × Builder)}
    {due : Prop} {error : ScopeError} (h : action (ofBuilder builder) = leftBy builder result)
    (hdue : due → result = .error error) (hfree : ¬due → ∃ found, result = .ok found) :
    FailsIff action (ofBuilder builder) due (.refused error) where
  fails hcase := by rw [h, hdue hcase, leftBy]
  succeeds hcase := by
    obtain ⟨found, hfound⟩ := hfree hcase
    exact ⟨found.1, ofBuilder found.2, by rw [h, hfound, leftBy]⟩

theorem bindsInnermost_ofBuilder {kind : Node.Kind} {name : String} :
    (ofBuilder builder).BindsInnermost kind name ↔ builder.top.scope.get? kind name ≠ none := by
  calc (ofBuilder builder).BindsInnermost kind name
    _ ↔ ∃ id, ⟨kind, name, id⟩ ∈ builder.top.scope.bindings := by
        simp [BindsInnermost, scopes_ofBuilder]
    _ ↔ ∃ binding ∈ builder.top.scope.bindings, binding.kind = kind ∧ binding.name = name := by
        constructor
        · rintro ⟨id, hid⟩
          exact ⟨_, hid, rfl, rfl⟩
        · rintro ⟨⟨_, _, id⟩, hid, rfl, rfl⟩
          exact ⟨id, hid⟩
    _ ↔ builder.top.scope.get? kind name ≠ none := by simp [Scope.get?]

theorem failsIff_openNode (kind : Node.Kind) (name : String) :
    FailsIff (openNode kind name) (ofBuilder builder)
      ((ofBuilder builder).BindsInnermost kind name) (.refused (.duplicate kind name)) := by
  apply failsIff_leftBy (openNode_ofBuilder builder kind name)
  · intro hbound
    obtain ⟨id, hid⟩ := Option.ne_none_iff_exists'.1 (bindsInnermost_ofBuilder.1 hbound)
    simp only [Builder.openNode, hid]
  · intro hfree
    rw [bindsInnermost_ofBuilder, not_not] at hfree
    exact ⟨_, openNode_ok.2 ⟨hfree, rfl, rfl⟩⟩

theorem failsIff_closeNode :
    FailsIff closeNode (ofBuilder builder) ((ofBuilder builder).depth = 1)
      (.refused (.misuse .closingStart)) := by
  rw [depth_ofBuilder]
  apply failsIff_leftBy (closeNode_ofBuilder builder) <;>
    cases hinner : builder.inner <;> simp [Builder.depth, Builder.closeNode, hinner]

theorem failsIff_addLeaf (kind : Node.Kind) (links : List Nat)
    (cardinality : Option Cardinality) :
    FailsIff (addLeaf kind links cardinality) (ofBuilder builder)
      (kind ≠ .primaryKey ∧ kind ≠ .cardinality) (.refused (.misuse .leafKind)) := by
  apply failsIff_leftBy (addLeaf_ofBuilder builder kind links cardinality) <;>
    cases kind <;> simp [Builder.addLeaf, leafSuffix?]

theorem find?_linkedNodes_eq_none {owner : Nat} {node : Node}
    (h : builder.graph.get? owner = some node) {name : String} :
    ((builder.graph.linkedNodes owner).find? fun child =>
        child.kind = .attribute && child.name = name) = none ↔
      ¬(ofBuilder builder).LinksToAttribute node name := by
  have hlinked : builder.graph.linkedNodes owner = node.links.filterMap builder.graph.get? := by
    simp only [Graph.linkedNodes, h]
  rw [hlinked, List.find?_eq_none]
  simp only [List.mem_filterMap, LinksToAttribute, graph_ofBuilder]
  grind

theorem failsIff_findAttribute {owner : Nat} {node : Node}
    (h : builder.graph.get? owner = some node) (name : String) :
    FailsIff (findAttribute owner name) (ofBuilder builder)
      (¬(ofBuilder builder).LinksToAttribute node name)
      (.refused (.missingAttribute node.kind node.name name)) := by
  have hanswer := findAttribute_ofBuilder builder owner name
  rw [← find?_linkedNodes_eq_none h]
  constructor
  · intro hnone
    rw [hanswer]
    simp [Builder.findAttribute, h, hnone, answered]
  · intro hsome
    obtain ⟨child, hchild⟩ := Option.ne_none_iff_exists'.1 hsome
    refine ⟨child.id, ofBuilder builder, ?_⟩
    rw [hanswer]
    simp [Builder.findAttribute, h, hchild, answered]

theorem failsIff_finish :
    FailsIff finish (ofBuilder builder) (1 < (ofBuilder builder).depth)
      (.refused (.misuse .unfinished)) := by
  rw [depth_ofBuilder]
  constructor <;> rw [finish_ofBuilder] <;>
    cases hinner : builder.inner <;> simp [Builder.depth, Builder.finish, hinner]

/-- A call that fails is refused and leaves everything as it is. -/
theorem refused_of_failed {call : Call} {failure : Failure}
    (h : ((ofBuilder builder).perform call).1 = .failed failure) :
    ∃ error, failure = .refused error ∧
      (ofBuilder builder).perform call = (.failed failure, ofBuilder builder) := by
  have hserved := served_perform builder call
  generalize (ofBuilder builder).perform call = outcome at h hserved
  cases hserved with
  | answers hanswer after => exact absurd h (hanswer failure)
  | refuses error =>
      cases h
      exact ⟨error, rfl, rfl⟩

theorem failsWhenDue_ofBuilder (builder : Builder) : (ofBuilder builder).FailsWhenDue where
  opening := failsIff_openNode
  closing := failsIff_closeNode
  leaf := failsIff_addLeaf
  ownerless owner name howner := by
    have hnone : builder.graph.get? owner = none := Graph.get?_eq_none howner
    rw [findAttribute_ofBuilder]
    simp only [Builder.findAttribute, hnone, answered]
  owned owner node name hnode := failsIff_findAttribute hnode name
  finishing := failsIff_finish
  current := ⟨builder.current, by simp [nodes_ofBuilder], current_ofBuilder builder⟩
  editing change := ⟨_, edit_ofBuilder builder change⟩
  hasLinkTo kind := ⟨_, hasLinkTo_ofBuilder builder kind⟩
  checkpoint := ⟨builder.root.node, by simp [ofBuilder, frames], checkpoint_ofBuilder builder⟩
  rollback checkpoint := ⟨_, rollback_ofBuilder builder checkpoint⟩
  refuses call failure h := by
    obtain ⟨error, herror, -⟩ := refused_of_failed h
    exact ⟨error, herror⟩
  unchanged call failure h := by
    obtain ⟨-, -, hperform⟩ := refused_of_failed h
    rw [hperform]
  unseen call failure h later := by
    obtain ⟨-, -, hperform⟩ := refused_of_failed h
    simp only [observe, hperform]

/-- After any calls, whatever checkpoints they go back to, operations fail just when they should, and
one that fails changes nothing. -/
theorem failsWhenDue_after (calls : List Call) : (fresh.after calls).FailsWhenDue := by
  obtain ⟨builder, hbuilder⟩ := exists_after calls
  rw [hbuilder]
  exact failsWhenDue_ofBuilder builder

end ErDiagram.Builder.Stacks
