import ErDiagram.Proofs.Acting

/-!
What actions are refused for. Each but the end of a construct is refused only for what the source
text says, and none but the beginning and the end of a construct change how many are open.
-/

namespace ErDiagram

/-- The refusal says something about the source text, not about the compiler. -/
def Refusal.Reportable (refusal : Refusal) : Prop :=
  refusal.category?.isSome

def Action.KeepsOpen : Action → Prop
  | .declare .. => False
  | .close => False
  | _ => True

theorem Action.KeepsOpen.ne_close {action : Action} (h : action.KeepsOpen) : action ≠ .close := by
  rintro rfl
  exact h

def Action.names : Action → List String
  | .declare _ name | .ownsAttribute name | .knows _ name | .mention _ name => [name]
  | .primaryKey names => names
  | .branch entity _ => [entity]
  | .attributeOf name entity => [name, entity]
  | .classify _ | .bound _ | .close | .lacksKey => []

theorem Refusal.ofScope_bind_error {α β : Type} {result : Except ScopeError α}
    {next : α → Except Refusal β} {refusal : Refusal} (h : (ofScope result >>= next) = .error refusal) :
    (∃ error, result = .error error ∧ refusal = .scope error) ∨
      ∃ a, result = .ok a ∧ next a = .error refusal := by
  cases result with
  | error error =>
      cases h
      exact Or.inl ⟨error, rfl, rfl⟩
  | ok a => exact Or.inr ⟨a, rfl, h⟩

namespace Builder

open Refusal (ofScope_bind_error)

variable {builder after : Builder} {action : Action} {refusal : Refusal}

theorem length_inner_modifyTop (builder : Builder) (change : Frame → Frame) :
    (builder.modifyTop change).inner.length = builder.inner.length :=
  Nat.succ.inj (depth_modifyTop builder change)

theorem length_inner_declare {kind : Node.Kind} {name : String}
    (h : meaning.act (.declare kind name) builder = .ok after) :
    after.inner.length = builder.inner.length + 1 := by
  obtain ⟨-, rfl⟩ := act_declare.1 h
  exact congrArg (· + 1) (length_inner_modifyTop builder _)

/-- Only beginnings and ends of constructs change how many are open. -/
theorem length_inner_act (hkeeps : action.KeepsOpen) (h : meaning.act action builder = .ok after) :
    after.inner.length = builder.inner.length := by
  cases action with
  | declare | close => exact hkeeps.elim
  | classify type =>
      rw [act_classify] at h
      cases h
      exact length_inner_modifyTop builder _
  | bound cardinality =>
      rw [act_bound] at h
      cases h
      exact length_inner_modifyTop builder _
  | lacksKey => rw [(act_lacksKey.1 h).2]
  | ownsAttribute name => rw [(act_ownsAttribute.1 h).2]
  | knows kind name => rw [(act_knows.1 h).2]
  | primaryKey names =>
      rw [(act_primaryKey.1 h).2]
      exact length_inner_modifyTop builder _
  | branch entity cardinality =>
      obtain ⟨id, -, rfl⟩ := act_branch.1 h
      exact length_inner_modifyTop builder _
  | attributeOf name entity =>
      obtain ⟨owner, id, -, -, rfl⟩ := act_attributeOf.1 h
      exact length_inner_modifyTop builder _
  | mention kind name =>
      obtain ⟨id, -, rfl⟩ := act_mention.1 h
      exact length_inner_modifyTop builder _

/-! ### What actions are refused for -/

theorem findOwn_error {kind : Node.Kind} {name : String} {error : ScopeError}
    (h : builder.findOwn kind name = .error error) : error = .unresolved kind name := by
  unfold findOwn at h
  split at h
  · cases h
  · cases h
    rfl

theorem findVisible_error {kind : Node.Kind} {name : String} {error : ScopeError}
    (h : builder.findVisible kind name = .error error) : error = .unresolved kind name := by
  unfold findVisible at h
  split at h
  · cases h
  · cases h
    rfl

theorem mapM_findOwn_error {kind : Node.Kind} {names : List String} {error : ScopeError}
    (h : names.mapM (builder.findOwn kind) = .error error) :
    ∃ name ∈ names, error = .unresolved kind name := by
  induction names with
  | nil => cases h
  | cons name rest ih =>
      rw [List.mapM_cons] at h
      cases hname : builder.findOwn kind name with
      | error other =>
          rw [hname] at h
          cases h
          exact ⟨name, List.mem_cons_self, findOwn_error hname⟩
      | ok id =>
          rw [hname] at h
          cases hrest : rest.mapM (builder.findOwn kind) with
          | error other =>
              rw [hrest] at h
              cases h
              obtain ⟨word, hword, herror⟩ := ih hrest
              exact ⟨word, List.mem_cons_of_mem _ hword, herror⟩
          | ok ids =>
              rw [hrest] at h
              cases h

theorem findAttribute_error {owner : Nat} {name : String} {error : ScopeError}
    (h : builder.findAttribute owner name = .error error) :
    error = .unresolved .attribute name ∨
      ∃ node ∈ builder.graph.nodes, error = .missingAttribute node.kind node.name name := by
  unfold findAttribute at h
  split at h
  · cases h
    exact Or.inl rfl
  · rename_i node hnode
    split at h
    · cases h
    · cases h
      exact Or.inr ⟨node, (Graph.mem_nodes_of_get? hnode).1, rfl⟩

/-- What an action may be refused for. The names that are quoted are those that the action gives, or
that of a node. -/
inductive Refuses (builder : Builder) (action : Action) : Refusal → Prop where
  | duplicate {name : String} (kind : Node.Kind) (hname : name ∈ action.names) :
      Refuses builder action (.scope (.duplicate kind name))
  | unresolved {name : String} (kind : Node.Kind) (hname : name ∈ action.names) :
      Refuses builder action (.scope (.unresolved kind name))
  | missingAttribute {node : Node} {name : String} (hnode : node ∈ builder.graph.nodes)
      (hname : name ∈ action.names) :
      Refuses builder action (.scope (.missingAttribute node.kind node.name name))
  | secondKey : Refuses builder action .secondKey
  | closingStart (hclose : action = .close) :
      Refuses builder action (.scope (.misuse .closingStart))

theorem refuses_of_act (h : meaning.act action builder = .error refusal) :
    Refuses builder action refusal := by
  cases action with
  | classify | bound => cases h
  | close =>
      rcases ofScope_bind_error h with ⟨error, hclose, rfl⟩ | ⟨_, _, hnext⟩
      · unfold closeNode at hclose
        split at hclose
        · cases hclose
          exact .closingStart rfl
        · cases hclose
      · cases hnext
  | declare kind name =>
      rcases ofScope_bind_error h with ⟨error, hopen, rfl⟩ | ⟨_, _, hnext⟩
      · unfold openNode at hopen
        split at hopen
        · cases hopen
          exact .duplicate kind (List.mem_singleton_self name)
        · cases hopen
      · cases hnext
  | lacksKey =>
      change (if builder.hasLinkTo .primaryKey then Except.error Refusal.secondKey else pure builder) =
        _ at h
      split at h
      · cases h
        exact .secondKey
      · cases h
  | ownsAttribute name =>
      rcases ofScope_bind_error h with ⟨error, hfind, rfl⟩ | ⟨_, _, hnext⟩
      · rw [findOwn_error hfind]
        exact .unresolved _ (List.mem_singleton_self name)
      · cases hnext
  | knows kind name =>
      rcases ofScope_bind_error h with ⟨error, hfind, rfl⟩ | ⟨_, _, hnext⟩
      · rw [findVisible_error hfind]
        exact .unresolved _ (List.mem_singleton_self name)
      · cases hnext
  | primaryKey names =>
      rcases ofScope_bind_error h with ⟨error, hfind, rfl⟩ | ⟨ids, _, hnext⟩
      · obtain ⟨name, hname, rfl⟩ := mapM_findOwn_error hfind
        exact .unresolved _ hname
      · have hsuffix : leafSuffix? .primaryKey = some "pk" := rfl
        rw [addLeaf_ok hsuffix] at hnext
        cases hnext
  | branch entity cardinality =>
      rcases ofScope_bind_error h with ⟨error, hfind, rfl⟩ | ⟨id, _, hnext⟩
      · rw [findVisible_error hfind]
        exact .unresolved _ (List.mem_singleton_self entity)
      · have hsuffix : leafSuffix? .cardinality = some "card" := rfl
        rw [addLeaf_ok hsuffix] at hnext
        cases hnext
  | attributeOf name entity =>
      have hentity : entity ∈ [name, entity] := List.mem_cons_of_mem name List.mem_cons_self
      rcases ofScope_bind_error h with ⟨error, hfind, rfl⟩ | ⟨owner, _, hnext⟩
      · rw [findVisible_error hfind]
        exact .unresolved _ hentity
      · rcases ofScope_bind_error hnext with ⟨error, hfind, rfl⟩ | ⟨_, _, hlast⟩
        · rcases findAttribute_error hfind with rfl | ⟨node, hnode, rfl⟩
          · exact .unresolved _ List.mem_cons_self
          · exact .missingAttribute hnode List.mem_cons_self
        · cases hlast
  | mention kind name =>
      rcases ofScope_bind_error h with ⟨error, hfind, rfl⟩ | ⟨_, _, hnext⟩
      · rw [findVisible_error hfind]
        exact .unresolved _ (List.mem_singleton_self name)
      · cases hnext

/-- Whatever is refused says something about the source text, as long as no construct is closed. -/
theorem reportable_of_act (hclose : action ≠ .close)
    (h : meaning.act action builder = .error refusal) : refusal.Reportable := by
  cases refuses_of_act h with
  | closingStart heq => exact absurd heq hclose
  | duplicate | unresolved | missingAttribute | secondKey => rfl

end Builder

end ErDiagram
