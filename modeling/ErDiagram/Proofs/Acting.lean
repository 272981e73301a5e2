import ErDiagram.Meaning
import ErDiagram.Proofs.Passage

/-!
What the actions of declarations do to a builder, one by one: when an action is carried out, and
which builder it leaves.
-/

namespace ErDiagram

namespace Builder

variable {builder after : Builder}

/-- The id that a name of a kind is bound to, from the innermost scope outwards. -/
def visible? (builder : Builder) (kind : Node.Kind) (name : String) : Option Nat :=
  builder.frames.findSome? (·.scope.get? kind name)

/-- The id that the name of an attribute is bound to in the innermost scope. -/
def own? (builder : Builder) (name : String) : Option Nat :=
  builder.top.scope.get? .attribute name

/-- The builder with a name bound and a node open for it. -/
def opened (builder : Builder) (kind : Node.Kind) (name : String) : Builder :=
  let outer := builder.modifyTop fun frame =>
    { frame.link builder.nextId with scope := frame.scope.bind kind name builder.nextId }
  { outer with
    nextId := builder.nextId + 1
    inner := Frame.ofNode (Node.bare kind builder.nextId name) :: outer.inner }

/-- The builder with a link to a leaf that is in the graph. -/
def grown (builder : Builder) (leaf : Node) : Builder :=
  { builder.link leaf.id with
    nextId := builder.nextId + 1
    graph := builder.graph.insert leaf }

theorem act_declare {kind : Node.Kind} {name : String} :
    meaning.act (.declare kind name) builder = .ok after ↔
      builder.top.scope.get? kind name = none ∧ after = builder.opened kind name := by
  change (Refusal.ofScope (builder.openNode kind name) >>= fun found => pure found.2) = _ ↔ _
  unfold openNode
  cases builder.top.scope.get? kind name with
  | some id =>
      constructor
      · intro h
        cases h
      · rintro ⟨h, -⟩
        cases h
  | none =>
      constructor
      · intro h
        cases h
        exact ⟨rfl, rfl⟩
      · rintro ⟨-, rfl⟩
        rfl

theorem act_classify {type : HierarchyType} :
    meaning.act (.classify type) builder = .ok (builder.setHierarchyType type) := rfl

theorem act_bound {cardinality : Cardinality} :
    meaning.act (.bound cardinality) builder = .ok (builder.setCardinality cardinality) := rfl

theorem act_close {frame : Frame} {outer : List Frame} (h : builder.inner = frame :: outer) :
    meaning.act .close builder =
      .ok { builder with inner := outer, graph := builder.graph.insert frame.node } := by
  change (Refusal.ofScope builder.closeNode >>= fun found => pure found.2) = _
  unfold closeNode
  rw [h]
  rfl

theorem act_lacksKey :
    meaning.act .lacksKey builder = .ok after ↔
      builder.hasLinkTo .primaryKey = false ∧ after = builder := by
  change (if builder.hasLinkTo .primaryKey then Except.error Refusal.secondKey else pure builder) = _ ↔
    _
  cases builder.hasLinkTo .primaryKey with
  | true => simp
  | false => simp [pure, Except.pure, eq_comm]

theorem findOwn_ok {name : String} {id : Nat} :
    builder.findOwn .attribute name = .ok id ↔ builder.own? name = some id := by
  unfold findOwn own?
  cases builder.top.scope.get? .attribute name <;> simp

theorem findVisible_ok {kind : Node.Kind} {name : String} {id : Nat} :
    builder.findVisible kind name = .ok id ↔ builder.visible? kind name = some id := by
  unfold findVisible visible?
  cases builder.frames.findSome? (·.scope.get? kind name) <;> simp

/-- A step that is taken when an operation on a builder is not refused. -/
theorem ofScope_bind_ok {α β : Type} {result : Except ScopeError α} {next : α → Except Refusal β}
    {b : β} :
    (Refusal.ofScope result >>= next) = .ok b ↔ ∃ a, result = .ok a ∧ next a = .ok b := by
  cases result with
  | error error =>
      constructor
      · intro h
        cases h
      · rintro ⟨_, h, -⟩
        cases h
  | ok a =>
      constructor
      · exact fun h => ⟨a, rfl, h⟩
      · rintro ⟨_, h, hnext⟩
        cases h
        exact hnext

theorem pure_eq_ok {α : Type} {a b : α} : (pure a : Except Refusal α) = .ok b ↔ b = a := by
  constructor
  · intro h
    cases h
    rfl
  · rintro rfl
    rfl

theorem act_ownsAttribute {name : String} :
    meaning.act (.ownsAttribute name) builder = .ok after ↔
      (∃ id, builder.own? name = some id) ∧ after = builder := by
  change (Refusal.ofScope (builder.findOwn .attribute name) >>= fun _ => pure builder) = _ ↔ _
  simp only [ofScope_bind_ok, findOwn_ok, pure_eq_ok, exists_and_right]

theorem act_knows {kind : Node.Kind} {name : String} :
    meaning.act (.knows kind name) builder = .ok after ↔
      (∃ id, builder.visible? kind name = some id) ∧ after = builder := by
  change (Refusal.ofScope (builder.findVisible kind name) >>= fun _ => pure builder) = _ ↔ _
  simp only [ofScope_bind_ok, findVisible_ok, pure_eq_ok, exists_and_right]

theorem act_mention {kind : Node.Kind} {name : String} :
    meaning.act (.mention kind name) builder = .ok after ↔
      ∃ id, builder.visible? kind name = some id ∧ after = builder.link id := by
  change (Refusal.ofScope (builder.findVisible kind name) >>= fun id => pure (builder.link id)) = _ ↔
    _
  simp only [ofScope_bind_ok, findVisible_ok, pure_eq_ok]

theorem addLeaf_ok {kind : Node.Kind} {suffix : String} (h : leafSuffix? kind = some suffix)
    (links : List Nat) (cardinality : Option Cardinality) :
    builder.addLeaf kind links cardinality =
      .ok (builder.nextId, builder.grown ⟨kind, builder.nextId,
        builder.nextId.repr ++ "_" ++ suffix, links, cardinality, none⟩) := by
  unfold addLeaf
  rw [h]
  rfl

theorem act_branch {entity : String} {cardinality : Cardinality} :
    meaning.act (.branch entity cardinality) builder = .ok after ↔
      ∃ id, builder.visible? .entity entity = some id ∧
        after = builder.grown ⟨.cardinality, builder.nextId, builder.nextId.repr ++ "_" ++ "card",
          [id], some cardinality, none⟩ := by
  change (Refusal.ofScope (builder.findVisible .entity entity) >>= fun id =>
    Refusal.ofScope (builder.addLeaf .cardinality [id] (some cardinality)) >>= fun found =>
      pure found.2) = _ ↔ _
  have hsuffix : leafSuffix? .cardinality = some "card" := rfl
  simp only [ofScope_bind_ok, findVisible_ok, addLeaf_ok hsuffix, pure_eq_ok, Except.ok.injEq,
    exists_eq_left']

theorem mapM_findOwn_ok {names : List String} {ids : List Nat} :
    names.mapM (builder.findOwn .attribute) = .ok ids ↔
      (∀ name ∈ names, ∃ id, builder.own? name = some id) ∧ ids = names.filterMap builder.own? := by
  induction names generalizing ids with
  | nil =>
      rw [List.mapM_nil]
      simp [pure, Except.pure, eq_comm]
  | cons name rest ih =>
      rw [List.mapM_cons, List.forall_mem_cons, List.filterMap_cons]
      cases hname : builder.own? name with
      | none =>
          have hfind : ∀ id, builder.findOwn .attribute name ≠ .ok id := by
            intro id hid
            rw [findOwn_ok, hname] at hid
            cases hid
          cases hresult : builder.findOwn .attribute name with
          | ok id => exact absurd hresult (hfind id)
          | error error => simp [bind, Except.bind]
      | some id =>
          rw [findOwn_ok.2 hname]
          constructor
          · intro h
            cases hrest : rest.mapM (builder.findOwn .attribute) with
            | error error =>
                rw [hrest] at h
                cases h
            | ok found =>
                rw [hrest] at h
                cases h
                obtain ⟨hall, rfl⟩ := ih.1 hrest
                exact ⟨⟨⟨id, rfl⟩, hall⟩, rfl⟩
          · rintro ⟨⟨-, hall⟩, rfl⟩
            rw [ih.2 ⟨hall, rfl⟩]
            rfl

theorem act_primaryKey {names : List String} :
    meaning.act (.primaryKey names) builder = .ok after ↔
      (∀ name ∈ names, ∃ id, builder.own? name = some id) ∧
        after = builder.grown ⟨.primaryKey, builder.nextId, builder.nextId.repr ++ "_" ++ "pk",
          names.filterMap builder.own?, none, none⟩ := by
  change (Refusal.ofScope (names.mapM (builder.findOwn .attribute)) >>= fun ids =>
    Refusal.ofScope (builder.addLeaf .primaryKey ids none) >>= fun found => pure found.2) = _ ↔ _
  have hsuffix : leafSuffix? .primaryKey = some "pk" := rfl
  simp only [ofScope_bind_ok, mapM_findOwn_ok, addLeaf_ok hsuffix, pure_eq_ok, Except.ok.injEq,
    exists_eq_left', and_assoc, exists_and_left, exists_eq_left]

theorem act_attributeOf {name entity : String} :
    meaning.act (.attributeOf name entity) builder = .ok after ↔
      ∃ owner id, builder.visible? .entity entity = some owner ∧
        builder.findAttribute owner name = .ok id ∧ after = builder.link id := by
  change (Refusal.ofScope (builder.findVisible .entity entity) >>= fun owner =>
    Refusal.ofScope (builder.findAttribute owner name) >>= fun id => pure (builder.link id)) = _ ↔ _
  simp only [ofScope_bind_ok, findVisible_ok, pure_eq_ok, exists_and_left]

end Builder

end ErDiagram
