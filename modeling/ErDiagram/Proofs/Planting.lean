import ErDiagram.Proofs.Acting
import ErDiagram.Proofs.Bodies
import ErDiagram.Proofs.Insertion
import ErDiagram.Proofs.Validity

/-!
Attributes in a builder. The actions of an attribute are carried out exactly if its name is not
bound in the innermost scope and the names inside it are distinct; then its tree is in the graph,
linked from the innermost frame.
-/

namespace ErDiagram.Builder

/-- The builder with an attribute declared in the innermost frame: bound and linked there, its
constructs in the graph. -/
def plant (builder : Builder) (owned : Attribute) : Builder :=
  { builder.modifyTop fun frame =>
      { frame.link builder.nextId with
        scope := frame.scope.bind .attribute owned.name builder.nextId } with
    nextId := builder.nextId + owned.tree.size
    graph := builder.graph.insertAll (owned.tree.nodes builder.nextId) }

theorem own?_plant (builder : Builder) (owned : Attribute) (name : String) :
    (builder.plant owned).own? name =
      if owned.name = name then some builder.nextId else builder.own? name := by
  have htop : (builder.plant owned).top.scope =
      builder.top.scope.bind .attribute owned.name builder.nextId := by
    unfold plant
    exact congrArg Frame.scope (top_modifyTop builder _)
  rw [own?, htop, Scope.get?_bind]
  simp [own?]

/-- What remains of a builder when attributes are declared in an inner frame, but for the scope of
that frame. -/
theorem foldl_plant {builder : Builder} {frame : Frame} {outer : List Frame}
    (h : builder.inner = frame :: outer) (attributes : List Attribute) :
    ∃ scope, attributes.foldl plant builder =
      { builder with
        nextId := builder.nextId + Tree.sizes (Attribute.trees attributes)
        inner :=
          ⟨{ frame.node with
              links := frame.node.links ++ Tree.roots builder.nextId (Attribute.trees attributes) },
            scope⟩ :: outer
        graph := builder.graph.insertAll
          (Tree.allNodes builder.nextId (Attribute.trees attributes)) } := by
  obtain ⟨nextId, root, inner, graph⟩ := builder
  cases h
  induction attributes generalizing nextId frame graph with
  | nil => exact ⟨frame.scope, by simp [Attribute.trees, Tree.sizes, Tree.roots, Tree.allNodes]⟩
  | cons first rest ih =>
      obtain ⟨scope, hrest⟩ := @ih ⟨{ frame.node with links := frame.node.links ++ [nextId] },
        frame.scope.bind .attribute first.name nextId⟩ (nextId + first.tree.size)
          (graph.insertAll (first.tree.nodes nextId))
      refine ⟨scope, hrest.trans ?_⟩
      simp only [Attribute.trees, Tree.sizes, Tree.roots, Tree.allNodes, Graph.insertAll_append,
        List.append_assoc, List.singleton_append, Nat.add_assoc]

/-- The builder with an attribute open that has nothing inside it yet. -/
def begun (builder : Builder) (name : String) (cardinality : Option Cardinality) : Builder :=
  { builder.opened .attribute name with
    inner := Frame.ofNode ⟨.attribute, builder.nextId, name, [], cardinality, none⟩ ::
      (builder.opened .attribute name).inner.tail }

theorem acts_bound (builder : Builder) (name : String) (cardinality : Option Cardinality) :
    meaning.acts (cardinality.toList.map .bound) (builder.opened .attribute name) =
      .ok (builder.begun name cardinality) := by
  cases cardinality <;> rfl

@[simp] theorem graph_modifyTop (builder : Builder) (change : Frame → Frame) :
    (builder.modifyTop change).graph = builder.graph := by
  unfold modifyTop
  split <;> rfl

/-- An attribute that is opened, filled and closed is planted. -/
theorem closed_eq_plant (builder : Builder) (name : String) (cardinality : Option Cardinality)
    (inside : List Attribute) :
    { builder.opened .attribute name with
      nextId := builder.nextId + 1 + Tree.sizes (Attribute.trees inside)
      inner := (builder.opened .attribute name).inner.tail
      graph := ((builder.begun name cardinality).graph.insertAll
        (Tree.allNodes (builder.nextId + 1) (Attribute.trees inside))).insert
          ⟨.attribute, builder.nextId, name,
            Tree.roots (builder.nextId + 1) (Attribute.trees inside), cardinality, none⟩ } =
      builder.plant ⟨name, cardinality, inside⟩ := by
  have hids : ∀ other ∈ Tree.allNodes (builder.nextId + 1) (Attribute.trees inside),
      other.id ≠ builder.nextId := by
    intro other hother
    have := (Tree.id_mem_allNodes hother).1
    omega
  have hgraph : (builder.begun name cardinality).graph = builder.graph := graph_modifyTop builder _
  rw [hgraph, Graph.insert_insertAll hids, plant, Attribute.tree, Tree.nodes, Tree.rootNode, Tree.size,
    List.append_nil]
  simp only [opened, List.tail_cons, Attribute.name]
  congr 1
  omega

mutual

/-- An attribute is declared exactly if its name is free and the names inside it are distinct. -/
theorem acts_attribute (owned : Attribute) {builder after : Builder} :
    meaning.acts owned.actions builder = .ok after ↔
      builder.own? owned.name = none ∧ owned.Distinct ∧ after = builder.plant owned := by
  obtain ⟨name, cardinality, inside⟩ := owned
  have hinside := @acts_attributes inside
  rw [Attribute.actions, Interpretation.acts_cons]
  simp only [act_declare, Interpretation.acts_append]
  obtain ⟨scope, hfilled⟩ := @foldl_plant (builder.begun name cardinality) _ _ rfl inside
  constructor
  · rintro ⟨_, ⟨hfree, rfl⟩, second, hbound, third, hfill, hclose⟩
    rw [acts_bound] at hbound
    cases hbound
    obtain ⟨-, hnames, hdistinct, rfl⟩ := hinside.1 hfill
    rw [hfilled, Interpretation.acts_singleton, act_close rfl] at hclose
    cases hclose
    exact ⟨hfree, .mk hnames hdistinct, closed_eq_plant builder name cardinality inside⟩
  · rintro ⟨hfree, ⟨hnames, hdistinct⟩, rfl⟩
    refine ⟨_, ⟨hfree, rfl⟩, _, acts_bound builder name cardinality, _,
      hinside.2 ⟨fun _ _ => rfl, hnames, hdistinct, rfl⟩, ?_⟩
    rw [hfilled, Interpretation.acts_singleton, act_close rfl]
    exact congrArg Except.ok (closed_eq_plant builder name cardinality inside)

/-- Attributes are declared one by one if their names are free and all different. -/
theorem acts_attributes (attributes : List Attribute) {builder after : Builder} :
    meaning.acts (Attribute.allActions attributes) builder = .ok after ↔
      (∀ owned ∈ attributes, builder.own? owned.name = none) ∧
        (attributes.map Attribute.name).Nodup ∧ (∀ owned ∈ attributes, owned.Distinct) ∧
          after = attributes.foldl plant builder := by
  cases attributes with
  | nil =>
      rw [Attribute.allActions, Interpretation.acts_nil]
      simp [eq_comm]
  | cons first rest =>
      have hfirst := @acts_attribute first
      have hrest := @acts_attributes rest
      rw [Attribute.allActions, Interpretation.acts_append]
      simp only [hfirst, hrest, List.forall_mem_cons, List.map_cons, List.nodup_cons,
        List.foldl_cons]
      -- Behind the first attribute, its name is the one that is bound in addition.
      have hfree : ∀ name, (builder.plant first).own? name = none ↔
          first.name ≠ name ∧ builder.own? name = none := by
        intro name
        rw [own?_plant]
        by_cases h : first.name = name <;> simp [h]
      constructor
      · rintro ⟨_, ⟨hname, hdistinct, rfl⟩, hnames, hnodup, hall, hafter⟩
        refine ⟨⟨hname, fun owned howned => ((hfree _).1 (hnames owned howned)).2⟩, ⟨?_, hnodup⟩,
          ⟨hdistinct, hall⟩, hafter⟩
        rw [List.mem_map]
        rintro ⟨owned, howned, heq⟩
        exact ((hfree _).1 (hnames owned howned)).1 heq.symm
      · rintro ⟨⟨hname, hnames⟩, ⟨hnew, hnodup⟩, ⟨hdistinct, hall⟩, hafter⟩
        refine ⟨_, ⟨hname, hdistinct, rfl⟩, fun owned howned => (hfree _).2 ⟨?_, hnames owned howned⟩,
          hnodup, hall, hafter⟩
        intro heq
        exact hnew (heq ▸ List.mem_map_of_mem howned)

end

end ErDiagram.Builder
