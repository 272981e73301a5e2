import ErDiagram.Proofs.Compiling
import ErDiagram.Proofs.Orderly

/-!
What holds of every graph that a source text compiles to: its ids are dense, its links make a tree
in which they are numbered, whatever else is linked to was declared before and is of the right kind,
and a node has the details that its kind has and no others.
-/

namespace ErDiagram

namespace Graph

/-- The ids are 0, 1, 2 and so on, and the first one is that of the start node, which is the only
one of its kind. -/
structure Numbered (graph : Graph) : Prop where
  ids : graph.ids = List.range graph.size
  keys : ∀ id, id < graph.size ↔ ∃ node, graph.get? id = some node ∧ node.id = id
  start : ∃ node, graph.root? = some node ∧ node.kind = .start ∧ node.name = "start"
  only : ∀ node ∈ graph.nodes, node.kind = .start → node.id = Node.startId

/-- The nodes contain what their kinds may contain, and each but the start node is contained once.
Going through the graph from the start node, every node before what it contains, finds the ids in
their order. Nodes side by side differ in kind or in name, and an entity has one primary key at
most. -/
structure Nested (graph : Graph) : Prop where
  holds : ∀ node ∈ graph.nodes, ∀ id ∈ node.contained,
    ∃ child, graph.get? id = some child ∧ node.kind.holds child.kind = true
  once : ∀ node ∈ graph.nodes, node.id ≠ Node.startId →
    (graph.nodes.flatMap Node.contained).count node.id = 1
  preorder : graph.Visits [Node.startId] graph.ids
  siblings : ∀ node ∈ graph.nodes,
    ((node.contained.filterMap graph.get?).map fun child => (child.kind, child.name)).Nodup
  singleKey : ∀ node ∈ graph.nodes, node.kind = .entity →
    (graph.linkedNodes node.id).countP (·.kind = .primaryKey) ≤ 1

/-- What a node mentions has a smaller id than the node: the attributes of a primary key are
declared directly in the entity that has the key, a branch leads to one entity, a hierarchy to
entities, and a foreign key to entities, to associations and to attributes that are declared
directly in an entity. -/
structure Referring (graph : Graph) : Prop where
  earlier : ∀ node ∈ graph.nodes, ∀ id ∈ node.mentioned, id < node.id
  keys : ∀ node ∈ graph.nodes, node.kind = .primaryKey →
    ∃ entity ∈ graph.nodes, entity.kind = .entity ∧ node.id ∈ entity.links ∧
      ∀ id ∈ node.links, id ∈ entity.links ∧ graph.HasKind id .attribute
  branches : ∀ node ∈ graph.nodes, node.kind = .cardinality →
    ∃ id, node.links = [id] ∧ graph.HasKind id .entity
  hierarchies : ∀ node ∈ graph.nodes, node.kind = .hierarchy →
    ∀ id ∈ node.links, graph.HasKind id .entity
  foreignKeys : ∀ node ∈ graph.nodes, node.kind = .foreignKey → ∀ id ∈ node.links,
    graph.HasKind id .entity ∨ graph.HasKind id .association ∨ graph.OwnsAttribute id

end Graph

/-- A node has the name and the details that its kind calls for. The classification of a hierarchy
is one that can be written. -/
structure Node.Detailed (node : Node) : Prop where
  keyName : node.kind = .primaryKey → node.name = node.id.repr ++ "_pk"
  branchName : node.kind = .cardinality → node.name = node.id.repr ++ "_card"
  bounded : node.kind = .cardinality → node.cardinality.isSome
  cardinality : node.cardinality.isSome → node.kind = .cardinality ∨ node.kind = .attribute
  classified : node.kind = .hierarchy → node.hierarchyType.isSome
  hierarchyType : node.hierarchyType.isSome → node.kind = .hierarchy ∧
    (node.hierarchyType = some .plainSubset ∨
      ∃ total exclusive, node.hierarchyType = some (.ofFacets total exclusive))

structure Graph.WellFormed (graph : Graph) : Prop where
  numbered : graph.Numbered
  links : ∀ node ∈ graph.nodes, ∀ id ∈ node.links, graph.contains id
  nested : graph.Nested
  referring : graph.Referring
  detailed : ∀ node ∈ graph.nodes, node.Detailed

/-- Whether constructs of a kind stand at the outermost level. -/
def Node.Kind.isOutermost : Node.Kind → Bool
  | .entity | .association | .hierarchy | .foreignKey => true
  | .start | .attribute | .primaryKey | .cardinality => false

namespace Diagram

variable {diagram : Diagram}

/-! ### Numbers -/

theorem root_graph (diagram : Diagram) :
    diagram.graph.root? = some (diagram.tree.rootNode Node.startId) :=
  Graph.get?_iff.2 ⟨Tree.Part.self.rootNode_mem, Tree.id_rootNode _ _⟩

theorem size_graph (diagram : Diagram) : diagram.graph.size = diagram.tree.size := by
  have hids := congrArg List.length (Tree.ids_nodes Node.startId diagram.tree)
  rwa [List.length_map, List.length_range'] at hids

theorem ids_graph (diagram : Diagram) : diagram.graph.ids = List.range diagram.graph.size := by
  rw [size_graph, List.range_eq_range']
  exact Tree.ids_nodes Node.startId diagram.tree

theorem contains_iff {id : Nat} : diagram.graph.contains id ↔ id < diagram.graph.size := by
  have hmem : id ∈ diagram.graph.ids ↔ id < diagram.graph.size := by
    rw [ids_graph, List.mem_range]
  rw [← hmem, Graph.contains, Option.isSome_iff_exists, Graph.ids, List.mem_map]
  simp only [Graph.get?_iff]

theorem Construct.start_or {place : Nat} {part : Tree} (h : diagram.Construct place part) :
    place = Node.startId ∨ part.label.kind ≠ .start := by
  cases h with
  | start => exact Or.inl rfl
  | @declared front declaration =>
      refine Or.inr ?_
      cases declaration <;> exact fun h => by cases h
  | key | branch => exact Or.inr fun h => by cases h
  | attr =>
      rw [Attribute.kind_tree]
      exact Or.inr fun h => by cases h

theorem Valid.numbered (h : diagram.Valid) : diagram.graph.Numbered where
  ids := diagram.ids_graph
  keys := by
    intro id
    rw [← contains_iff, Graph.contains, Option.isSome_iff_exists]
    constructor
    · rintro ⟨node, hnode⟩
      exact ⟨node, hnode, (Graph.get?_iff.1 hnode).2⟩
    · rintro ⟨node, hnode, -⟩
      exact ⟨node, hnode⟩
  start := ⟨_, diagram.root_graph, rfl, rfl⟩
  only := by
    intro node hnode hkind
    obtain ⟨place, part, hconstruct, -, rfl⟩ := exists_construct h hnode
    rw [Tree.id_rootNode]
    rw [Tree.kind_rootNode] at hkind
    rcases hconstruct.start_or with hplace | hne
    · exact hplace
    · exact absurd hkind hne

/-! ### Nesting -/

theorem inside_part {place : Nat} {label : Label} {inside : List Tree}
    (h : Tree.Part Node.startId diagram.tree place ⟨label, inside⟩) :
    Tree.In diagram.graph (place + 1) inside := by
  intro node hnode
  refine h.nodes_subset ?_
  rw [Tree.nodes]
  exact List.mem_cons_of_mem _ hnode

theorem contained_part {place : Nat} {label : Label} {inside : List Tree}
    (h : Tree.Part Node.startId diagram.tree place ⟨label, inside⟩) :
    (Tree.rootNode place ⟨label, inside⟩).contained = Tree.roots (place + 1) inside :=
  Tree.contained_rootNode (h.orderly diagram.orderly_tree) place

theorem Construct.titles_nodup (hvalid : diagram.Valid) {place : Nat} {label : Label}
    {inside : List Tree} (h : diagram.Construct place ⟨label, inside⟩) :
    ((Tree.rootNodes (place + 1) inside).map Node.title).Nodup := by
  generalize hpart : Tree.mk label inside = part at h
  cases h with
  | start =>
      obtain ⟨-, rfl⟩ := Tree.mk.inj hpart
      exact Diagram.titles_nodup hvalid.names
  | declared hsplit =>
      obtain ⟨-, rfl⟩ := Tree.mk.inj hpart
      exact (hvalid.fits hsplit).2.titles_nodup _
  | key | branch =>
      obtain ⟨-, rfl⟩ := Tree.mk.inj hpart
      exact List.nodup_nil
  | attr hdistinct => exact Attribute.titles_nodup hdistinct _ hpart.symm

theorem Construct.declaration {place : Nat} {part : Tree} (h : diagram.Construct place part)
    (hkind : part.label.kind.isOutermost) :
    ∃ (front : Diagram) (declaration : Declaration) (back : Diagram),
      diagram = front ++ declaration :: back ∧ place = front.nextId ∧
        part = declaration.tree front := by
  cases h with
  | @declared front declaration back hsplit => exact ⟨front, declaration, back, hsplit, rfl, rfl⟩
  | start | key | branch => cases hkind
  | attr =>
      rw [Attribute.kind_tree] at hkind
      cases hkind

theorem Valid.nested (h : diagram.Valid) : diagram.graph.Nested where
  holds := by
    intro node hnode id hid
    obtain ⟨place, ⟨label, inside⟩, -, hpart, rfl⟩ := exists_construct h hnode
    rw [contained_part hpart, Tree.roots_eq, List.mem_map] at hid
    obtain ⟨child, hchild, rfl⟩ := hid
    obtain ⟨front, tree, back, rfl, rfl⟩ := Tree.mem_rootNodes.1 hchild
    obtain ⟨-, -, hholds, -⟩ := hpart.orderly diagram.orderly_tree
    refine ⟨_, Graph.get?_eq_some ?_, ?_⟩
    · exact (hpart.trans (.inside .self)).rootNode_mem
    · rw [Tree.kind_rootNode, Tree.kind_rootNode]
      exact hholds tree (by simp)
  once := by
    intro node hnode hid
    have hperm := Tree.perm_contained Node.startId diagram.tree diagram.orderly_tree
    have hcount := hperm.count_eq node.id
    have hmem : node.id ∈ List.range' Node.startId diagram.tree.size := by
      rw [← Tree.ids_nodes]
      exact List.mem_map_of_mem hnode
    rw [List.count_cons_of_ne (Ne.symm hid), List.count_eq_one_of_mem List.nodup_range' hmem] at hcount
    exact hcount
  preorder := by
    have hin : Tree.In diagram.graph Node.startId [diagram.tree] := by
      intro node hnode
      rwa [Tree.allNodes, Tree.allNodes, List.append_nil] at hnode
    have hvisits := Tree.visits_tree Node.startId diagram.tree diagram.orderly_tree hin .nil
    rw [List.append_nil, ← Tree.ids_nodes] at hvisits
    exact hvisits
  siblings := by
    intro node hnode
    obtain ⟨place, ⟨label, inside⟩, hconstruct, hpart, rfl⟩ := exists_construct h hnode
    rw [contained_part hpart, (inside_part hpart).filterMap_roots]
    exact hconstruct.titles_nodup h
  singleKey := by
    intro node hnode hkind
    obtain ⟨place, part, hconstruct, hpart, rfl⟩ := exists_construct h hnode
    have hnode' := Graph.get?_eq_some hnode
    rw [Tree.kind_rootNode] at hkind
    obtain ⟨front, declaration, back, hsplit, rfl, rfl⟩ := hconstruct.declaration (by rw [hkind]; rfl)
    have hcontainer : ((declaration.tree front).rootNode front.nextId).kind.isContainer = true := by
      rw [Tree.kind_rootNode, hkind]
      rfl
    have hlinks := (Node.contained_eq_links hcontainer).symm.trans (contained_part hpart)
    rw [Graph.linkedNodes, hnode']
    dsimp only
    rw [hlinks, (inside_part hpart).filterMap_roots, Clause.countP_key_rootNodes]
    exact h.keys.single declaration (by simp [hsplit])

/-! ### References -/

theorem Construct.earlier {place : Nat} {part : Tree} (h : diagram.Construct place part) {id : Nat}
    (hid : id ∈ part.label.mentions) : id < place := by
  cases h with
  | start => cases hid
  | declared hsplit =>
      obtain ⟨clause, -, hmentions⟩ := List.mem_flatMap.1 hid
      exact (resolved_of_mentions hsplit hmentions).1
  | key hsplit hclauses htree hkind =>
      obtain ⟨name, -, hlookup⟩ := List.mem_filterMap.1 hid
      exact (resolved_of_lookup hsplit hclauses hlookup).1
  | branch hsplit hclauses hentity =>
      have hlt := (resolved_of_mem_ids hsplit hid).1
      omega
  | @attr _ owned =>
      cases owned
      cases hid

/-- The links of a node that cannot contain others are what it mentions. -/
theorem links_rootNode {place : Nat} {part : Tree}
    (hpart : Tree.Part Node.startId diagram.tree place part)
    (h : part.label.kind.isContainer = false) : (part.rootNode place).links = part.label.mentions := by
  have hnode : (part.rootNode place).kind.isContainer = false := by
    rw [Tree.kind_rootNode]
    exact h
  obtain ⟨label, inside⟩ := part
  rw [← Node.mentioned_eq_links hnode, Tree.mentioned_rootNode (hpart.orderly diagram.orderly_tree)]
  rfl

theorem Valid.referring (h : diagram.Valid) : diagram.graph.Referring where
  earlier := by
    intro node hnode id hid
    obtain ⟨place, ⟨label, inside⟩, hconstruct, hpart, rfl⟩ := exists_construct h hnode
    rw [Tree.mentioned_rootNode (hpart.orderly diagram.orderly_tree)] at hid
    rw [Tree.id_rootNode]
    exact hconstruct.earlier hid
  keys := by
    intro node hnode hkind
    obtain ⟨place, part, hconstruct, hpart, rfl⟩ := exists_construct h hnode
    rw [Tree.kind_rootNode] at hkind
    cases hconstruct with
    | start => cases hkind
    | @declared front declaration => cases declaration <;> cases hkind
    | @key front declaration back before after clause names hsplit hclauses htree hentity =>
        refine ⟨_, (part_declaration hsplit).rootNode_mem, ?_, ?_, ?_⟩
        · rw [Tree.kind_rootNode]
          exact hentity
        · exact mem_links_of_clause front declaration hclauses htree
        · intro id hid
          rw [links_rootNode hpart rfl] at hid
          obtain ⟨name, -, hlookup⟩ := List.mem_filterMap.1 hid
          obtain ⟨-, hattribute, hlink⟩ := resolved_of_lookup hsplit hclauses hlookup
          exact ⟨hlink, hattribute⟩
    | branch => cases hkind
    | attr =>
        rw [Attribute.kind_tree] at hkind
        cases hkind
  branches := by
    intro node hnode hkind
    obtain ⟨place, part, hconstruct, hpart, rfl⟩ := exists_construct h hnode
    rw [Tree.kind_rootNode] at hkind
    cases hconstruct with
    | start | key => cases hkind
    | @declared front declaration => cases declaration <;> cases hkind
    | @branch front declaration back before after clause entity cardinality hsplit hclauses hentity =>
        have hdeclares : Declares front .entity entity :=
          h.mentions front declaration back hsplit clause (by simp [hclauses]) _ _ hentity
        obtain ⟨id, hid⟩ := hdeclares.exists_ids
        refine ⟨id, ?_, (resolved_of_mem_ids hsplit (hid ▸ List.mem_singleton_self id)).2⟩
        rw [links_rootNode hpart rfl]
        exact hid
    | attr =>
        rw [Attribute.kind_tree] at hkind
        cases hkind
  hierarchies := by
    intro node hnode hkind id hid
    obtain ⟨place, part, hconstruct, hpart, rfl⟩ := exists_construct h hnode
    rw [Tree.kind_rootNode] at hkind
    rw [links_rootNode hpart (by rw [hkind]; rfl)] at hid
    obtain ⟨front, declaration, back, hsplit, rfl, rfl⟩ := hconstruct.declaration (by rw [hkind]; rfl)
    obtain ⟨clause, -, hmentions⟩ := List.mem_flatMap.1 hid
    rcases (resolved_of_mentions hsplit hmentions).2 with hentity | ⟨hforeign, -⟩
    · exact hentity
    · cases hkind.symm.trans hforeign
  foreignKeys := by
    intro node hnode hkind id hid
    obtain ⟨place, part, hconstruct, hpart, rfl⟩ := exists_construct h hnode
    rw [Tree.kind_rootNode] at hkind
    rw [links_rootNode hpart (by rw [hkind]; rfl)] at hid
    obtain ⟨front, declaration, back, hsplit, rfl, rfl⟩ := hconstruct.declaration (by rw [hkind]; rfl)
    obtain ⟨clause, -, hmentions⟩ := List.mem_flatMap.1 hid
    exact (resolved_of_mentions hsplit hmentions).2.imp_right And.right

/-! ### Details -/

theorem Construct.detailed {place : Nat} {part : Tree} (h : diagram.Construct place part) :
    (part.rootNode place).Detailed := by
  cases h with
  | start => constructor <;> intro h <;> cases h
  | @declared front declaration =>
      cases declaration with
      | hierarchy name classification clauses =>
          constructor
          case classified => exact fun _ => rfl
          case hierarchyType =>
            refine fun _ => ⟨rfl, ?_⟩
            cases classification with
            | subset => exact Or.inl rfl
            | facets total exclusive => exact Or.inr ⟨total, exclusive, rfl⟩
          all_goals
            intro h
            cases h
      | entity | association | foreignKey => constructor <;> intro h <;> cases h
  | key =>
      constructor
      case keyName => exact fun _ => rfl
      all_goals
        intro h
        cases h
  | branch =>
      constructor
      case branchName => exact fun _ => rfl
      case bounded => exact fun _ => rfl
      case cardinality => exact fun _ => Or.inl rfl
      all_goals
        intro h
        cases h
  | @attr _ owned =>
      cases owned
      constructor
      case cardinality => exact fun _ => Or.inr rfl
      all_goals
        intro h
        cases h

theorem Valid.detailed (h : diagram.Valid) : ∀ node ∈ diagram.graph.nodes, node.Detailed := by
  intro node hnode
  obtain ⟨place, part, hconstruct, -, rfl⟩ := exists_construct h hnode
  exact hconstruct.detailed

/-! ### Links -/

/-- A node links to what it contains or else to what it mentions, and both are in the graph. -/
theorem Valid.links (h : diagram.Valid) :
    ∀ node ∈ diagram.graph.nodes, ∀ id ∈ node.links, diagram.graph.contains id := by
  intro node hnode id hid
  by_cases hkind : node.kind.isContainer = true
  · rw [← Node.contained_eq_links hkind] at hid
    obtain ⟨child, hchild, -⟩ := h.nested.holds node hnode id hid
    rw [Graph.contains, hchild]
    rfl
  · rw [← Node.mentioned_eq_links (by simpa using hkind)] at hid
    have hlt := h.referring.earlier node hnode id hid
    have hsize : node.id < diagram.graph.size :=
      (h.numbered.keys node.id).2 ⟨node, Graph.get?_eq_some hnode, rfl⟩
    rw [contains_iff]
    omega

theorem Valid.wellFormed (h : diagram.Valid) : diagram.graph.WellFormed :=
  ⟨h.numbered, h.links, h.nested, h.referring, h.detailed⟩

end Diagram

/-- Whatever a source text compiles to is a well-formed graph. -/
theorem wellFormed_of_compile {source : String} {graph : Graph} (h : compile source = .ok graph) :
    graph.WellFormed := by
  obtain ⟨-, diagram, -, -, hvalid, rfl⟩ := compile_ok_iff.1 h
  exact hvalid.wellFormed

theorem wellFormed_of_compile_key :
    ∃ graph, compile "(entity a (attr b) (pk b)) (fk f (attr b a))" = .ok graph ∧
      graph.WellFormed := by
  have h : compile "(entity a (attr b) (pk b)) (fk f (attr b a))" = .ok
      ⟨[⟨.start, 0, "start", [1, 4], none, none⟩, ⟨.entity, 1, "a", [2, 3], none, none⟩,
        ⟨.attribute, 2, "b", [], none, none⟩, ⟨.primaryKey, 3, "3_pk", [2], none, none⟩,
        ⟨.foreignKey, 4, "f", [2], none, none⟩], by decide⟩ := by
    decide +kernel
  exact ⟨_, h, wellFormed_of_compile h⟩

end ErDiagram
