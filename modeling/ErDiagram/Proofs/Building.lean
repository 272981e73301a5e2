import ErDiagram.Proofs.Containment
import ErDiagram.Proofs.Fitting
import ErDiagram.Proofs.Planting

/-!
The actions of a diagram build its drawing. Behind some declarations the builder is the drawing of
those declarations, and inside a construct it is that and the drawing of the clauses read so far. A
clause, or a declaration, is carried out exactly if it fits there, and then the builder is the
drawing with one clause, or one declaration, more.
-/

namespace ErDiagram

variable {kind : Node.Kind}

/-- The builder behind some declarations. -/
def Diagram.builder (diagram : Diagram) : Builder where
  nextId := diagram.nextId
  root :=
    ⟨{ Node.emptyStart with links := Tree.roots (Node.startId + 1) diagram.trees }, diagram.scope⟩
  inner := []
  graph := Graph.empty.insertAll (Tree.allNodes (Node.startId + 1) diagram.trees)

/-- The builder inside a construct that is declared behind some declarations, behind some of its
clauses. -/
def Clause.builder (earlier : Diagram) (name : String) (type : Option HierarchyType)
    (before : List (Clause kind)) : Builder where
  nextId := earlier.nextId + 1 + sizes before
  root :=
    ⟨{ Node.emptyStart with
        links := Tree.roots (Node.startId + 1) earlier.trees ++ [earlier.nextId] },
      earlier.scope.bind kind name earlier.nextId⟩
  inner :=
    [⟨(treeOf earlier earlier.nextId name type before).rootNode earlier.nextId,
      scope earlier.nextId before⟩]
  graph := Graph.empty.insertAll (Tree.allNodes (Node.startId + 1) earlier.trees ++
    Tree.allNodes (earlier.nextId + 1) (trees earlier earlier.nextId before))

namespace Clause

variable {earlier : Diagram} {name : String} {type : Option HierarchyType}
  {before : List (Clause kind)}

/-! ### Constructs contain, or they mention -/

theorem mentions_of_contains (hkind : kind = .entity ∨ kind = .association)
    (clause : Clause kind) : clause.mentions earlier = [] := by
  cases clause with
  | attr | key | branch => rfl
  | parent | child | attributeOf | between | across => rcases hkind with h | h <;> cases h

theorem flatMap_mentions (hkind : kind = .entity ∨ kind = .association)
    (clauses : List (Clause kind)) : clauses.flatMap (mentions earlier) = [] := by
  rw [List.flatMap_eq_nil_iff]
  exact fun clause _ => mentions_of_contains hkind clause

theorem tree?_of_mentions (hkind : kind = .hierarchy ∨ kind = .foreignKey) (id : Nat)
    (clause : Clause kind) : clause.tree? earlier id before = none := by
  cases clause with
  | attr holds => rcases hkind with rfl | rfl <;> rcases holds with h | h <;> cases h
  | key | branch => rcases hkind with h | h <;> cases h
  | parent | child | attributeOf | between | across => rfl

theorem trees_of_mentions (hkind : kind = .hierarchy ∨ kind = .foreignKey) (id : Nat)
    (clauses : List (Clause kind)) : trees earlier id clauses = [] := by
  induction clauses using List.reverseRecOn with
  | nil => rfl
  | append_singleton front clause ih =>
      rw [trees_concat, tree?_of_mentions hkind, ih]
      rfl

end Clause

/-! ### What the graph of a builder holds -/

theorem Diagram.exists_trees_append (front back : Diagram) :
    ∃ more, trees (front ++ back) = front.trees ++ more := by
  rw [trees, inOrder_append]
  exact ⟨_, rfl⟩

theorem Diagram.split_trees (front : Diagram) (declaration : Declaration) (back : Diagram) :
    ∃ rest, trees (front ++ declaration :: back) =
      front.trees ++ declaration.tree front :: rest := by
  rw [trees, inOrder_append]
  exact ⟨_, rfl⟩

/-- The nodes of a declaration are among those of the diagram. -/
theorem Diagram.mem_allNodes_of_split {front : Diagram} {declaration : Declaration} {back : Diagram}
    {node : Node} (h : node ∈ (declaration.tree front).nodes front.nextId) :
    node ∈ Tree.allNodes (Node.startId + 1) (trees (front ++ declaration :: back)) := by
  obtain ⟨rest, htrees⟩ := split_trees front declaration back
  refine Tree.mem_allNodes_iff.2 ⟨front.trees, declaration.tree front, rest, htrees, ?_⟩
  rwa [sizes_trees]

theorem Clause.find?_rootNodes (earlier : Diagram) (id : Nat) (clauses : List (Clause kind))
    (word : String) :
    ((Tree.rootNodes (id + 1) (trees earlier id clauses)).find? fun node =>
        node.kind = .attribute && node.name = word).map (·.id) =
      (attributeIds id clauses).lookup word := by
  induction clauses using List.reverseRecOn with
  | nil => rfl
  | append_singleton front clause ih =>
      rw [trees_concat, Tree.rootNodes_append, sizes_trees, attributeIds_concat, List.find?_append,
        List.lookup_append, Option.map_or, ih]
      congr 1
      cases clause with
      | attr holds owned =>
          obtain ⟨label, cardinality, inside⟩ := owned
          rw [lookup_eq_find?]
          by_cases h : label = word
          · simp [tree?, attribute?, Tree.rootNodes, Attribute.tree, Tree.rootNode, Attribute.name, h]
          · simp [tree?, attribute?, Tree.rootNodes, Attribute.tree, Tree.rootNode, Attribute.name, h]
      | key | branch => rfl
      | parent | child | attributeOf | between | across => rfl

theorem Clause.any_key_rootNodes (earlier : Diagram) (id : Nat) (clauses : List (Clause kind)) :
    ((Tree.rootNodes (id + 1) (trees earlier id clauses)).any (·.kind = .primaryKey)) =
      clauses.any (·.key?.isSome) := by
  induction clauses using List.reverseRecOn with
  | nil => rfl
  | append_singleton front clause ih =>
      rw [trees_concat, Tree.rootNodes_append, List.any_append, List.any_append, ih]
      congr 1
      cases clause with
      | attr holds owned => cases owned; rfl
      | key | branch => rfl
      | parent | child | attributeOf | between | across => rfl

namespace Clause

variable {earlier : Diagram} {name : String} {type : Option HierarchyType}
  {before : List (Clause kind)}

/-! ### What the builder inside a construct knows -/

theorem visible?_builder (hnames : (earlier.map fun declaration =>
    (declaration.kind, declaration.name)).Nodup) {other : Node.Kind} (hattribute : other ≠ .attribute)
    (hkind : other ≠ kind) (word : String) :
    (builder earlier name type before).visible? other word =
      (earlier.place? other word).map (·.1) := by
  have hinner : (scope earlier.nextId before).get? other word = none :=
    get?_scope_of_ne hattribute word
  have hroot : (builder earlier name type before).root.scope.get? other word =
      (earlier.place? other word).map (·.1) := by
    change (earlier.scope.bind kind name earlier.nextId).get? other word = _
    rw [Scope.get?_bind, if_neg (fun h => hkind h.1.symm), Diagram.get?_scope hnames]
  change List.findSome? _ [_, _] = _
  rw [List.findSome?_cons, hinner, List.findSome?_cons, hroot]
  cases earlier.place? other word <;> rfl

theorem own?_builder (hown : ((attributes before).map Attribute.name).Nodup) (word : String) :
    (builder earlier name type before).own? word =
      (attributeIds earlier.nextId before).lookup word :=
  get?_scope hown word

theorem nodes_builder :
    (builder earlier name type before).graph.nodes =
      Tree.allNodes (Node.startId + 1) earlier.trees ++
        Tree.allNodes (earlier.nextId + 1) (trees earlier earlier.nextId before) := by
  apply Graph.nodes_insertAll_empty
  refine List.pairwise_append.2
    ⟨Tree.ascending_allNodes _ _, Tree.ascending_allNodes _ _, fun node hnode other hother => ?_⟩
  have hlow := (Tree.id_mem_allNodes hnode).2
  have hhigh := (Tree.id_mem_allNodes hother).1
  rw [Diagram.sizes_trees] at hlow
  unfold Diagram.nextId at hhigh
  omega

/-- An attribute of an entity is found among the constructs inside it. -/
theorem findAttribute_builder {word : String} {entity : String} {place : Nat × Declaration} {id : Nat}
    (hplace : earlier.place? .entity entity = some place) :
    (builder earlier name type before).findAttribute place.1 word = .ok id ↔
      (attributeIds place.1 place.2.clauses).lookup word = some id := by
  obtain ⟨hkind, -, front, back, hsplit, hid⟩ := Diagram.split_of_place? hplace
  obtain ⟨owner, declaration⟩ := place
  dsimp only at hkind hsplit hid ⊢
  subst hid
  -- The entity and what is inside it are in the graph.
  have hin : ∀ node ∈ (declaration.tree front).nodes front.nextId,
      node ∈ (builder earlier name type before).graph.nodes := by
    intro node hnode
    rw [nodes_builder]
    exact List.mem_append_left _ (hsplit ▸ Diagram.mem_allNodes_of_split hnode)
  have hroot : (builder earlier name type before).graph.get? front.nextId =
      some ((declaration.tree front).rootNode front.nextId) := by
    refine Graph.get?_iff.2 ⟨hin _ ?_, Tree.id_rootNode _ _⟩
    obtain ⟨rest, hnodes⟩ := Tree.nodes_eq_cons front.nextId (declaration.tree front)
    rw [hnodes]
    exact List.mem_cons_self
  have hinside : Tree.In (builder earlier name type before).graph (front.nextId + 1)
      (trees front front.nextId declaration.clauses) :=
    fun node hnode => hin node (List.mem_cons_of_mem _ hnode)
  have hlinked : (builder earlier name type before).graph.linkedNodes front.nextId =
      Tree.rootNodes (front.nextId + 1) (trees front front.nextId declaration.clauses) := by
    rw [Graph.linkedNodes, hroot, ← hinside.filterMap_roots]
    change List.filterMap _ (Tree.roots _ _ ++ declaration.clauses.flatMap _) = _
    rw [flatMap_mentions (Or.inl hkind), List.append_nil]
  rw [Builder.findAttribute, hroot, hlinked, ← find?_rootNodes front]
  cases (Tree.rootNodes (front.nextId + 1) (trees front front.nextId declaration.clauses)).find?
    fun node => node.kind = .attribute && node.name = word <;> simp

theorem hasLinkTo_builder {before : List (Clause .entity)} :
    (builder earlier name type before).hasLinkTo .primaryKey = before.any (·.key?.isSome) := by
  have hinside : Tree.In (builder earlier name type before).graph (earlier.nextId + 1)
      (trees earlier earlier.nextId before) := by
    intro node hnode
    rw [nodes_builder]
    exact List.mem_append_right _ hnode
  have hlinks : (builder earlier name type before).current.links =
      Tree.roots (earlier.nextId + 1) (trees earlier earlier.nextId before) := by
    change Tree.roots _ _ ++ before.flatMap _ = _
    rw [flatMap_mentions (Or.inl rfl), List.append_nil]
  rw [← any_key_rootNodes earlier earlier.nextId, ← hinside.filterMap_roots, List.any_filterMap,
    Builder.hasLinkTo, hlinks]
  rfl

/-! ### One clause more -/

theorem scope_concat (id : Nat) (front : List (Clause kind)) (clause : Clause kind) :
    scope id (front ++ [clause]) =
      ⟨(clause.attribute?.toList.map fun owned =>
        ⟨.attribute, owned.name, id + 1 + sizes front⟩) ++ (scope id front).bindings⟩ := by
  rw [scope, attributeIds_concat, List.map_append, List.reverse_append]
  cases clause <;> rfl

theorem builder_concat (clause : Clause kind) :
    builder earlier name type (before ++ [clause]) =
      { builder earlier name type before with
        nextId := earlier.nextId + 1 + sizes before + clause.size
        inner :=
          [⟨⟨kind, earlier.nextId, name,
              (Tree.roots (earlier.nextId + 1) (trees earlier earlier.nextId before) ++
                Tree.roots (earlier.nextId + 1 + sizes before)
                  (clause.tree? earlier earlier.nextId before).toList) ++
                (before.flatMap (mentions earlier) ++ clause.mentions earlier), none, type⟩,
            scope earlier.nextId (before ++ [clause])⟩]
        graph := (builder earlier name type before).graph.insertAll
          (Tree.allNodes (earlier.nextId + 1 + sizes before)
            (clause.tree? earlier earlier.nextId before).toList) } := by
  simp only [builder, treeOf, Tree.rootNode, trees_concat, Tree.roots_append, Tree.allNodes_append,
    sizes_trees, sizes_concat, List.flatMap_append, List.flatMap_singleton, Graph.insertAll_append,
    Nat.add_assoc]

theorem plant_builder (holds : kind = .entity ∨ kind = .association) (owned : Attribute) :
    (builder earlier name type before).plant owned =
      builder earlier name type (before ++ [.attr holds owned]) := by
  rw [builder_concat, scope_concat, flatMap_mentions holds]
  simp only [tree?, attribute?, Option.toList_some, Tree.roots, Tree.allNodes, List.append_nil,
    mentions_of_contains holds]
  unfold Builder.plant
  simp only [builder, treeOf, Tree.rootNode, flatMap_mentions holds, List.append_nil]
  rfl

theorem grown_builder (hkind : kind = .entity ∨ kind = .association) {clause : Clause kind}
    {label : Label} (htree : clause.tree? earlier earlier.nextId before = some ⟨label, []⟩)
    (hattribute : clause.attribute? = none) :
    (builder earlier name type before).grown
        (Tree.rootNode (earlier.nextId + 1 + sizes before) ⟨label, []⟩) =
      builder earlier name type (before ++ [clause]) := by
  have hsize : clause.size = 1 := by
    rw [← sizes_toList_tree? earlier earlier.nextId before, htree]
    rfl
  rw [builder_concat, scope_concat, flatMap_mentions hkind, htree, hattribute, hsize]
  simp only [Option.toList_some, Option.toList_none, Tree.roots, Tree.allNodes, Tree.nodes,
    List.append_nil, mentions_of_contains hkind]
  unfold Builder.grown
  simp only [builder, treeOf, Tree.rootNode, flatMap_mentions hkind, List.append_nil]
  rfl

theorem link_builder (hkind : kind = .hierarchy ∨ kind = .foreignKey) {clause : Clause kind}
    {id : Nat} (hmentions : clause.mentions earlier = [id]) :
    (builder earlier name type before).link id =
      builder earlier name type (before ++ [clause]) := by
  have htree := @tree?_of_mentions _ earlier before hkind earlier.nextId clause
  have hsize : clause.size = 0 := by
    rw [← sizes_toList_tree? earlier earlier.nextId before, htree]
    rfl
  have hattribute : clause.attribute? = none := by
    cases clause with
    | attr => cases htree
    | _ => rfl
  rw [builder_concat, scope_concat, htree, hattribute, hsize, hmentions]
  simp only [Option.toList_none, Tree.roots, Tree.allNodes, List.append_nil, Graph.insertAll_nil]
  unfold Builder.link
  simp only [builder, treeOf, Tree.rootNode, ← List.append_assoc]
  rfl

/-! ### A clause is carried out if it fits -/

section

variable (hnames : (earlier.map fun declaration => (declaration.kind, declaration.name)).Nodup)
include hnames

/-- A clause that mentions one name links to what is declared under it. -/
theorem acts_mention (hkind : kind = .hierarchy ∨ kind = .foreignKey) {other : Node.Kind}
    {word : String} (hattribute : other ≠ .attribute) (hother : other ≠ kind) {clause : Clause kind}
    (hmentions : clause.mentions earlier = earlier.ids other word) {after : Builder} :
    Builder.meaning.acts [.knows other word, .mention other word]
        (builder earlier name type before) = .ok after ↔
      earlier.Declares other word ∧ after = builder earlier name type (before ++ [clause]) := by
  rw [Interpretation.acts_cons, ← Diagram.place?_isSome]
  simp only [Interpretation.acts_singleton, Builder.act_knows, Builder.act_mention]
  have hvisible := @visible?_builder kind earlier name type before hnames other hattribute hother word
  constructor
  · rintro ⟨_, ⟨-, rfl⟩, id, hid, rfl⟩
    rw [hvisible] at hid
    obtain ⟨place, hplace, rfl⟩ := Option.map_eq_some_iff.1 hid
    refine ⟨⟨place, hplace⟩, link_builder hkind ?_⟩
    rw [hmentions, Diagram.ids, hplace]
    rfl
  · rintro ⟨⟨place, hplace⟩, rfl⟩
    have hid : (builder earlier name type before).visible? other word = some place.1 := by
      rw [hvisible, hplace]
      rfl
    refine ⟨_, ⟨⟨_, hid⟩, rfl⟩, _, hid, (link_builder hkind ?_).symm⟩
    rw [hmentions, Diagram.ids, hplace]
    rfl

theorem acts_attributeOf {before : List (Clause .foreignKey)} {word entity : String}
    {after : Builder} :
    Builder.meaning.acts (Clause.attributeOf word entity).actions
        (builder earlier name type before) = .ok after ↔
      (Clause.attributeOf word entity).Fits earlier before ∧
        after = builder earlier name type (before ++ [.attributeOf word entity]) := by
  rw [Clause.actions, Interpretation.acts_cons, Fits]
  simp only [Interpretation.acts_singleton, Builder.act_knows, Builder.act_attributeOf]
  have hvisible := @visible?_builder .foreignKey earlier name type before hnames .entity (by decide)
    (by decide) entity
  constructor
  · rintro ⟨_, ⟨-, rfl⟩, owner, id, howner, hfound, rfl⟩
    rw [hvisible] at howner
    obtain ⟨place, hplace, rfl⟩ := Option.map_eq_some_iff.1 howner
    have hlookup := (findAttribute_builder hplace).1 hfound
    refine ⟨⟨place, hplace, lookup_attributeIds_isSome.1 ⟨id, hlookup⟩⟩,
      link_builder (Or.inr rfl) ?_⟩
    rw [mentions, hplace, Option.bind_some, hlookup]
    rfl
  · rintro ⟨⟨place, hplace, hattribute⟩, rfl⟩
    obtain ⟨id, hlookup⟩ := lookup_attributeIds_isSome.2 hattribute
    have howner : (builder earlier name type before).visible? .entity entity = some place.1 := by
      rw [hvisible, hplace]
      rfl
    refine ⟨_, ⟨⟨_, howner⟩, rfl⟩, _, id, howner, (findAttribute_builder hplace).2 hlookup,
      (link_builder (Or.inr rfl) ?_).symm⟩
    rw [mentions, hplace, Option.bind_some, hlookup]
    rfl

theorem acts_branch {before : List (Clause .association)} {entity : String}
    {cardinality : Cardinality} {after : Builder} :
    Builder.meaning.acts (Clause.branch entity cardinality).actions
        (builder earlier name type before) = .ok after ↔
      (Clause.branch entity cardinality).Fits earlier before ∧
        after = builder earlier name type (before ++ [.branch entity cardinality]) := by
  rw [Clause.actions, Interpretation.acts_cons, Fits, ← Diagram.place?_isSome]
  simp only [Interpretation.acts_singleton, Builder.act_knows, Builder.act_branch]
  have hvisible := @visible?_builder .association earlier name type before hnames .entity (by decide)
    (by decide) entity
  -- The leaf of a branch is the node of its construct.
  have hleaf : ∀ {place}, earlier.place? .entity entity = some place →
      (builder earlier name type before).grown ⟨.cardinality, earlier.nextId + 1 + sizes before,
          (earlier.nextId + 1 + sizes before).repr ++ "_" ++ "card", [place.1], some cardinality,
          none⟩ =
        builder earlier name type (before ++ [.branch entity cardinality]) := by
    intro place hplace
    refine Eq.trans ?_ (grown_builder (Or.inr rfl) rfl rfl)
    rw [Tree.rootNode, branchLabel, String.append_assoc, Diagram.ids, hplace]
    rfl
  constructor
  · rintro ⟨_, ⟨-, rfl⟩, id, hid, rfl⟩
    rw [hvisible] at hid
    obtain ⟨place, hplace, rfl⟩ := Option.map_eq_some_iff.1 hid
    exact ⟨⟨place, hplace⟩, hleaf hplace⟩
  · rintro ⟨⟨place, hplace⟩, rfl⟩
    have hid : (builder earlier name type before).visible? .entity entity = some place.1 := by
      rw [hvisible, hplace]
      rfl
    exact ⟨_, ⟨⟨_, hid⟩, rfl⟩, _, hid, (hleaf hplace).symm⟩

end

section

variable (hown : ((attributes before).map Attribute.name).Nodup)
include hown

theorem acts_attr (holds : kind = .entity ∨ kind = .association) {owned : Attribute}
    {after : Builder} :
    Builder.meaning.acts (Clause.attr holds owned).actions
        (builder earlier name type before) = .ok after ↔
      (Clause.attr holds owned).Fits earlier before ∧
        after = builder earlier name type (before ++ [.attr holds owned]) := by
  have hfree : (builder earlier name type before).own? owned.name = none ↔
      ∀ attr ∈ attributes before, attr.name ≠ owned.name := by
    rw [own?_builder hown, ← not_iff_not, Option.eq_none_iff_forall_ne_some]
    have hbound := @lookup_attributeIds_isSome kind earlier.nextId before owned.name
    push Not
    exact hbound
  rw [Clause.actions, Builder.acts_attribute, plant_builder holds, Fits, hfree, and_assoc]

/-- The names of a primary key are looked up one by one. -/
theorem acts_ownsAttributes {names : List String} {after : Builder} :
    Builder.meaning.acts (names.map .ownsAttribute) (builder earlier name type before) =
        .ok after ↔
      (∀ word ∈ names, ∃ attr ∈ attributes before, attr.name = word) ∧
        after = builder earlier name type before := by
  induction names with
  | nil => simp [eq_comm]
  | cons word rest ih =>
      rw [List.map_cons, Interpretation.acts_cons, List.forall_mem_cons, and_assoc, ← ih,
        ← @lookup_attributeIds_isSome kind earlier.nextId]
      simp only [Builder.act_ownsAttribute, own?_builder hown]
      constructor
      · rintro ⟨_, ⟨hword, rfl⟩, h⟩
        exact ⟨hword, h⟩
      · rintro ⟨hword, h⟩
        exact ⟨_, ⟨hword, rfl⟩, h⟩

end

theorem acts_key {before : List (Clause .entity)}
    (hown : ((attributes before).map Attribute.name).Nodup) {names : List String} {after : Builder} :
    Builder.meaning.acts (Clause.key names).actions
        (builder earlier name type before) = .ok after ↔
      (Clause.key names).Fits earlier before ∧
        after = builder earlier name type (before ++ [.key names]) := by
  have hlacks : (builder earlier name type before).hasLinkTo .primaryKey = false ↔
      ∀ other ∈ before, other.key? = none := by
    rw [hasLinkTo_builder, List.any_eq_false]
    simp
  have hnames : (∀ word ∈ names, ∃ id, (builder earlier name type before).own? word = some id) ↔
      ∀ word ∈ names, ∃ attr ∈ attributes before, attr.name = word := by
    simp only [own?_builder hown, lookup_attributeIds_isSome]
  have hleaf : (builder earlier name type before).grown ⟨.primaryKey,
        earlier.nextId + 1 + sizes before, (earlier.nextId + 1 + sizes before).repr ++ "_" ++ "pk",
        names.filterMap (builder earlier name type before).own?, none, none⟩ =
      builder earlier name type (before ++ [.key names]) := by
    refine Eq.trans ?_ (grown_builder (Or.inl rfl) rfl rfl)
    have hwords : (builder earlier name type before).own? =
        fun word => (attributeIds earlier.nextId before).lookup word := by
      ext1 word
      exact own?_builder hown word
    rw [Tree.rootNode, String.append_assoc, hwords]
    rfl
  rw [Clause.actions, Interpretation.acts_cons, Fits]
  simp only [Builder.act_lacksKey, Interpretation.acts_append, Interpretation.acts_singleton,
    Builder.act_primaryKey]
  constructor
  · rintro ⟨_, ⟨hkey, rfl⟩, _, howns, hfound, rfl⟩
    obtain ⟨-, rfl⟩ := (acts_ownsAttributes hown).1 howns
    exact ⟨⟨hlacks.1 hkey, hnames.1 hfound⟩, hleaf⟩
  · rintro ⟨⟨hkey, hfound⟩, rfl⟩
    exact ⟨_, ⟨hlacks.2 hkey, rfl⟩, _, (acts_ownsAttributes hown).2 ⟨hfound, rfl⟩, hnames.2 hfound,
      hleaf.symm⟩

/-- Behind clauses with distinct names, a clause is carried out exactly if it fits. -/
theorem acts_clause (hnames : (earlier.map fun declaration =>
      (declaration.kind, declaration.name)).Nodup)
    (hown : ((attributes before).map Attribute.name).Nodup) (clause : Clause kind)
    {after : Builder} :
    Builder.meaning.acts clause.actions (builder earlier name type before) = .ok after ↔
      clause.Fits earlier before ∧ after = builder earlier name type (before ++ [clause]) := by
  cases clause with
  | attr holds owned => exact acts_attr hown holds
  | key names => exact acts_key hown
  | branch entity cardinality => exact acts_branch hnames
  | attributeOf word entity => exact acts_attributeOf hnames
  | parent entity => exact acts_mention hnames (Or.inl rfl) (by decide) (by decide) rfl
  | child entity => exact acts_mention hnames (Or.inl rfl) (by decide) (by decide) rfl
  | between entity => exact acts_mention hnames (Or.inr rfl) (by decide) (by decide) rfl
  | across association => exact acts_mention hnames (Or.inr rfl) (by decide) (by decide) rfl

/-- Clauses are carried out one after another exactly if they fit. -/
theorem acts_clauses (hnames : (earlier.map fun declaration =>
      (declaration.kind, declaration.name)).Nodup) (clauses : List (Clause kind)) {after : Builder} :
    Builder.meaning.acts (clauses.flatMap Clause.actions) (@builder kind earlier name type [])
        = .ok after ↔
      AllFit earlier clauses ∧ after = builder earlier name type clauses := by
  induction clauses using List.reverseRecOn generalizing after with
  | nil =>
      simp [allFit_nil, eq_comm]
  | append_singleton front clause ih =>
      rw [List.flatMap_append, List.flatMap_singleton, Interpretation.acts_append, allFit_concat]
      simp only [ih]
      constructor
      · rintro ⟨_, ⟨hfront, rfl⟩, h⟩
        obtain ⟨hclause, rfl⟩ := (acts_clause hnames hfront.names_nodup clause).1 h
        exact ⟨⟨hfront, hclause⟩, rfl⟩
      · rintro ⟨⟨hfront, hclause⟩, rfl⟩
        exact ⟨_, ⟨hfront, rfl⟩, (acts_clause hnames hfront.names_nodup clause).2 ⟨hclause, rfl⟩⟩

end Clause
/-! ### Declarations -/

namespace Diagram

variable {diagram : Diagram}

theorem opened_builder (kind : Node.Kind) (name : String) :
    diagram.builder.opened kind name = @Clause.builder kind diagram name none [] := by
  unfold Clause.builder
  rw [Clause.trees, inOrder, Tree.allNodes, List.append_nil]
  rfl

theorem acts_classify (kind : Node.Kind) (name : String) (type : Option HierarchyType) :
    Builder.meaning.acts (type.toList.map .classify) (@Clause.builder kind diagram name none []) =
      .ok (@Clause.builder kind diagram name type []) := by
  cases type <;> rfl

/-- A declaration whose construct is closed is part of the drawing. -/
theorem closed_builder (declaration : Declaration) :
    { Clause.builder diagram declaration.name declaration.type? declaration.clauses with
      inner := []
      graph := (Clause.builder diagram declaration.name declaration.type?
        declaration.clauses).graph.insert ((declaration.tree diagram).rootNode diagram.nextId) } =
      Diagram.builder (diagram ++ [declaration]) := by
  have hids : ∀ other ∈ Tree.allNodes (diagram.nextId + 1)
      (Clause.trees diagram diagram.nextId declaration.clauses),
        other.id ≠ ((declaration.tree diagram).rootNode diagram.nextId).id := by
    intro other hother
    have := (Tree.id_mem_allNodes hother).1
    rw [Tree.id_rootNode]
    omega
  have hnext : diagram.nextId + 1 + Clause.sizes declaration.clauses =
      Diagram.nextId (diagram ++ [declaration]) := by
    rw [nextId, nextId, size_concat, Declaration.size]
    omega
  unfold Diagram.builder Clause.builder
  rw [Graph.insertAll_append, Graph.insert_insertAll hids, hnext, trees_concat, Tree.roots_append,
    Tree.allNodes_append, sizes_trees, scope_concat, Graph.insertAll_append]
  simp only [Tree.allNodes, Tree.roots, List.append_nil]
  rfl

/-- Behind declarations with distinct names, a declaration is carried out exactly if it fits. -/
theorem acts_declaration (hnames : (diagram.map fun declaration =>
      (declaration.kind, declaration.name)).Nodup) (declaration : Declaration) {after : Builder} :
    Builder.meaning.acts declaration.actions diagram.builder = .ok after ↔
      declaration.Fits diagram ∧ after = Diagram.builder (diagram ++ [declaration]) := by
  have hfree : diagram.builder.top.scope.get? declaration.kind declaration.name = none ↔
      ¬diagram.Declares declaration.kind declaration.name := by
    change diagram.scope.get? _ _ = none ↔ _
    rw [get?_scope hnames, Option.map_eq_none_iff, ← place?_isSome, ← Option.not_isSome_iff_eq_none,
      Option.isSome_iff_exists]
  rw [Declaration.actions, Interpretation.acts_cons, Declaration.Fits]
  simp only [Builder.act_declare, Interpretation.acts_append, Interpretation.acts_singleton,
    opened_builder, hfree]
  constructor
  · rintro ⟨_, ⟨hnew, rfl⟩, _, htype, _, hclauses, hclose⟩
    rw [acts_classify] at htype
    cases htype
    obtain ⟨hfit, rfl⟩ := (Clause.acts_clauses hnames declaration.clauses).1 hclauses
    rw [Builder.act_close rfl] at hclose
    cases hclose
    exact ⟨⟨hnew, hfit⟩, closed_builder declaration⟩
  · rintro ⟨⟨hnew, hfit⟩, rfl⟩
    refine ⟨_, ⟨hnew, rfl⟩, _, acts_classify _ _ _, _,
      (Clause.acts_clauses hnames declaration.clauses).2 ⟨hfit, rfl⟩, ?_⟩
    rw [Builder.act_close rfl]
    exact congrArg Except.ok (closed_builder declaration)

/-- The actions of a diagram are carried out exactly if its parts fit, and they build its drawing. -/
theorem acts_diagram (diagram : Diagram) {after : Builder} :
    Builder.meaning.acts (diagram.flatMap Declaration.actions) Builder.empty = .ok after ↔
      diagram.AllFit ∧ after = diagram.builder := by
  induction diagram using List.reverseRecOn generalizing after with
  | nil =>
      have hempty : Diagram.builder [] = Builder.empty := rfl
      simp [allFit_nil, hempty, eq_comm]
  | append_singleton front declaration ih =>
      rw [List.flatMap_append, List.flatMap_singleton, Interpretation.acts_append, allFit_concat]
      simp only [ih]
      constructor
      · rintro ⟨_, ⟨hfront, rfl⟩, h⟩
        obtain ⟨hdeclaration, rfl⟩ := (acts_declaration hfront.names_nodup declaration).1 h
        exact ⟨⟨hfront, hdeclaration⟩, rfl⟩
      · rintro ⟨⟨hfront, hdeclaration⟩, rfl⟩
        exact ⟨_, ⟨hfront, rfl⟩,
          (acts_declaration hfront.names_nodup declaration).2 ⟨hdeclaration, rfl⟩⟩

/-- The builder of a whole diagram hands its graph over. -/
theorem finish_builder (diagram : Diagram) : diagram.builder.finish = .ok diagram.graph := by
  refine congrArg Except.ok (Graph.eq_of_nodes ?_)
  have hids : ∀ other ∈ Tree.allNodes (Node.startId + 1) diagram.trees,
      other.id ≠ diagram.builder.root.node.id := by
    intro other hother
    have := (Tree.id_mem_allNodes hother).1
    change other.id ≠ Node.startId
    omega
  have hroot : diagram.builder.root.node = diagram.tree.rootNode Node.startId := by
    rw [tree, Tree.rootNode, List.append_nil]
    rfl
  change ((Graph.empty.insertAll _).insert _).nodes = _
  rw [Graph.insert_insertAll hids, hroot]
  exact Graph.nodes_insertAll_empty (Tree.ascending_nodes Node.startId diagram.tree)

end Diagram
end ErDiagram
