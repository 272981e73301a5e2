import ErDiagram.Proofs.Containment
import ErDiagram.Proofs.Fitting

/-!
The constructs of a valid diagram: the start node, the declarations, their primary keys and branches,
and the attributes at any depth. Whatever holds of each of these, wherever it stands, holds of all
nodes of the graph.
-/

namespace ErDiagram

variable {kind : Node.Kind} {earlier : Diagram}

/-! ### The constructs inside a construct -/

namespace Tree

/-- The ids of roots are those of their nodes. -/
theorem roots_eq (id : Nat) (trees : List Tree) : roots id trees = (rootNodes id trees).map (·.id) := by
  induction trees generalizing id with
  | nil => rfl
  | cons tree rest ih => rw [roots, rootNodes, List.map_cons, id_rootNode, ih]

theorem mem_rootNodes {id : Nat} {trees : List Tree} {node : Node} :
    node ∈ rootNodes id trees ↔
      ∃ front tree back, trees = front ++ tree :: back ∧ node = tree.rootNode (id + sizes front) := by
  induction trees generalizing id with
  | nil =>
      constructor
      · intro h
        cases h
      · rintro ⟨front, tree, back, h, -⟩
        cases front <;> cases h
  | cons first rest ih =>
      rw [rootNodes, List.mem_cons, ih]
      constructor
      · rintro (rfl | ⟨front, tree, back, rfl, rfl⟩)
        · exact ⟨[], first, rest, rfl, rfl⟩
        · exact ⟨first :: front, tree, back, rfl, by rw [sizes, Nat.add_assoc]⟩
      · rintro ⟨front, tree, back, heq, rfl⟩
        cases front with
        | nil =>
            cases heq
            exact Or.inl rfl
        | cons first front =>
            cases heq
            exact Or.inr ⟨front, tree, back, rfl, by rw [sizes, Nat.add_assoc]⟩

end Tree

namespace Attribute

/-- The nodes of attributes side by side have the kind of an attribute, and their names. -/
theorem map_rootNodes (id : Nat) (attributes : List Attribute) :
    (Tree.rootNodes id (trees attributes)).map (fun node => (node.kind, node.name)) =
      attributes.map fun owned => (Node.Kind.attribute, owned.name) := by
  induction attributes generalizing id with
  | nil => rfl
  | cons first rest ih =>
      obtain ⟨name, cardinality, inside⟩ := first
      rw [trees, Tree.rootNodes, List.map_cons, ih]
      rfl

theorem trees_eq_map (attributes : List Attribute) : trees attributes = attributes.map tree := by
  induction attributes with
  | nil => rfl
  | cons first rest ih => rw [trees, ih, List.map_cons]

theorem kind_tree (owned : Attribute) : owned.tree.label.kind = .attribute := by
  cases owned
  rfl

end Attribute

namespace Clause

/-- The nodes directly inside a construct are those of its clauses that declare something. -/
theorem mem_rootNodes {id : Nat} {clauses : List (Clause kind)} {node : Node} :
    node ∈ Tree.rootNodes (id + 1) (trees earlier id clauses) ↔
      ∃ before clause after tree, clauses = before ++ clause :: after ∧
        clause.tree? earlier id before = some tree ∧
          node = tree.rootNode (id + 1 + sizes before) := by
  induction clauses using List.reverseRecOn with
  | nil =>
      constructor
      · intro h
        cases h
      · rintro ⟨before, clause, after, tree, h, -⟩
        cases before <;> cases h
  | append_singleton front last ih =>
      rw [trees_concat, Tree.rootNodes_append, List.mem_append, ih, sizes_trees]
      constructor
      · rintro (⟨before, clause, after, tree, rfl, htree, rfl⟩ | h)
        · exact ⟨before, clause, after ++ [last], tree, by simp, htree, rfl⟩
        · cases htree : last.tree? earlier id front with
          | none =>
              rw [htree] at h
              cases h
          | some tree =>
              rw [htree, Option.toList_some, Tree.rootNodes, Tree.rootNodes,
                List.mem_singleton] at h
              exact ⟨front, last, [], tree, rfl, htree, h⟩
      · rintro ⟨before, clause, after, tree, heq, htree, rfl⟩
        cases after using List.reverseRecOn with
        | nil =>
            obtain ⟨rfl, h⟩ := List.append_inj' heq rfl
            cases h
            refine Or.inr ?_
            rw [htree, Option.toList_some, Tree.rootNodes, Tree.rootNodes]
            exact List.mem_cons_self
        | append_singleton after other =>
            rw [← List.cons_append, ← List.append_assoc] at heq
            obtain ⟨rfl, -⟩ := List.append_inj' heq rfl
            exact Or.inl ⟨before, clause, after, tree, rfl, htree, rfl⟩

/-- A tree directly inside a construct is that of one of its clauses. -/
theorem split_trees {id : Nat} {clauses : List (Clause kind)} {front back : List Tree} {tree : Tree}
    (h : trees earlier id clauses = front ++ tree :: back) :
    ∃ before clause after, clauses = before ++ clause :: after ∧
      clause.tree? earlier id before = some tree ∧ Tree.sizes front = sizes before := by
  induction clauses using List.reverseRecOn generalizing back with
  | nil => cases front <;> cases h
  | append_singleton first last ih =>
      rw [trees_concat] at h
      cases htree : last.tree? earlier id first with
      | none =>
          rw [htree, Option.toList_none, List.append_nil] at h
          obtain ⟨before, clause, after, rfl, hfound⟩ := ih h
          exact ⟨before, clause, after ++ [last], by simp, hfound⟩
      | some found =>
          rw [htree, Option.toList_some] at h
          cases back using List.reverseRecOn with
          | nil =>
              obtain ⟨rfl, heq⟩ := List.append_inj' h rfl
              cases heq
              exact ⟨first, last, [], rfl, htree, sizes_trees earlier id first⟩
          | append_singleton back other =>
              rw [← List.cons_append, ← List.append_assoc] at h
              obtain ⟨before, clause, after, rfl, hfound⟩ := ih (List.append_inj' h rfl).1
              exact ⟨before, clause, after ++ [last], by simp, hfound⟩

/-- A clause that declares a construct declares an attribute, a primary key or a branch. -/
theorem tree?_cases {id : Nat} {before : List (Clause kind)} {clause : Clause kind} {tree : Tree}
    (h : clause.tree? earlier id before = some tree) :
    (∃ owned, clause.attribute? = some owned ∧ tree = owned.tree) ∨
      (∃ names, clause.key? = some names ∧ kind = .entity ∧ tree = ⟨keyLabel id before names, []⟩) ∨
        ∃ entity cardinality, clause.mentioned? = some (.entity, entity) ∧ kind = .association ∧
          tree = ⟨branchLabel earlier entity cardinality, []⟩ := by
  cases clause with
  | attr holds owned =>
      cases h
      exact Or.inl ⟨owned, rfl, rfl⟩
  | key names =>
      cases h
      exact Or.inr (Or.inl ⟨names, rfl, rfl, rfl⟩)
  | branch entity cardinality =>
      cases h
      exact Or.inr (Or.inr ⟨entity, cardinality, rfl, rfl, rfl⟩)
  | parent | child | attributeOf | between | across => cases h

end Clause

theorem Diagram.split_trees_of_eq {diagram : Diagram} {front back : List Tree} {tree : Tree}
    (h : diagram.trees = front ++ tree :: back) :
    ∃ (before : Diagram) (declaration : Declaration) (after : Diagram),
      diagram = before ++ declaration :: after ∧ tree = declaration.tree before ∧
        Tree.sizes front = before.size := by
  induction diagram using List.reverseRecOn generalizing back with
  | nil => cases front <;> cases h
  | append_singleton first last ih =>
      rw [trees_concat] at h
      cases back using List.reverseRecOn with
      | nil =>
          obtain ⟨rfl, heq⟩ := List.append_inj' h rfl
          cases heq
          exact ⟨first, last, [], rfl, rfl, sizes_trees first⟩
      | append_singleton back other =>
          rw [← List.cons_append, ← List.append_assoc] at h
          obtain ⟨before, declaration, after, rfl, hfound⟩ := ih (List.append_inj' h rfl).1
          exact ⟨before, declaration, after ++ [last], by simp, hfound⟩

/-! ### All constructs -/

/-- A part of the tree of a diagram, with its id: the start node, a declaration, a primary key or a
branch behind some clauses of a declaration, or an attribute at any depth. -/
inductive Diagram.Construct (diagram : Diagram) : Nat → Tree → Prop where
  | start : diagram.Construct Node.startId diagram.tree
  | declared {front : Diagram} {declaration : Declaration} {back : Diagram}
    (hsplit : diagram = front ++ declaration :: back) :
    diagram.Construct front.nextId (declaration.tree front)
  | key {front : Diagram} {declaration : Declaration} {back : Diagram}
    {before after : List (Clause declaration.kind)} {clause : Clause declaration.kind}
    {names : List String} (hsplit : diagram = front ++ declaration :: back)
    (hclauses : declaration.clauses = before ++ clause :: after)
    (htree : clause.tree? front front.nextId before =
      some ⟨Clause.keyLabel front.nextId before names, []⟩) (hkind : declaration.kind = .entity) :
    diagram.Construct (front.nextId + 1 + Clause.sizes before)
      ⟨Clause.keyLabel front.nextId before names, []⟩
  | branch {front : Diagram} {declaration : Declaration} {back : Diagram}
    {before after : List (Clause declaration.kind)} {clause : Clause declaration.kind}
    {entity : String} {cardinality : Cardinality}
    (hsplit : diagram = front ++ declaration :: back)
    (hclauses : declaration.clauses = before ++ clause :: after)
    (hentity : clause.mentioned? = some (.entity, entity)) :
    diagram.Construct (front.nextId + 1 + Clause.sizes before)
      ⟨Clause.branchLabel front entity cardinality, []⟩
  | attr {place : Nat} {owned : Attribute} (hdistinct : owned.Distinct) :
    diagram.Construct place owned.tree

theorem Tree.Part.eq_of_leaf {id place : Nat} {label : Label} {part : Tree}
    (h : Part id ⟨label, []⟩ place part) : place = id ∧ part = ⟨label, []⟩ := by
  generalize htree : Tree.mk label [] = tree at h
  cases h with
  | self => exact ⟨rfl, rfl⟩
  | @inside _ _ _ front =>
      have hnil := (Tree.mk.inj htree).2
      cases front <;> cases hnil

theorem Tree.Part.exists_attribute {id place : Nat} {tree part : Tree}
    (h : Part id tree place part) {owned : Attribute} (htree : tree = owned.tree)
    (hdistinct : owned.Distinct) : ∃ attr : Attribute, attr.Distinct ∧ part = attr.tree := by
  induction h generalizing owned with
  | self => exact ⟨owned, hdistinct, htree⟩
  | @inside _ _ label front back child _ _ ih =>
      obtain ⟨-, hall⟩ := hdistinct
      rw [Attribute.tree, Attribute.trees_eq_map] at htree
      obtain ⟨-, hinside⟩ := Tree.mk.inj htree
      have hchild : child ∈ front ++ child :: back := by simp
      rw [hinside] at hchild
      obtain ⟨attr, hattr, rfl⟩ := List.mem_map.1 hchild
      exact ih rfl (hall attr hattr)

theorem Diagram.construct_of_part {diagram : Diagram} (hvalid : diagram.Valid) {place : Nat}
    {part : Tree} (h : Tree.Part Node.startId diagram.tree place part) :
    diagram.Construct place part := by
  generalize htree : diagram.tree = tree at h
  cases h with
  | self => exact htree ▸ .start
  | inside h =>
      obtain ⟨front, declaration, back, hsplit, rfl, hsize⟩ :=
        split_trees_of_eq (Tree.mk.inj htree).2
      rw [hsize] at h
      change Tree.Part (Diagram.nextId front) _ place part at h
      generalize htree' : declaration.tree front = tree at h
      cases h with
      | self => exact htree' ▸ .declared hsplit
      | inside h =>
          obtain ⟨before, clause, after, hclauses, hfound, hsize'⟩ :=
            Clause.split_trees (Tree.mk.inj htree').2
          rw [hsize'] at h
          rcases Clause.tree?_cases hfound with
            ⟨owned, howned, rfl⟩ | ⟨names, -, hkind, rfl⟩ | ⟨entity, cardinality, hentity, -, rfl⟩
          · have hmem : owned ∈ declaration.attributes :=
              Clause.mem_attributes.2 ⟨clause, by simp [hclauses], howned⟩
            have hdistinct := (hvalid.names.attributes declaration (by simp [hsplit])).2 owned hmem
            obtain ⟨attr, hattr, rfl⟩ := h.exists_attribute rfl hdistinct
            exact .attr hattr
          · obtain ⟨rfl, rfl⟩ := h.eq_of_leaf
            exact .key hsplit hclauses hfound hkind
          · obtain ⟨rfl, rfl⟩ := h.eq_of_leaf
            exact .branch hsplit hclauses hentity

/-- Every node of the graph of a diagram is that of a construct. -/
theorem Diagram.exists_construct {diagram : Diagram} (hvalid : diagram.Valid) {node : Node}
    (h : node ∈ diagram.graph.nodes) :
    ∃ place part, diagram.Construct place part ∧
      Tree.Part Node.startId diagram.tree place part ∧ node = part.rootNode place := by
  obtain ⟨place, part, hpart, hnode⟩ := Tree.mem_nodes_iff.1 h
  exact ⟨place, part, construct_of_part hvalid hpart, hpart, hnode⟩

end ErDiagram
