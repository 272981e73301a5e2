import ErDiagram.Proofs.Building
import ErDiagram.Proofs.Constructs

/-!
Where links lead that do not lead to what a construct contains. A name that is looked up among the
declarations before a construct gives the id of one of them, and the name of an attribute gives the
id of an attribute that is declared directly in an entity. Such an id is smaller than that of the
construct that mentions the name.
-/

namespace ErDiagram

variable {kind : Node.Kind}

def Graph.HasKind (graph : Graph) (id : Nat) (kind : Node.Kind) : Prop :=
  ∃ node, graph.get? id = some node ∧ node.kind = kind

/-- There is an attribute with an id directly in an entity. -/
def Graph.OwnsAttribute (graph : Graph) (id : Nat) : Prop :=
  graph.HasKind id .attribute ∧ ∃ entity ∈ graph.nodes, entity.kind = .entity ∧ id ∈ entity.links

/-! ### Parts of a diagram -/

namespace Tree

theorem Part.trans {id place inner : Nat} {tree part small : Tree} (h : Part id tree place part)
    (hsmall : Part place part inner small) : Part id tree inner small := by
  induction h with
  | self => exact hsmall
  | inside _ ih => exact .inside (ih hsmall)

theorem kind_rootNode (id : Nat) (tree : Tree) : (tree.rootNode id).kind = tree.label.kind := by
  cases tree
  rfl

end Tree

namespace Diagram

theorem nextId_append (front : Diagram) (declaration : Declaration) (back : Diagram) :
    nextId (front ++ declaration :: back) = front.nextId + declaration.size + Diagram.size back := by
  simp only [nextId, size, List.map_append, List.map_cons, List.sum_append, List.sum_cons]
  omega

theorem nextId_lt (front : Diagram) (declaration : Declaration) (back : Diagram) :
    front.nextId < nextId (front ++ declaration :: back) := by
  have hpos : 0 < declaration.size := Nat.succ_pos _
  rw [nextId_append]
  omega

variable {diagram front back : Diagram} {declaration : Declaration}

theorem part_declaration (hsplit : diagram = front ++ declaration :: back) :
    Tree.Part Node.startId diagram.tree front.nextId (declaration.tree front) := by
  obtain ⟨rest, hrest⟩ := split_trees front declaration back
  have hsize : front.nextId = Node.startId + 1 + Tree.sizes front.trees := by
    rw [sizes_trees]
    rfl
  rw [tree, hsplit, hrest, hsize]
  exact .inside .self

theorem part_of_clause (earlier : Diagram) (declaration : Declaration)
    {before after : List (Clause declaration.kind)} {clause : Clause declaration.kind}
    (hclauses : declaration.clauses = before ++ clause :: after) {tree : Tree}
    (htree : clause.tree? earlier earlier.nextId before = some tree) :
    Tree.Part earlier.nextId (declaration.tree earlier)
      (earlier.nextId + 1 + Clause.sizes before) tree := by
  rw [Declaration.tree, Clause.treeOf, hclauses, Clause.trees, inOrder_append, inOrder,
    List.nil_append, htree, ← Clause.sizes_trees earlier earlier.nextId before]
  exact .inside .self

theorem part_clause (hsplit : diagram = front ++ declaration :: back)
    {before after : List (Clause declaration.kind)} {clause : Clause declaration.kind}
    (hclauses : declaration.clauses = before ++ clause :: after) {tree : Tree}
    (htree : clause.tree? front front.nextId before = some tree) :
    Tree.Part Node.startId diagram.tree (front.nextId + 1 + Clause.sizes before) tree :=
  (part_declaration hsplit).trans (part_of_clause front declaration hclauses htree)

/-- The construct that a clause declares is linked to. -/
theorem mem_links_of_clause (front : Diagram) (declaration : Declaration)
    {before after : List (Clause declaration.kind)} {clause : Clause declaration.kind}
    (hclauses : declaration.clauses = before ++ clause :: after) {tree : Tree}
    (htree : clause.tree? front front.nextId before = some tree) :
    front.nextId + 1 + Clause.sizes before ∈
      ((declaration.tree front).rootNode front.nextId).links := by
  have hmem : tree.rootNode (front.nextId + 1 + Clause.sizes before) ∈
      Tree.rootNodes (front.nextId + 1) (Clause.trees front front.nextId declaration.clauses) :=
    Clause.mem_rootNodes.2 ⟨before, clause, after, tree, hclauses, htree, rfl⟩
  refine List.mem_append_left _ ?_
  rw [Tree.roots_eq, List.mem_map]
  exact ⟨_, hmem, Tree.id_rootNode _ _⟩

theorem hasKind_of_part {place : Nat} {part : Tree}
    (h : Tree.Part Node.startId diagram.tree place part) :
    diagram.graph.HasKind place part.label.kind :=
  ⟨part.rootNode place, Graph.get?_iff.2 ⟨h.rootNode_mem, Tree.id_rootNode _ _⟩,
    Tree.kind_rootNode _ _⟩

/-! ### Names of declarations -/

theorem split_of_mem_ids {earlier : Diagram} {id : Nat} {name : String}
    (h : id ∈ earlier.ids kind name) :
    ∃ (front : Diagram) (declaration : Declaration) (back : Diagram),
      earlier = front ++ declaration :: back ∧ declaration.kind = kind ∧ id = front.nextId := by
  rw [ids, Option.mem_toList, Option.map_eq_some_iff] at h
  obtain ⟨place, hplace, rfl⟩ := h
  obtain ⟨hkind, -, before, after, hsplit, hid⟩ := split_of_place? hplace
  exact ⟨before, place.2, after, hsplit, hkind, hid⟩

/-- The name of a declaration gives an id of its kind, smaller than any that is given later. -/
theorem resolved_of_mem_ids (hsplit : diagram = front ++ declaration :: back) {id : Nat}
    {name : String} (h : id ∈ front.ids kind name) :
    id < front.nextId ∧ diagram.graph.HasKind id kind := by
  obtain ⟨before, other, after, rfl, rfl, rfl⟩ := split_of_mem_ids h
  rw [List.append_assoc] at hsplit
  exact ⟨nextId_lt before other after, hasKind_of_part (part_declaration hsplit)⟩

/-- A name that is declared gives just one id. -/
theorem Declares.exists_ids {earlier : Diagram} {name : String} (h : earlier.Declares kind name) :
    ∃ id, earlier.ids kind name = [id] := by
  obtain ⟨place, hplace⟩ := place?_isSome.2 h
  rw [ids, hplace]
  exact ⟨place.1, rfl⟩

end Diagram

/-! ### Names of attributes -/

theorem Clause.split_of_lookup {id found : Nat} {clauses : List (Clause kind)} {name : String}
    (h : (attributeIds id clauses).lookup name = some found) :
    ∃ before clause after owned, clauses = before ++ clause :: after ∧
      clause.attribute? = some owned ∧ owned.name = name ∧ found = id + 1 + sizes before := by
  rw [lookup_eq_find?, Option.map_eq_some_iff] at h
  obtain ⟨attr, hattr, rfl⟩ := h
  have hname := List.find?_some hattr
  obtain ⟨before, clause, after, hclauses, hmem⟩ := mem_inOrder.1 (List.mem_of_find?_eq_some hattr)
  rw [List.nil_append] at hmem
  obtain ⟨owned, howned, rfl⟩ := List.mem_map.1 hmem
  exact ⟨before, clause, after, owned, hclauses, Option.mem_toList.1 howned, by simpa using hname,
    rfl⟩

theorem Clause.tree?_of_attribute? (earlier : Diagram) (id : Nat) (before : List (Clause kind))
    {clause : Clause kind} {owned : Attribute} (h : clause.attribute? = some owned) :
    clause.tree? earlier id before = some owned.tree ∧ 0 < clause.size := by
  cases clause with
  | attr holds other =>
      cases h
      exact ⟨rfl, Tree.size_pos _⟩
  | key | branch | parent | child | attributeOf | between | across => cases h

/-- The name of an attribute gives the id of an attribute of the declaration, smaller than any that
is given later. -/
theorem Diagram.resolved_of_lookup {diagram front back : Diagram} {declaration : Declaration}
    (hsplit : diagram = front ++ declaration :: back)
    {before rest : List (Clause declaration.kind)}
    (hclauses : declaration.clauses = before ++ rest) {name : String} {found : Nat}
    (h : (Clause.attributeIds front.nextId before).lookup name = some found) :
    found < front.nextId + 1 + Clause.sizes before ∧ diagram.graph.HasKind found .attribute ∧
      found ∈ ((declaration.tree front).rootNode front.nextId).links := by
  obtain ⟨first, clause, after, owned, rfl, howned, -, rfl⟩ := Clause.split_of_lookup h
  rw [List.append_assoc, List.cons_append] at hclauses
  obtain ⟨htree, hpos⟩ := Clause.tree?_of_attribute? front front.nextId first howned
  refine ⟨?_, ?_, mem_links_of_clause front declaration hclauses htree⟩
  · simp only [Clause.sizes, List.map_append, List.map_cons, List.sum_append, List.sum_cons]
    omega
  · have hpart := hasKind_of_part (part_clause hsplit hclauses htree)
    rwa [Attribute.kind_tree] at hpart

/-! ### What a clause mentions -/

namespace Diagram

variable {diagram front back : Diagram} {declaration : Declaration}

/-- What a clause mentions has a smaller id than the construct that it is a clause of. It is an
entity, or else the clause is that of a foreign key. -/
theorem resolved_of_mentions (hsplit : diagram = front ++ declaration :: back)
    {clause : Clause kind} {id : Nat} (h : id ∈ clause.mentions front) :
    id < front.nextId ∧ (diagram.graph.HasKind id .entity ∨
      kind = .foreignKey ∧
        (diagram.graph.HasKind id .association ∨ diagram.graph.OwnsAttribute id)) := by
  cases clause with
  | attr | key | branch => cases h
  | parent | child | between =>
      obtain ⟨hlt, hkind⟩ := resolved_of_mem_ids hsplit h
      exact ⟨hlt, Or.inl hkind⟩
  | across =>
      obtain ⟨hlt, hkind⟩ := resolved_of_mem_ids hsplit h
      exact ⟨hlt, Or.inr ⟨rfl, Or.inl hkind⟩⟩
  | attributeOf name entity =>
      obtain ⟨⟨place, owner⟩, hplace, hlookup⟩ := Option.bind_eq_some_iff.1 (Option.mem_toList.1 h)
      obtain ⟨hentity, -, before, after, rfl, rfl⟩ := split_of_place? hplace
      rw [List.append_assoc, List.cons_append] at hsplit
      obtain ⟨hlt, hkind, hlink⟩ :=
        resolved_of_lookup hsplit (List.append_nil owner.clauses).symm hlookup
      have hnext : id < nextId (before ++ owner :: after) := by
        have hsize : owner.size = Clause.sizes owner.clauses + 1 := rfl
        rw [nextId_append]
        omega
      refine ⟨hnext, Or.inr ⟨rfl, Or.inr ⟨hkind, _, (part_declaration hsplit).rootNode_mem, ?_, hlink⟩⟩⟩
      rw [Tree.kind_rootNode]
      exact hentity

end Diagram
end ErDiagram
