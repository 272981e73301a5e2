import ErDiagram.Proofs.References

/-!
The tree of a diagram is orderly: each construct contains only what its kind may contain. And the
constructs that stand side by side in a valid diagram differ in kind or in name.
-/

namespace ErDiagram

variable {kind : Node.Kind} {earlier : Diagram}

/-! ### What constructs contain -/

namespace Attribute

mutual

theorem orderly_tree : ∀ owned : Attribute, owned.tree.Orderly
  | ⟨name, cardinality, inside⟩ => by
      have hinside := orderly_trees inside
      rw [tree]
      refine .mk (fun _ => rfl) (fun h => by cases h) (fun tree htree => ?_)
        (fun tree htree => hinside tree htree)
      rw [trees_eq_map] at htree
      obtain ⟨owned, -, rfl⟩ := List.mem_map.1 htree
      rw [kind_tree]
      rfl

theorem orderly_trees : ∀ attributes : List Attribute,
    ∀ tree ∈ trees attributes, tree.Orderly
  | [], tree, h => by cases h
  | first :: rest, tree, h => by
      rw [trees] at h
      rcases List.mem_cons.1 h with rfl | h
      · exact orderly_tree first
      · exact orderly_trees rest tree h

end

end Attribute

theorem Tree.orderly_leaf {label : Label} (h : label.kind.isContainer = false) :
    Orderly ⟨label, []⟩ := by
  refine .mk (fun hkind => ?_) (fun _ => rfl) (fun _ h => by cases h) (fun _ h => by cases h)
  rw [h] at hkind
  cases hkind

theorem Clause.holds_attribute {clause : Clause kind} {owned : Attribute}
    (h : clause.attribute? = some owned) : kind.holds .attribute = true := by
  cases clause with
  | attr holds other => rcases holds with rfl | rfl <;> rfl
  | key | branch | parent | child | attributeOf | between | across => cases h

theorem Clause.orderly_trees {id : Nat} {clauses : List (Clause kind)} :
    ∀ tree ∈ trees earlier id clauses,
      kind.holds tree.label.kind = true ∧ tree.Orderly := by
  intro tree htree
  obtain ⟨front, back, hsplit⟩ := List.append_of_mem htree
  obtain ⟨before, clause, after, -, hclause, -⟩ := split_trees hsplit
  rcases tree?_cases hclause with
    ⟨owned, howned, rfl⟩ | ⟨names, -, rfl, rfl⟩ | ⟨entity, cardinality, -, rfl, rfl⟩
  · rw [Attribute.kind_tree]
    exact ⟨holds_attribute howned, Attribute.orderly_tree owned⟩
  · exact ⟨rfl, Tree.orderly_leaf rfl⟩
  · exact ⟨rfl, Tree.orderly_leaf rfl⟩

namespace Declaration

/-- A declared construct contains constructs, or it mentions them. -/
theorem contains_or_mentions (declaration : Declaration) :
    (declaration.kind = .entity ∨ declaration.kind = .association) ∧
        declaration.kind.isContainer = true ∨
      (declaration.kind = .hierarchy ∨ declaration.kind = .foreignKey) ∧
        declaration.kind.isContainer = false := by
  cases declaration with
  | entity => exact Or.inl ⟨Or.inl rfl, rfl⟩
  | association => exact Or.inl ⟨Or.inr rfl, rfl⟩
  | hierarchy => exact Or.inr ⟨Or.inl rfl, rfl⟩
  | foreignKey => exact Or.inr ⟨Or.inr rfl, rfl⟩

theorem orderly_tree (declaration : Declaration) : (declaration.tree earlier).Orderly := by
  rw [tree, Clause.treeOf]
  refine .mk (fun hcontainer => ?_) (fun hcontainer => ?_)
    (fun tree htree => (Clause.orderly_trees tree htree).1)
    (fun tree htree => (Clause.orderly_trees tree htree).2)
  · rcases declaration.contains_or_mentions with ⟨hkind, -⟩ | ⟨-, hnot⟩
    · exact Clause.flatMap_mentions hkind declaration.clauses
    · cases hnot.symm.trans hcontainer
  · rcases declaration.contains_or_mentions with ⟨-, hnot⟩ | ⟨hkind, -⟩
    · cases hnot.symm.trans hcontainer
    · exact Clause.trees_of_mentions hkind _ declaration.clauses

end Declaration

theorem Diagram.orderly_tree (diagram : Diagram) : diagram.tree.Orderly := by
  have htrees : ∀ tree ∈ diagram.trees, ∃ (front : Diagram) (declaration : Declaration),
      tree = declaration.tree front := by
    intro tree htree
    obtain ⟨front, back, hsplit⟩ := List.append_of_mem htree
    obtain ⟨before, declaration, -, -, hdeclaration, -⟩ := split_trees_of_eq hsplit
    exact ⟨before, declaration, hdeclaration⟩
  refine .mk (fun _ => rfl) (fun h => by cases h) (fun tree htree => ?_) (fun tree htree => ?_)
  · obtain ⟨front, declaration, rfl⟩ := htrees tree htree
    cases declaration <;> rfl
  · obtain ⟨front, declaration, rfl⟩ := htrees tree htree
    exact declaration.orderly_tree

/-! ### What stands side by side -/

def Node.title (node : Node) : Node.Kind × String :=
  (node.kind, node.name)

theorem Tree.title_rootNode (id : Nat) (tree : Tree) :
    (tree.rootNode id).title = (tree.label.kind, tree.label.name id) := by
  cases tree
  rfl

theorem Attribute.titles_nodup {owned : Attribute} (h : owned.Distinct) (id : Nat) {label : Label}
    {inside : List Tree} (htree : owned.tree = ⟨label, inside⟩) :
    ((Tree.rootNodes id inside).map Node.title).Nodup := by
  obtain ⟨hnames, -⟩ := h
  obtain ⟨-, rfl⟩ := Tree.mk.inj htree
  unfold Node.title
  rw [map_rootNodes]
  refine List.Nodup.of_map Prod.snd ?_
  rwa [List.map_map]

/-- A name that is made of an id tells which. -/
theorem repr_append_injective {first second : Nat} {suffix : String}
    (h : first.repr ++ suffix = second.repr ++ suffix) : first = second := by
  have hrepr : first.repr = second.repr := (String.append_left_inj suffix).1 h
  have hdigits : Nat.toDigits 10 first = Nat.toDigits 10 second := by
    rw [← Nat.toList_repr, ← Nat.toList_repr, hrepr]
  calc first = Nat.ofDigitChars 10 (Nat.toDigits 10 first) 0 := Nat.ofDigitChars_ten_toDigits.symm
    _ = Nat.ofDigitChars 10 (Nat.toDigits 10 second) 0 := by rw [hdigits]
    _ = second := Nat.ofDigitChars_ten_toDigits

namespace Clause

/-- The constructs of two clauses differ in kind or in name. -/
theorem title_ne {id place later : Nat} {before front : List (Clause kind)}
    {clause last : Clause kind} {tree other : Tree}
    (htree : clause.tree? earlier id before = some tree)
    (hother : last.tree? earlier id front = some other) (hplaces : place ≠ later)
    (hnames : ∀ owned, last.attribute? = some owned → ∀ attr, clause.attribute? = some attr →
      attr.name ≠ owned.name) :
    (tree.rootNode place).title ≠ (other.rootNode later).title := by
  rw [Tree.title_rootNode, Tree.title_rootNode]
  intro heq
  obtain ⟨hkind, hname⟩ := Prod.mk.inj heq
  rcases tree?_cases htree with
    ⟨attr, hattr, rfl⟩ | ⟨names, -, rfl, rfl⟩ | ⟨entity, cardinality, -, rfl, rfl⟩
  · rw [Attribute.kind_tree] at hkind
    rcases tree?_cases hother with
      ⟨owned, howned, rfl⟩ | ⟨names, -, -, rfl⟩ | ⟨entity, cardinality, -, -, rfl⟩
    · apply hnames owned howned attr hattr
      cases attr
      cases owned
      exact hname
    · cases hkind
    · cases hkind
  · rcases tree?_cases hother with
      ⟨owned, howned, rfl⟩ | ⟨names, -, -, rfl⟩ | ⟨entity, cardinality, -, h, -⟩
    · rw [Attribute.kind_tree] at hkind
      cases hkind
    · exact hplaces (repr_append_injective hname)
    · cases h
  · rcases tree?_cases hother with
      ⟨owned, howned, rfl⟩ | ⟨names, -, h, -⟩ | ⟨entity, cardinality, -, -, rfl⟩
    · rw [Attribute.kind_tree] at hkind
      cases hkind
    · cases h
    · exact hplaces (repr_append_injective hname)

theorem AllFit.titles_nodup {clauses : List (Clause kind)} (h : AllFit earlier clauses) (id : Nat) :
    ((Tree.rootNodes (id + 1) (trees earlier id clauses)).map Node.title).Nodup := by
  induction clauses using List.reverseRecOn with
  | nil => exact List.nodup_nil
  | append_singleton front last ih =>
      obtain ⟨hfront, hlast⟩ := allFit_concat.1 h
      rw [trees_concat, Tree.rootNodes_append, sizes_trees, List.map_append]
      cases hother : last.tree? earlier id front with
      | none =>
          rw [Option.toList_none, Tree.rootNodes, List.map_nil, List.append_nil]
          exact ih hfront
      | some other =>
          rw [Option.toList_some, Tree.rootNodes, Tree.rootNodes, List.map_singleton]
          refine List.nodup_append.2 ⟨ih hfront, List.nodup_singleton _, ?_⟩
          intro title htitle title' htitle'
          rw [List.mem_singleton.1 htitle']
          obtain ⟨node, hnode, rfl⟩ := List.mem_map.1 htitle
          obtain ⟨before, clause, after, tree, rfl, htree, rfl⟩ := mem_rootNodes.1 hnode
          apply title_ne htree hother
          · have hsize := sizes_toList_tree? earlier id before clause
            have hpos := tree.size_pos
            rw [htree, Option.toList_some, Tree.sizes, Tree.sizes] at hsize
            simp only [sizes, List.map_append, List.map_cons, List.sum_append, List.sum_cons]
            omega
          · intro owned howned attr hattr
            cases last with
            | attr holds other =>
                cases howned
                refine hlast.1 attr (mem_attributes.2 ⟨clause, ?_, hattr⟩)
                exact List.mem_append_right _ List.mem_cons_self
            | key | branch | parent | child | attributeOf | between | across => cases howned

theorem countP_key_rootNodes (earlier : Diagram) (id : Nat) (clauses : List (Clause kind)) :
    (Tree.rootNodes (id + 1) (trees earlier id clauses)).countP (·.kind = .primaryKey) =
      (clauses.filterMap key?).length := by
  induction clauses using List.reverseRecOn with
  | nil => rfl
  | append_singleton front clause ih =>
      rw [trees_concat, Tree.rootNodes_append, List.countP_append, List.filterMap_append,
        List.length_append, ih]
      congr 1
      cases clause with
      | attr holds owned =>
          cases owned
          rfl
      | key | branch => rfl
      | parent | child | attributeOf | between | across => rfl

end Clause

theorem Diagram.titles_nodup {diagram : Diagram} (h : diagram.NamesDistinct) :
    ((Tree.rootNodes (Node.startId + 1) diagram.trees).map Node.title).Nodup := by
  have htitles : (Tree.rootNodes (Node.startId + 1) diagram.trees).map Node.title =
      diagram.map fun declaration => (declaration.kind, declaration.name) := by
    clear h
    induction diagram using List.reverseRecOn with
    | nil => rfl
    | append_singleton front declaration ih =>
        rw [trees_concat, Tree.rootNodes_append, List.map_append, List.map_append, ih]
        rfl
  rw [htitles]
  exact h.declarations

end ErDiagram
