import ErDiagram.Proofs.Compiling
import ErDiagram.Proofs.Constructs
import ErDiagram.Proofs.Pointing
import ErDiagram.Proofs.Respelling

/-!
Names in graphs. A declared construct has its name from a token, a primary key and a branch have
theirs from their number, and the start node has its own. All of these are words: they have no blanks
in them, and they are not empty.
-/

namespace ErDiagram

/-- A text of word characters, with at least one of them. -/
def IsWord (text : String) : Prop :=
  text.toList ≠ [] ∧ ∀ c ∈ text.toList, isWordChar c

instance (text : String) : Decidable (IsWord text) :=
  decidable_of_iff (text.toList ≠ [] ∧ text.toList.all isWordChar) (by rw [IsWord, List.all_eq_true])

/-! ### Texts that are words -/

theorem IsWord.not_mem {text : String} (h : IsWord text) {c : Char} (hc : isWordChar c = false) :
    c ∉ text.toList := by
  intro hmem
  rw [h.2 c hmem] at hc
  cases hc

theorem isWordChar_of_isWordStart {c : Char} (h : isWordStart c) : isWordChar c := by
  rw [isWordChar, h, Bool.true_or]

theorem isWordChar_of_isDigit {c : Char} (h : c.isDigit) : isWordChar c := by
  rw [isWordChar, h, Bool.or_true]

theorem isWord_of_identifier {token : Token} (hkind : token.kind = .identifier)
    (hspelled : token.Spelled) : IsWord token.text := by
  rw [Token.Spelled, hkind] at hspelled
  obtain ⟨c, tail, htext, -⟩ := id hspelled
  rw [htext] at hspelled
  obtain ⟨hstart, htail, -⟩ := hspelled.word rfl
  rw [IsWord, htext]
  exact ⟨List.cons_ne_nil _ _, List.forall_mem_cons.2 ⟨isWordChar_of_isWordStart hstart, htail⟩⟩

/-- A number with a word behind it is a word. -/
theorem isWord_repr_append (n : Nat) {suffix : String} (h : IsWord suffix) :
    IsWord (n.repr ++ suffix) := by
  rw [IsWord, String.toList_append]
  refine ⟨List.append_ne_nil_of_right_ne_nil _ h.1, fun c hc => ?_⟩
  rcases List.mem_append.1 hc with hdigit | hsuffix
  · exact isWordChar_of_isDigit (isDigit_of_mem_repr hdigit)
  · exact h.2 c hsuffix

/-! ### Trees of named constructs -/

/-- The constructs of a tree have words for names, however they are numbered. -/
inductive Tree.Worded : Tree → Prop where
  | mk {label : Label} {inside : List Tree} (hname : ∀ id, IsWord (label.name id))
    (hinside : ∀ child ∈ inside, child.Worded) : Tree.Worded ⟨label, inside⟩

theorem Tree.Part.worded {id place : Nat} {tree part : Tree} (h : Part id tree place part)
    (htree : tree.Worded) : part.Worded := by
  induction h with
  | self => exact htree
  | inside _ ih =>
      cases htree with
      | mk _ hinside => exact ih (hinside _ (by simp))

theorem Tree.Worded.name_rootNode {tree : Tree} (h : tree.Worded) (id : Nat) :
    IsWord (tree.rootNode id).name := by
  cases h with
  | mk hname => exact hname id

/-! ### What is written -/

theorem Enclosed.inner_subset {word : Keyword} {inner tokens : List Token}
    (h : Enclosed word inner tokens) : inner ⊆ tokens := by
  cases h with
  | mk hopening hkeyword hclosing =>
      exact fun token htoken => List.mem_cons_of_mem _ (List.mem_cons_of_mem _
        (List.mem_append_left _ htoken))

theorem Row.exists_of_mem {α : Type} {writes : α → List Token → Prop} {things : List α}
    {tokens : List Token} (h : Row writes things tokens) {thing : α} (hthing : thing ∈ things) :
    ∃ part ⊆ tokens, writes thing part := by
  induction h with
  | nil => cases hthing
  | cons hfirst _ ih =>
      rcases List.mem_cons.1 hthing with rfl | hrest
      · exact ⟨_, List.subset_append_left _ _, hfirst⟩
      · obtain ⟨part, hpart, hwrites⟩ := ih hrest
        exact ⟨part, fun token htoken => List.mem_append_right _ (hpart htoken), hwrites⟩

mutual

theorem Attribute.WrittenAs.worded {owned : Attribute} {tokens : List Token} :
    owned.WrittenAs tokens → (∀ token ∈ tokens, token.Spelled) → owned.tree.Worded
  | .mk hname hdetail hinside henclosed, hspelled => by
      have hinner := fun token htoken => hspelled token (henclosed.inner_subset htoken)
      obtain ⟨hfirst, hmore⟩ := List.forall_mem_cons.1 hinner
      refine .mk (fun _ => isWord_of_identifier hname hfirst) ?_
      exact Attribute.AllWrittenAs.worded hinside fun token htoken =>
        hmore token (List.mem_append_right _ htoken)

theorem Attribute.AllWrittenAs.worded {attributes : List Attribute} {tokens : List Token} :
    Attribute.AllWrittenAs attributes tokens → (∀ token ∈ tokens, token.Spelled) →
      ∀ tree ∈ Attribute.trees attributes, tree.Worded
  | .nil, _ => nofun
  | .cons hfirst hrest, hspelled => by
      obtain ⟨hfront, hback⟩ := List.forall_mem_append.1 hspelled
      exact List.forall_mem_cons.2 ⟨Attribute.WrittenAs.worded hfirst hfront,
        Attribute.AllWrittenAs.worded hrest hback⟩

end

theorem Clause.WrittenAs.worded {kind : Node.Kind} {clause : Clause kind} {tokens : List Token}
    (h : clause.WrittenAs tokens) (hspelled : ∀ token ∈ tokens, token.Spelled) (earlier : Diagram)
    (id : Nat) (before : List (Clause kind)) : ∀ tree ∈ clause.tree? earlier id before, tree.Worded := by
  intro tree htree
  cases h with
  | attr howned =>
      cases htree
      exact howned.worded hspelled
  | key =>
      cases htree
      exact .mk (fun own => isWord_repr_append own (by decide)) nofun
  | branch =>
      cases htree
      exact .mk (fun own => isWord_repr_append own (by decide)) nofun
  | parent | child | attributeOf | between | across => cases htree

theorem Clause.worded_treeOf {kind : Node.Kind} {clauses : List (Clause kind)} {tokens : List Token}
    (h : Row Clause.WrittenAs clauses tokens) (hspelled : ∀ token ∈ tokens, token.Spelled)
    {name : String} (hname : IsWord name) (earlier : Diagram) (id : Nat) (type : Option HierarchyType) :
    (Clause.treeOf earlier id name type clauses).Worded := by
  refine .mk (fun _ => hname) fun tree htree => ?_
  obtain ⟨front, clause, back, rfl, hclause⟩ := mem_inOrder.1 htree
  obtain ⟨part, hpart, hwrites⟩ := h.exists_of_mem (List.mem_append_right front List.mem_cons_self)
  exact hwrites.worded (fun token htoken => hspelled token (hpart htoken)) _ _ _ tree
    (Option.mem_toList.1 hclause)

theorem Declaration.WrittenAs.worded {declaration : Declaration} {tokens : List Token}
    (h : declaration.WrittenAs tokens) (hspelled : ∀ token ∈ tokens, token.Spelled)
    (earlier : Diagram) : (declaration.tree earlier).Worded := by
  cases h with
  | entity hname hclauses henclosed | association hname hclauses henclosed
  | foreignKey hname hclauses henclosed =>
      have hinner := fun token htoken => hspelled token (henclosed.inner_subset htoken)
      obtain ⟨hfirst, hrest⟩ := List.forall_mem_cons.1 hinner
      exact Clause.worded_treeOf hclauses hrest (isWord_of_identifier hname hfirst) _ _ _
  | hierarchy hname hwords hclauses henclosed =>
      have hinner := fun token htoken => hspelled token (henclosed.inner_subset htoken)
      obtain ⟨hfirst, hrest⟩ := List.forall_mem_cons.1 hinner
      exact Clause.worded_treeOf hclauses (List.forall_mem_append.1 hrest).2
        (isWord_of_identifier hname hfirst) _ _ _

theorem Diagram.WrittenAs.worded {diagram : Diagram} {tokens : List Token}
    (h : diagram.WrittenAs tokens) (hspelled : ∀ token ∈ tokens, token.Spelled) :
    diagram.tree.Worded := by
  have hstart : IsWord "start" := by decide
  refine .mk (fun _ => hstart) fun tree htree => ?_
  obtain ⟨front, declaration, back, rfl, hdeclaration⟩ := mem_inOrder.1 htree
  obtain rfl := List.mem_singleton.1 hdeclaration
  obtain ⟨part, hpart, hwrites⟩ := Row.exists_of_mem h (List.mem_append_right front List.mem_cons_self)
  exact hwrites.worded (fun token htoken => hspelled token (hpart htoken)) _

/-- All names in the graph of a source text are words. -/
theorem isWord_name_of_compile {source : String} {graph : Graph} (h : compile source = .ok graph) :
    ∀ node ∈ graph.nodes, IsWord node.name := by
  obtain ⟨-, diagram, hwritten, -, -, rfl⟩ := compile_ok_iff.1 h
  rw [dropLast_tokens] at hwritten
  intro node hnode
  obtain ⟨place, part, hpart, rfl⟩ := Tree.mem_nodes_iff.1 hnode
  exact (hpart.worded (hwritten.worded (spelled_scan 0 _))).name_rootNode place

end ErDiagram
