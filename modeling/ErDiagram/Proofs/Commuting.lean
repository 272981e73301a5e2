import ErDiagram.Proofs.Corresponding
import ErDiagram.Proofs.Exchanging
import ErDiagram.Proofs.Extending
import ErDiagram.Proofs.Writing

/-!
Independent declarations commute. Texts on lines of their own are cut into tokens one by one, and what
is a complete group is one declaration. So if a source text compiles, then so does the text with two
neighbouring groups in exchanged order, provided that the second links to nothing of the first, and
the graphs differ in the numbering only.
-/

namespace ErDiagram

/-! ### Groups are declarations -/

/-- Inside a group something is open. -/
theorem Closes.pos_of_append {depth : Int} {front back : List Token}
    (h : Closes depth (front ++ back)) (hback : back ≠ []) (hdepth : 0 < depth) :
    0 < depth + ErDiagram.openedBy front := by
  induction front generalizing depth with
  | nil => rwa [openedBy_nil, Int.add_zero]
  | cons token front ih =>
      rw [List.cons_append, Closes] at h
      rw [openedBy_cons, ← Int.add_assoc]
      split at h
      · exact absurd (List.append_eq_nil_iff.1 h).2 hback
      · exact ih h (by omega)

/-- No complete group goes on behind a declaration. -/
theorem IsGroup.eq_nil_of_append {front back : List Token} (h : IsGroup (front ++ back))
    {declaration : Declaration} (hfront : declaration.WrittenAs front) : back = [] := by
  obtain ⟨hopened, paren, body, rfl, hparen⟩ := Declaration.grouped _ _ hfront
  obtain ⟨-, hcloses⟩ := isGroup_iff.1 h
  by_contra hback
  have hpos := hcloses.pos_of_append hback Int.one_pos
  rw [openedBy_cons, nesting_leftParen hparen] at hopened
  omega

/-- A diagram that is written by one complete group is one declaration. -/
theorem Diagram.WrittenAs.single {diagram : Diagram} {tokens : List Token}
    (h : diagram.WrittenAs tokens) (hgroup : IsGroup tokens) :
    ∃ declaration, diagram = [declaration] := by
  cases h with
  | nil => exact absurd rfl hgroup.ne_nil
  | @cons first _ _ _ hfirst hrest =>
      cases hrest with
      | nil => exact ⟨first, rfl⟩
      | cons hsecond _ =>
          obtain ⟨-, paren, body, rfl, -⟩ := Declaration.grouped _ _ hsecond
          have hnil := hgroup.eq_nil_of_append hfirst
          cases hnil

theorem IsGroup.pieces {tokens : List Token} (h : IsGroup tokens) : Pieces tokens :=
  List.append_nil tokens ▸ .group h .nil

namespace Diagram

/-- If no declaration stops behind others, then a complete group at the front is one declaration more,
and no declaration stops behind it. -/
theorem exists_declaration {early : Diagram} (hearly : early.AllFit) {front back : List Token}
    (hgroup : IsGroup front) (hspelled : ∀ token ∈ front ++ back, token.Spelled)
    {after : Reading Builder}
    (h : (Reading.mk (front ++ back) 0 early.builder).declarations Builder.meaning (maxDepth + 1) =
      ([], after)) :
    ∃ declaration : Declaration, ReadFrom [declaration] front ∧ AllFit (early ++ [declaration]) ∧
      (Reading.mk back 0 (builder (early ++ [declaration]))).declarations Builder.meaning
        (maxDepth + 1) = ([], after) := by
  obtain ⟨hfront, hback⟩ := List.forall_mem_append.1 hspelled
  obtain ⟨stops, later, -, -, htakes⟩ := takes_pieces hgroup.pieces hfront hearly
  have hnone : stops = [] := by
    have hread := (htakes back hback).symm.trans h
    exact (List.append_eq_nil_iff.1 (Prod.mk.inj hread).1).1
  subst hnone
  have hend := htakes [] (fun _ htoken => nomatch htoken)
  rw [List.append_nil] at hend
  obtain ⟨diagram, hfrom, hfit, hlater⟩ := (declarations_behind hearly hfront).1 hend
  obtain ⟨declaration, rfl⟩ := hfrom.written.single hgroup
  have hbuilder : later.builder = builder (early ++ [declaration]) := congrArg Reading.state hlater
  refine ⟨declaration, hfrom, hfit, ?_⟩
  rw [← hbuilder, ← h, htakes back hback]
  rfl

/-- If no declaration stops behind others, and two complete groups are at the front, then these are
two declarations, and what follows is a diagram. -/
theorem exists_pair {early : Diagram} (hearly : early.AllFit) {front next back : List Token}
    (hfront : IsGroup front) (hnext : IsGroup next)
    (hspelled : ∀ token ∈ front ++ (next ++ back), token.Spelled) {after : Reading Builder}
    (h : (Reading.mk (front ++ (next ++ back)) 0 early.builder).declarations Builder.meaning
      (maxDepth + 1) = ([], after)) :
    ∃ (first second : Declaration) (rest : Diagram), ReadFrom [first] front ∧
      ReadFrom [second] next ∧ rest.ReadFrom back ∧ AllFit (early ++ first :: second :: rest) ∧
        after.state = builder (early ++ first :: second :: rest) := by
  obtain ⟨-, hbehind⟩ := List.forall_mem_append.1 hspelled
  obtain ⟨first, hfirst, hfit, h⟩ := exists_declaration hearly hfront hspelled h
  obtain ⟨second, hsecond, hfit, h⟩ := exists_declaration hfit hnext hbehind h
  obtain ⟨rest, hrest, hfit, rfl⟩ :=
    (declarations_behind hfit (List.forall_mem_append.1 hbehind).2).1 h
  rw [List.append_assoc, List.append_assoc] at hfit
  refine ⟨first, second, rest, hfirst, hsecond, hrest, hfit, ?_⟩
  simp only [List.append_assoc, List.cons_append, List.nil_append]

end Diagram

/-! ### Tokens at other places -/

/-- A text is cut into the same tokens wherever it starts. -/
theorem scan_alike (offset offset' : Nat) (text : List Char) :
    List.Forall₂ Token.Alike (scan offset text) (scan offset' text) := by
  have hstart : ∀ start, scan start text = (scan 0 text).map (·.shift start) := by
    intro start
    rw [← scan_shift, Nat.zero_add]
  rw [hstart offset, hstart offset', List.forall₂_map_left_iff, List.forall₂_map_right_iff,
    List.forall₂_same]
  exact fun token _ => ⟨rfl, fun _ => rfl⟩

/-- Tokens that are alike are read alike. -/
def Builder.alike : Mirror Builder.meaning where
  names := id
  like token other := token.Alike other ∧ token.Spelled ∧ other.Spelled
  move := Builder.rename id
  blame := Refusal.rename id
  renamed h := h.1.renamed
  spelled h := h.2
  act := Builder.act_rename Function.injective_id
  undo := Builder.rename_undo

/-- A source text compiles if its tokens are like some that write a diagram, wherever these stand. -/
theorem compile_of_alike {diagram : Diagram} {tokens : List Token} {source : String}
    (hfrom : diagram.ReadFrom tokens) (hfit : diagram.AllFit)
    (hspelled : ∀ token ∈ tokens, token.Spelled)
    (h : List.Forall₂ Token.Alike tokens (scan 0 source.toList)) :
    compile source = .ok diagram.graph := by
  have hread := (Diagram.declarations_behind Diagram.allFit_nil hspelled).2
    ⟨diagram, hfrom, hfit, rfl⟩
  have hvalid : ∀ token ∈ Lexer.tokens source, token.kind ≠ .invalid := by
    have hall : AllValid tokens := Row.allValid (fun _ _ h => h.allValid) hfrom.written
    have hscan : AllValid (scan 0 source.toList) := by
      intro image himage
      obtain ⟨⟨index, hindex'⟩, rfl⟩ := List.mem_iff_get.1 himage
      have hindex : index < tokens.length := h.length_eq ▸ hindex'
      rw [(h.get hindex hindex').kind_eq]
      exact hall _ (List.get_mem _ _)
    rw [tokens_eq]
    exact hscan.append (allValid_nil.cons rfl (by simp))
  have hshows : Builder.alike.Shows (Reading.mk tokens 0 Builder.empty)
      (Reading.mk (scan 0 source.toList) 0 Builder.empty) := by
    refine ⟨List.forall₂_iff_get.2 ⟨h.length_eq, fun index hindex hindex' => ?_⟩, rfl, rfl⟩
    exact ⟨h.get hindex hindex', hspelled _ (List.get_mem _ _),
      spelled_scan _ _ _ (List.get_mem _ ⟨index, hindex'⟩)⟩
  obtain ⟨hstops, hlast⟩ := Builder.alike.declarations (maxDepth + 1) hshows
  have hend : (Reading.mk tokens 0 Builder.empty).declarations Builder.meaning (maxDepth + 1) = _ :=
    hread
  rw [hend, List.forall₂_nil_left_iff] at hstops
  have hsource : (Compile.start (Lexer.tokens source)).declarations Builder.meaning (maxDepth + 1) =
      ([], ((Reading.mk (scan 0 source.toList) 0 Builder.empty).declarations Builder.meaning
        (maxDepth + 1)).2) := by
    rw [start_eq hvalid, dropLast_tokens]
    exact Prod.ext hstops rfl
  refine compile_ok_iff_declarations.2 ⟨hvalid, _, hsource, ?_⟩
  rw [hlast.state, hend]
  have hfinish := @Builder.finish_rename id _ _ diagram.finish_builder
  have hkept : ∀ name : String, id name = name := fun _ => rfl
  rwa [Graph.rename_of_kept hkept] at hfinish

/-! ### Source texts in exchanged order -/

/-- Four texts on lines of their own are cut into tokens one by one. -/
theorem scan_lines (before first second after : String) :
    ∃ start middle rest, scan 0 ("\n".intercalate [before, first, second, after]).toList =
      scan 0 before.toList ++ (scan start first.toList ++ (scan middle second.toList ++
        scan rest after.toList)) := by
  have hlines : "\n".intercalate [before, first, second, after] =
      before ++ "\n" ++ first ++ "\n" ++ second ++ "\n" ++ after := rfl
  rw [hlines, scan_more, scan_more, scan_more, List.append_assoc, List.append_assoc]
  exact ⟨_, _, _, rfl⟩

/-- What compiles in four parts, of which the middle ones are groups, is a diagram in four parts, of
which the middle ones are declarations. -/
theorem exists_parts_of_compile {before first second after : String} {early graph : Graph}
    (hearly : compile before = .ok early) (hfirst : IsGroup (Lexer.tokens first).dropLast)
    (hsecond : IsGroup (Lexer.tokens second).dropLast)
    (hgraph : compile ("\n".intercalate [before, first, second, after]) = .ok graph) :
    ∃ (front : Diagram) (one other : Declaration) (back : Diagram) (start middle rest : Nat),
      early = front.graph ∧ graph = Diagram.graph (front ++ one :: other :: back) ∧
        Diagram.AllFit (front ++ one :: other :: back) ∧
          front.ReadFrom (scan 0 before.toList) ∧
          Diagram.ReadFrom [one] (scan start first.toList) ∧
          Diagram.ReadFrom [other] (scan middle second.toList) ∧
          back.ReadFrom (scan rest after.toList) := by
  obtain ⟨start, middle, rest, hscan⟩ := scan_lines before first second after
  obtain ⟨front, hfit, rfl, hfront, -, htakes⟩ := exists_diagram_of_compile hearly
  obtain ⟨hvalid, after', hread, hfinish⟩ := compile_ok_iff_declarations.1 hgraph
  have hspelled : ∀ token ∈ scan start first.toList ++ (scan middle second.toList ++
      scan rest after.toList), token.Spelled := by
    simp only [List.forall_mem_append]
    exact ⟨spelled_scan _ _, spelled_scan _ _, spelled_scan _ _⟩
  rw [start_eq hvalid, dropLast_tokens, hscan] at hread
  have hbehind := (htakes _ hspelled).symm.trans hread
  obtain ⟨one, other, back, hone, hother, hback, hfit, hstate⟩ := Diagram.exists_pair hfit
    (isGroup_scan hfirst start) (isGroup_scan hsecond middle) hspelled hbehind
  rw [hstate, Diagram.finish_builder] at hfinish
  exact ⟨front, one, other, back, start, middle, rest, rfl, (Except.ok.inj hfinish).symm, hfit, hfront,
    hone, hother, hback⟩

/-- Independent declarations commute. If a source text compiles that has two complete groups on lines
of their own behind a text that compiles, and nothing in the second links to anything in the first,
then it compiles with the two in exchanged order too, to the same graph with the two blocks of ids
exchanged. -/
theorem compile_exchanged {before first second after : String} {early graph : Graph}
    (hearly : compile before = .ok early) (hfirst : IsGroup (Lexer.tokens first).dropLast)
    (hsecond : IsGroup (Lexer.tokens second).dropLast)
    (hgraph : compile ("\n".intercalate [before, first, second, after]) = .ok graph)
    (hindependent : ∀ node ∈ graph.nodes, graph.InBlock (early.declared.length + 1) node.id →
      ∀ link ∈ node.links, ¬graph.InBlock early.declared.length link) :
    compile ("\n".intercalate [before, second, first, after]) =
        .ok (graph.exchanged early.declared.length) ∧
      (graph.exchanged early.declared.length).nodes.Perm
        (graph.nodes.map (graph.exchangeNode early.declared.length)) := by
  obtain ⟨front, one, other, back, start, middle, rest, rfl, rfl, hfit, hfront, hone, hother, hback⟩ :=
    exists_parts_of_compile hearly hfirst hsecond hgraph
  have hlength : front.graph.declared.length = front.length := by
    rw [Diagram.declared_graph, Diagram.length_roots, Diagram.length_trees]
  rw [hlength] at hindependent ⊢
  have hfree := Diagram.not_mentioned_of_links hfit hindependent
  rw [Diagram.graph_exchanged hfit hfree]
  refine ⟨?_, Diagram.nodes_graph_exchanged hfit hfree⟩
  obtain ⟨start', middle', rest', hscan⟩ := scan_lines before second first after
  refine compile_of_alike (hfront.append (hother.append (hone.append hback)))
    (Diagram.allFit_exchanged hfit hfree) ?_ ?_
  · simp only [List.forall_mem_append]
    exact ⟨spelled_scan _ _, spelled_scan _ _, spelled_scan _ _, spelled_scan _ _⟩
  · rw [hscan]
    exact List.rel_append (scan_alike _ _ _) (List.rel_append (scan_alike _ _ _)
      (List.rel_append (scan_alike _ _ _) (scan_alike _ _ _)))

theorem compile_exchanged_entities :
    ∃ graph, compile ("\n".intercalate ["(entity a)", "(entity b (attr y))",
        "(entity c (attr z) (pk z))", "(assoc r (entity b card 1:n))"]) = .ok graph ∧
      compile ("\n".intercalate ["(entity a)", "(entity c (attr z) (pk z))",
        "(entity b (attr y))", "(assoc r (entity b card 1:n))"]) = .ok
        ⟨[⟨.start, 0, "start", [1, 2, 5, 7], none, none⟩, ⟨.entity, 1, "a", [], none, none⟩,
          ⟨.entity, 2, "c", [3, 4], none, none⟩, ⟨.attribute, 3, "z", [], none, none⟩,
          ⟨.primaryKey, 4, "4_pk", [3], none, none⟩, ⟨.entity, 5, "b", [6], none, none⟩,
          ⟨.attribute, 6, "y", [], none, none⟩, ⟨.association, 7, "r", [8], none, none⟩,
          ⟨.cardinality, 8, "8_card", [5], some ⟨.count 1, .many⟩, none⟩], by decide⟩ := by
  have hearly : compile "(entity a)" = .ok
      ⟨[⟨.start, 0, "start", [1], none, none⟩, ⟨.entity, 1, "a", [], none, none⟩], by decide⟩ := by
    decide +kernel
  have hgraph : compile ("\n".intercalate ["(entity a)", "(entity b (attr y))",
      "(entity c (attr z) (pk z))", "(assoc r (entity b card 1:n))"]) = .ok
        ⟨[⟨.start, 0, "start", [1, 2, 4, 7], none, none⟩, ⟨.entity, 1, "a", [], none, none⟩,
          ⟨.entity, 2, "b", [3], none, none⟩, ⟨.attribute, 3, "y", [], none, none⟩,
          ⟨.entity, 4, "c", [5, 6], none, none⟩, ⟨.attribute, 5, "z", [], none, none⟩,
          ⟨.primaryKey, 6, "6_pk", [5], none, none⟩, ⟨.association, 7, "r", [8], none, none⟩,
          ⟨.cardinality, 8, "8_card", [2], some ⟨.count 1, .many⟩, none⟩], by decide⟩ := by
    decide +kernel
  have hexchanged := compile_exchanged hearly (by decide +kernel) (by decide +kernel) hgraph
    (by decide +kernel)
  exact ⟨_, hgraph, hexchanged.1.trans (by decide +kernel)⟩

end ErDiagram
