import ErDiagram.Proofs.Balance
import ErDiagram.Proofs.Stops
import ErDiagram.Proofs.WellFormed

/-!
Adding declarations to a source text that compiles. What is read behind it starts where it ends,
with the builder of its diagram, so either all that was compiled stays as it is and more comes
behind it, or every complaint is about what was added.
-/

namespace ErDiagram

/-- A graph is kept in a larger one: all nodes but the start node stay as they are, the start node
has gained links at the end, and what is new has ids that the graph does not reach. -/
structure Graph.Grows (graph larger : Graph) : Prop where
  kept : ∀ id node, id ≠ Node.startId → graph.get? id = some node → larger.get? id = some node
  start : ∃ start added, graph.root? = some start ∧
    larger.root? = some { start with links := start.links ++ added }
  fresh : ∀ id ∈ larger.ids, id ∉ graph.ids → graph.size ≤ id

/-! ### Declarations behind others -/

theorem Row.append {α : Type} {writes : α → List Token → Prop} {things more : List α}
    {tokens behind : List Token} (h : Row writes things tokens) (hmore : Row writes more behind) :
    Row writes (things ++ more) (tokens ++ behind) := by
  induction h with
  | nil => exact hmore
  | cons hfirst _ ih =>
      rw [List.append_assoc]
      exact .cons hfirst ih

namespace Diagram

/-- Some tokens write a diagram and nest no deeper than allowed. -/
structure ReadFrom (diagram : Diagram) (tokens : List Token) : Prop where
  written : diagram.WrittenAs tokens
  shallow : Shallow 0 tokens

theorem ReadFrom.append {front back : Diagram} {tokens behind : List Token}
    (hfront : front.ReadFrom tokens) (hback : back.ReadFrom behind) :
    ReadFrom (front ++ back) (tokens ++ behind) where
  written := Row.append hfront.written hback.written
  shallow := by
    refine shallow_append.2 ⟨hfront.shallow, ?_⟩
    rw [Row.openedBy Declaration.grouped hfront.written, Int.add_zero]
    exact hback.shallow

variable {early : Diagram} (hearly : early.AllFit)
include hearly

theorem acts_behind (diagram : Diagram) {after : Builder} :
    Builder.meaning.acts (diagram.flatMap Declaration.actions) early.builder = .ok after ↔
      AllFit (early ++ diagram) ∧ after = Diagram.builder (early ++ diagram) := by
  have hacts := (acts_diagram early).2 ⟨hearly, rfl⟩
  rw [← acts_diagram, List.flatMap_append, Interpretation.acts_append, hacts]
  simp only [Except.ok.injEq, exists_eq_left']

/-- Behind declarations that fit, no declaration stops exactly if the tokens write declarations that
fit there, and then the builder is that of all of them. -/
theorem declarations_behind {tokens : List Token} (hspelled : ∀ token ∈ tokens, token.Spelled)
    {after : Reading Builder} :
    (Reading.mk tokens 0 early.builder).declarations Builder.meaning (maxDepth + 1) =
        ([], after) ↔
      ∃ diagram : Diagram, diagram.ReadFrom tokens ∧ AllFit (early ++ diagram) ∧
        after = ⟨[], 0, Diagram.builder (early ++ diagram)⟩ := by
  rw [declarations_ok (Nat.le_refl _) rfl hspelled]
  constructor
  · rintro ⟨diagram, hwritten, hunread, hdepth, hshallow, hacts⟩
    obtain ⟨hfit, hbuilder⟩ := (acts_behind hearly diagram).1 hacts
    refine ⟨diagram, ⟨hwritten, hshallow⟩, hfit, ?_⟩
    obtain ⟨unread, depth, state⟩ := after
    dsimp only at hunread hdepth hbuilder
    rw [List.self_eq_append_right.1 hunread, hdepth, hbuilder,
      Row.openedBy Declaration.grouped hwritten, Int.zero_add]
  · rintro ⟨diagram, ⟨hwritten, hshallow⟩, hfit, rfl⟩
    refine ⟨diagram, hwritten, (List.append_nil _).symm, ?_, hshallow,
      (acts_behind hearly diagram).2 ⟨hfit, rfl⟩⟩
    rw [Row.openedBy Declaration.grouped hwritten, Int.zero_add]

/-- Declarations that fit behind others are read without regard to what follows. -/
theorem takes_written {diagram : Diagram} (hfit : AllFit (early ++ diagram)) {tokens : List Token}
    (hspelled : ∀ token ∈ tokens, token.Spelled) (hfrom : diagram.ReadFrom tokens) :
    Reading.Takes Builder.meaning (maxDepth + 1) tokens early.builder []
      (Diagram.builder (early ++ diagram)) := by
  obtain ⟨stops, later, -, -, htakes⟩ := takes_pieces hfrom.written.balanced.pieces hspelled hearly
  have hread := (declarations_behind hearly hspelled).2 ⟨diagram, hfrom, hfit, rfl⟩
  have hend := htakes [] (fun _ htoken => nomatch htoken)
  rw [List.append_nil, hread] at hend
  obtain ⟨hstops, hlater⟩ := Prod.mk.inj hend
  obtain rfl : stops = [] := (List.append_eq_nil_iff.1 hstops.symm).1
  have hbuilder : Diagram.builder (early ++ diagram) = later.builder :=
    congrArg Reading.state hlater
  rwa [hbuilder]

end Diagram

/-! ### The graph of more declarations -/

namespace Diagram

/-- Declarations behind others leave the graph of the others as it is. -/
theorem graph_grows (front back : Diagram) : front.graph.Grows (graph (front ++ back)) := by
  obtain ⟨more, hmore⟩ := exists_trees_append front back
  refine ⟨fun id node hid hnode => ?_, ?_, fun id hid hnew => ?_⟩
  · obtain ⟨hmem, hnode⟩ := Graph.get?_iff.1 hnode
    refine Graph.get?_iff.2 ⟨?_, hnode⟩
    rcases List.mem_cons.1 hmem with rfl | hmem
    · exact absurd hnode.symm hid
    · refine List.mem_cons_of_mem _ ?_
      rw [hmore, Tree.allNodes_append]
      exact List.mem_append_left _ hmem
  · refine ⟨_, Tree.roots (Node.startId + 1 + Tree.sizes front.trees) more,
      front.root_graph, ?_⟩
    rw [root_graph]
    simp only [tree, Tree.rootNode, List.append_nil, hmore, Tree.roots_append]
  · rw [ids_graph, List.mem_range] at hnew
    exact Nat.le_of_not_lt hnew

end Diagram

/-! ### Source texts -/

theorem toList_append_newline (source more : String) :
    (source ++ "\n" ++ more).toList = source.toList ++ '\n' :: more.toList := by
  have hnewline : "\n".toList = ['\n'] := by decide
  simp only [String.toList_append, hnewline, List.append_assoc, List.cons_append, List.nil_append]

/-- What is added starts on a new line, so the tokens before it stay as they are. -/
theorem scan_more (source more : String) :
    scan 0 (source ++ "\n" ++ more).toList =
      scan 0 source.toList ++ scan (byteLength source + 1) more.toList := by
  rw [toList_append_newline, scan_append_newline, Nat.zero_add]
  rfl

section

variable {source : String} {graph : Graph} (h : compile source = .ok graph)
include h

/-- A source text that compiles writes a diagram that fits, and its declarations are read without
regard to what follows. -/
theorem exists_diagram_of_compile :
    ∃ diagram : Diagram, diagram.AllFit ∧ graph = diagram.graph ∧
      diagram.ReadFrom (scan 0 source.toList) ∧
      (∀ token ∈ scan 0 source.toList, token.kind ≠ .invalid) ∧
      Reading.Takes Builder.meaning (maxDepth + 1) (scan 0 source.toList) (Diagram.builder []) []
        diagram.builder := by
  obtain ⟨hlexical, diagram, hwritten, hnests, hvalid, rfl⟩ := compile_ok_iff.1 h
  rw [dropLast_tokens] at hwritten hnests
  have hfit := Diagram.allFit_iff.2 hvalid
  have hfrom : diagram.ReadFrom (scan 0 source.toList) := ⟨hwritten, nestsWithin_iff.1 hnests⟩
  refine ⟨diagram, hfit, rfl, hfrom, valid_scan hlexical 0, ?_⟩
  exact Diagram.takes_written Diagram.allFit_nil hfit (spelled_scan _ _) hfrom

/-- What is added is read from the builder of what compiled. -/
theorem exists_declarationsOf_more (more : String) :
    ∃ diagram : Diagram, diagram.AllFit ∧ graph = diagram.graph ∧
      declarationsOf (source ++ "\n" ++ more) =
        (Reading.mk (Compile.significant (scan (byteLength source + 1) more.toList)) 0
          diagram.builder).declarations Builder.meaning (maxDepth + 1) := by
  obtain ⟨diagram, hfit, hgraph, -, hvalid, htakes⟩ := exists_diagram_of_compile h
  refine ⟨diagram, hfit, hgraph, ?_⟩
  rw [declarationsOf_eq, scan_more, Compile.significant_append, Compile.significant_scan hvalid,
    htakes _ (Compile.spelled_significant _ _)]
  rfl

/-- If more compiles, then more is all that has changed. -/
theorem grows_of_compile_more {more : String} {larger : Graph}
    (hmore : compile (source ++ "\n" ++ more) = .ok larger) : graph.Grows larger := by
  obtain ⟨front, hfit, rfl, hread⟩ := exists_declarationsOf_more h more
  obtain ⟨-, after, hdeclarations, hfinish⟩ := compile_ok_iff_declarations.1 hmore
  have hread := hread.symm.trans hdeclarations
  obtain ⟨back, -, -, rfl⟩ := (Diagram.declarations_behind hfit
    (Compile.spelled_significant _ _)).1 hread
  rw [Diagram.finish_builder] at hfinish
  cases hfinish
  exact Diagram.graph_grows front back

/-- No complaint is about what compiles alone. -/
theorem lt_offset_of_mem_diagnosticsOf {more : String} {diagnostic : Diagnostic}
    (hmem : diagnostic ∈ diagnosticsOf (source ++ "\n" ++ more)) :
    byteLength source < diagnostic.offset := by
  obtain ⟨front, hfit, -, hread⟩ := exists_declarationsOf_more h more
  obtain ⟨-, -, -, -, hvalid, -⟩ := exists_diagram_of_compile h
  obtain ⟨finding, hreports, hdiagnostics⟩ := exists_findings (source ++ "\n" ++ more)
  rw [hdiagnostics] at hmem
  obtain ⟨found, hfound, rfl⟩ := List.mem_map.1 hmem
  rcases Compile.mem_mergeFindings hfound with hlexical | hfault
  · -- Every invalid token is one of those that are added.
    rw [Compile.lexicalFindings_tokens_eq, scan_more, Compile.lexicalFindings_append,
      Compile.lexicalFindings_eq_nil.2 hvalid, List.nil_append] at hlexical
    obtain ⟨token, htoken, rfl⟩ := List.mem_map.1 hlexical
    exact (mem_scan (List.mem_filter.1 htoken).1).2.2.1
  · obtain ⟨stop, hstop, rfl⟩ := List.mem_map.1 hfault
    rw [(hreports stop hstop).offset_eq]
    rw [hread] at hstop
    have hwithin := Reading.within_of_mem_declarations Builder.meaning
      (Compile.spelled_significant _ _) (maxDepth + 1) (fun _ htoken => htoken) stop hstop
    refine Compile.offsetOf_of (P := (byteLength source < ·)) (fun token htoken => ?_) ?_
    · exact (mem_scan (Compile.mem_of_mem_significant (hwithin.blames token htoken))).2.2.1
    · rw [toList_append_newline, utf8Bytes_append, List.length_append]
      exact Nat.lt_add_of_pos_right (Nat.succ_pos _)

/-- Adding declarations to a source text that compiles never disturbs what is compiled already.
Either all compiles and the graph has grown, or every complaint points behind the source text. -/
theorem compile_more (more : String) :
    (∃ larger, compile (source ++ "\n" ++ more) = .ok larger ∧ graph.Grows larger) ∨
      ∃ diagnostics, compile (source ++ "\n" ++ more) = .error (.rejected diagnostics) ∧
        ∀ diagnostic ∈ diagnostics, byteLength source < diagnostic.offset := by
  rcases compile_cases (source ++ "\n" ++ more) with ⟨larger, hok⟩ | ⟨-, hrejected⟩
  · exact Or.inl ⟨larger, hok, grows_of_compile_more h hok⟩
  · exact Or.inr ⟨_, hrejected, fun diagnostic hmem => lt_offset_of_mem_diagnosticsOf h hmem⟩

end

theorem compile_more_branch :
    ∃ graph, compile "(entity a)" = .ok graph ∧
      (∃ larger, compile ("(entity a)" ++ "\n" ++ "(assoc r (entity a card 1:n))") = .ok larger ∧
        graph.Grows larger) ∧
      ∃ diagnostics, compile ("(entity a)" ++ "\n" ++ "(entity a") = .error (.rejected diagnostics) ∧
        ∀ diagnostic ∈ diagnostics, byteLength "(entity a)" < diagnostic.offset := by
  have h : compile "(entity a)" = .ok
      ⟨[⟨.start, 0, "start", [1], none, none⟩, ⟨.entity, 1, "a", [], none, none⟩], by decide⟩ := by
    decide +kernel
  have hmore : compile ("(entity a)" ++ "\n" ++ "(assoc r (entity a card 1:n))") = .ok
      ⟨[⟨.start, 0, "start", [1, 2], none, none⟩, ⟨.entity, 1, "a", [], none, none⟩,
        ⟨.association, 2, "r", [3], none, none⟩,
        ⟨.cardinality, 3, "3_card", [1], some ⟨.count 1, .many⟩, none⟩], by decide⟩ := by
    decide +kernel
  have hnomore : compile ("(entity a)" ++ "\n" ++ "(entity a") = .error (.rejected
      [⟨.duplicateDefinition, 19, ⟨2, 9⟩, .token "a", "duplicate definition of Entity 'a'"⟩]) := by
    decide +kernel
  refine ⟨_, h, (compile_more h _).resolve_right ?_, (compile_more h _).resolve_left ?_⟩
  · rintro ⟨diagnostics, hrejected, -⟩
    rw [hmore] at hrejected
    cases hrejected
  · rintro ⟨larger, hok, -⟩
    rw [hnomore] at hok
    cases hok

end ErDiagram
