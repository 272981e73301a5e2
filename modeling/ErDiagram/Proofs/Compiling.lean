import ErDiagram.Compile
import ErDiagram.Proofs.Building
import ErDiagram.Proofs.Declarations

/-!
A source text compiles exactly if it lexes and writes a valid diagram, and then the graph is that of
the diagram.
-/

namespace ErDiagram

theorem spelled_scan (offset : Nat) (text : List Char) :
    ∀ token ∈ scan offset text, token.Spelled :=
  fun _ htoken => (mem_scan htoken).1

namespace Compile

theorem mergeFindings_eq_nil {lexical faults : List Finding} :
    mergeFindings lexical faults = [] ↔ lexical = [] ∧ faults = [] := by
  cases faults with
  | nil => simp [mergeFindings]
  | cons fault faults => simp [mergeFindings]

theorem mapM_eq_nil {α β ε : Type} {f : α → Except ε β} {things : List α} :
    things.mapM f = .ok [] ↔ things = [] := by
  cases things with
  | nil => simp [pure, Except.pure]
  | cons first rest =>
      rw [List.mapM_cons]
      cases f first with
      | error error => simp [bind, Except.bind]
      | ok b =>
          cases rest.mapM f with
          | error error => simp [bind, Except.bind]
          | ok bs => simp [bind, Except.bind, pure, Except.pure]

theorem lexicalFindings_eq_nil {bytes : List UInt8} {tokens : List Token} :
    lexicalFindings bytes tokens = [] ↔ ∀ token ∈ tokens, token.kind ≠ .invalid := by
  rw [lexicalFindings, List.map_eq_nil_iff, List.filter_eq_nil_iff]
  simp

theorem significant_append (front back : List Token) :
    significant (front ++ back) = significant front ++ significant back :=
  List.filter_append _ _

theorem significant_tokens_eq (source : String) :
    significant (Lexer.tokens source) = significant (scan 0 source.toList) := by
  rw [tokens_eq, significant_append]
  exact List.append_nil _

theorem mem_of_mem_significant {token : Token} {tokens : List Token}
    (h : token ∈ significant tokens) : token ∈ tokens :=
  (List.mem_filter.1 h).1

/-- Without invalid characters, declarations are read from all tokens of a text. -/
theorem significant_scan {offset : Nat} {text : List Char}
    (h : ∀ token ∈ scan offset text, token.kind ≠ .invalid) :
    significant (scan offset text) = scan offset text := by
  refine List.filter_eq_self.2 fun token htoken => ?_
  simp [h token htoken, (mem_scan htoken).2.1]

theorem spelled_significant (offset : Nat) (text : List Char) :
    ∀ token ∈ significant (scan offset text), token.Spelled :=
  fun token htoken => spelled_scan offset text token (mem_of_mem_significant htoken)

end Compile

/-- The tokens of a source text before the end of input. -/
theorem dropLast_tokens (source : String) :
    (Lexer.tokens source).dropLast = scan 0 source.toList := by
  rw [tokens_eq, List.dropLast_concat]

theorem significant_tokens {source : String}
    (h : ∀ token ∈ Lexer.tokens source, token.kind ≠ .invalid) :
    Compile.significant (Lexer.tokens source) = (Lexer.tokens source).dropLast := by
  rw [tokens_eq] at h
  rw [Compile.significant_tokens_eq, dropLast_tokens]
  exact Compile.significant_scan (List.forall_mem_append.1 h).1

theorem start_eq {source : String} (h : ∀ token ∈ Lexer.tokens source, token.kind ≠ .invalid) :
    Compile.start (Lexer.tokens source) =
      ⟨(Lexer.tokens source).dropLast, 0, Builder.empty⟩ := by
  rw [Compile.start, significant_tokens h]

/-- The compiler has nothing to report exactly if every character starts a token and no declaration
stops; then the graph is what the builder hands over. -/
theorem compile_ok_iff_declarations {source : String} {graph : Graph} :
    compile source = .ok graph ↔
      (∀ token ∈ Lexer.tokens source, token.kind ≠ .invalid) ∧
        ∃ after, (Compile.start (Lexer.tokens source)).declarations Builder.meaning (maxDepth + 1) =
          ([], after) ∧ after.state.finish = .ok graph := by
  unfold compile compileWithin
  dsimp only
  generalize (Compile.start (Lexer.tokens source)).declarations Builder.meaning (maxDepth + 1) =
    result
  obtain ⟨stops, after⟩ := result
  simp only [Prod.mk.injEq]
  constructor
  · intro h
    split at h
    · cases h
    · rename_i faults hfaults
      split at h
      · rename_i hmerge
        obtain ⟨hlexical, rfl⟩ := Compile.mergeFindings_eq_nil.1 hmerge
        split at h
        · rename_i finished hfinish
          cases h
          exact ⟨Compile.lexicalFindings_eq_nil.1 hlexical, after,
            ⟨Compile.mapM_eq_nil.1 hfaults, rfl⟩, hfinish⟩
        · cases h
      · cases h
  · rintro ⟨hlexical, _, ⟨rfl, rfl⟩, hfinish⟩
    rw [Compile.mapM_eq_nil.2 rfl, Compile.lexicalFindings_eq_nil.2 hlexical]
    simp only [Compile.mergeFindings, hfinish]

/-- If every character starts a token, then no declaration stops exactly if the tokens write a valid
diagram, and then the builder is that of the diagram. -/
theorem declarations_eq_nil_iff {source : String}
    (hlexical : ∀ token ∈ Lexer.tokens source, token.kind ≠ .invalid) {after : Reading Builder} :
    (Compile.start (Lexer.tokens source)).declarations Builder.meaning (maxDepth + 1) = ([], after) ↔
      ∃ diagram : Diagram, diagram.WrittenAs (Lexer.tokens source).dropLast ∧
        NestsWithin maxDepth (Lexer.tokens source).dropLast ∧ diagram.Valid ∧
          after = ⟨[], openedBy (Lexer.tokens source).dropLast, diagram.builder⟩ := by
  have hspelled : ∀ token ∈ (Lexer.tokens source).dropLast, token.Spelled := by
    rw [dropLast_tokens]
    exact spelled_scan _ _
  rw [start_eq hlexical, declarations_ok (Nat.le_refl _) rfl hspelled]
  constructor
  · rintro ⟨diagram, hwritten, hunread, hdepth, hshallow, hacts⟩
    obtain ⟨hfit, hbuilder⟩ := (Diagram.acts_diagram diagram).1 hacts
    refine ⟨diagram, hwritten, nestsWithin_iff.2 hshallow, Diagram.allFit_iff.1 hfit, ?_⟩
    obtain ⟨unread, depth, state⟩ := after
    dsimp only at hunread hdepth hbuilder
    rw [List.self_eq_append_right.1 hunread, hdepth, hbuilder, Int.zero_add]
  · rintro ⟨diagram, hwritten, hnests, hvalid, rfl⟩
    refine ⟨diagram, hwritten, (List.append_nil _).symm, (Int.zero_add _).symm,
      nestsWithin_iff.1 hnests, ?_⟩
    exact (Diagram.acts_diagram diagram).2 ⟨Diagram.allFit_iff.2 hvalid, rfl⟩

/-- A source text compiles to a graph exactly if it lexes and writes a valid diagram that has this
graph. -/
theorem compile_ok_iff {source : String} {graph : Graph} :
    compile source = .ok graph ↔
      (∀ token ∈ Lexer.tokens source, token.kind ≠ .invalid) ∧
        ∃ diagram : Diagram, diagram.WrittenAs (Lexer.tokens source).dropLast ∧
          NestsWithin maxDepth (Lexer.tokens source).dropLast ∧ diagram.Valid ∧
            graph = diagram.graph := by
  rw [compile_ok_iff_declarations, and_congr_right_iff]
  intro hlexical
  simp only [declarations_eq_nil_iff hlexical]
  constructor
  · rintro ⟨_, ⟨diagram, hwritten, hnests, hvalid, rfl⟩, hfinish⟩
    rw [Diagram.finish_builder] at hfinish
    cases hfinish
    exact ⟨diagram, hwritten, hnests, hvalid, rfl⟩
  · rintro ⟨diagram, hwritten, hnests, hvalid, rfl⟩
    exact ⟨_, ⟨diagram, hwritten, hnests, hvalid, rfl⟩, Diagram.finish_builder diagram⟩

end ErDiagram
