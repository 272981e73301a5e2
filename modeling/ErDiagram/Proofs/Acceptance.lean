import ErDiagram.Proofs.Compiling

/-!
Which source texts compile.
-/

namespace ErDiagram

/-- A source text compiles exactly if

* every character belongs to trivia or to a token,
* its tokens write a diagram and nest no more parentheses than allowed,
* no two named constructs with the same parent have the same kind and the same name,
* each entity has one primary key at most, of attributes declared in it before the key,
* each entity and each association that is mentioned is declared before, and
* each attribute that a foreign key refers to is declared directly in the entity it is said to be
  of. -/
theorem compiles_iff (source : String) :
    (∃ graph, compile source = .ok graph) ↔
      (∀ token ∈ Lexer.tokens source, token.kind ≠ .invalid) ∧
        ∃ diagram : Diagram, diagram.WrittenAs (Lexer.tokens source).dropLast ∧
          NestsWithin maxDepth (Lexer.tokens source).dropLast ∧
            diagram.NamesDistinct ∧ diagram.KeysOwned ∧ diagram.MentionsDeclared ∧
              diagram.AttributesDeclared := by
  constructor
  · rintro ⟨graph, h⟩
    obtain ⟨hlexical, diagram, hwritten, hnests, hvalid, -⟩ := compile_ok_iff.1 h
    exact ⟨hlexical, diagram, hwritten, hnests, hvalid.names, hvalid.keys, hvalid.mentions,
      hvalid.attributes⟩
  · rintro ⟨hlexical, diagram, hwritten, hnests, hnames, hkeys, hmentions, hattributes⟩
    exact ⟨diagram.graph, compile_ok_iff.2 ⟨hlexical, diagram, hwritten, hnests,
      ⟨hnames, hkeys, hmentions, hattributes⟩, rfl⟩⟩

end ErDiagram
