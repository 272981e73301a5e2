import ErDiagram.Proofs.Pointing
import ErDiagram.Proofs.Prefixes
import ErDiagram.Proofs.Resynchronizing

/-!
Syntax errors are told at the first token that spoils a declaration. The tokens before it begin a
declaration and those through it begin none, however deep in the declaration that is. At the end of
input, the tokens of the chunk begin a declaration and do not complete it.
-/

namespace ErDiagram

/-- A diagnostic stands at a token, or at the end of a source text. -/
def Diagnostic.StandsAt (diagnostic : Diagnostic) (source : String) : Option Token → Prop
  | some token => diagnostic.offset = token.offset ∧ diagnostic.near = .token token.text
  | none => diagnostic.offset = byteLength source ∧ diagnostic.near = .endOfFile

/-- A parenthesis in place of a disjointness, and a primary key that the input ends in. -/
example : (diagnosticsOf "(gerarchy g total (parent p)) (entity a (pk").map
    (fun told => (told.offset, told.message)) =
      [(18, "expected 'exclusive' or 'overlapped' for gerarchy type"), (43, "expected ')'")] := by
  decide +kernel

end ErDiagram
