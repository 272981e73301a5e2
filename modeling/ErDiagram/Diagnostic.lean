import ErDiagram.Position

/-!
Diagnostics: what a rejected source text is told, each with the place it points at. A compilation
that fails gives its diagnostics in the order in which they were found.
-/

namespace ErDiagram

namespace Diagnostic

inductive Category where
  /-- A character that starts no token. -/
  | lexical
  /-- A name bound already, or a second primary key. -/
  | duplicateDefinition
  /-- A name that nothing in reach has. -/
  | unresolvedReference
  /-- A token that the grammar does not allow. -/
  | malformed
  deriving DecidableEq

def Category.text : Category → String
  | .lexical => "Lexical"
  | .duplicateDefinition => "DuplicateDefinition"
  | .unresolvedReference => "UnresolvedReference"
  | .malformed => "Syntax"

/-- What a diagnostic stands next to. -/
inductive Near where
  | token (text : String)
  | endOfFile
  | nothing
  deriving DecidableEq

/-- How that is put between the words "parse error" and the message. -/
def Near.phrase : Near → String
  | .token text => " at '" ++ text ++ "'"
  | .endOfFile => " on end of file"
  | .nothing => ""

end Diagnostic

/-- A complaint about a source text and the byte offset it points at, with the place of that
offset. -/
structure Diagnostic where
  category : Diagnostic.Category
  offset : Nat
  place : Position
  near : Diagnostic.Near
  message : String
  deriving DecidableEq

def Diagnostic.display (diagnostic : Diagnostic) : String :=
  diagnostic.place.line.toNat.repr ++ ":" ++ diagnostic.place.column.toNat.repr ++
    ": parse error" ++ diagnostic.near.phrase ++ ": " ++ diagnostic.message

/-- Why a compilation gives no graph. -/
inductive CompileError where
  | rejected (diagnostics : List Diagnostic)
  /-- The compiler itself is at fault. -/
  | internal (cause : String)
  deriving DecidableEq

namespace CompileError

def message : CompileError → String
  | .rejected diagnostics => "compilation failed with " ++ diagnostics.length.repr ++ " error(s)"
  | .internal cause => "internal invariant violated: " ++ cause

def diagnostics : CompileError → List Diagnostic
  | .rejected diagnostics => diagnostics
  | .internal _ => []

end CompileError
end ErDiagram
