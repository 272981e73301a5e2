import ErDiagram.Declaration
import ErDiagram.Lexer
import ErDiagram.Meaning

/-!
Compiling a source text into the graph of its declarations. Characters that start no token are
reported and passed over; a declaration that fails is reported and has no other effect. The graph
is given only if there is nothing to report.

Diagnostics come in the order in which one pass over the source finds them, as `Pass` makes it. The
pass looks one token ahead, so an invalid character is found before a fault if it stands before the
token that comes next at the fault.
-/

namespace ErDiagram

/-- A diagnostic and the offset up to which the source had been looked at when it was found. -/
structure Finding where
  reached : Nat
  diagnostic : Diagnostic
  deriving DecidableEq

namespace Compile

/-- The offset of a token, or of the end of the source with these bytes. -/
def offsetOf (bytes : List UInt8) : Option Token → Nat
  | some token => token.offset
  | none => bytes.length

/-- A complaint about a token, or about the end of the source. -/
def diagnosticAt (bytes : List UInt8) (token : Option Token) (category : Diagnostic.Category)
    (message : String) : Diagnostic where
  category
  offset := offsetOf bytes token
  place := Position.inBytes bytes (offsetOf bytes token)
  near :=
    match token with
    | some token => .token token.text
    | none => .endOfFile
  message

/-- The complaint about an invalid token, which names its character. -/
def lexicalFinding (bytes : List UInt8) (token : Token) : Finding where
  reached := token.offset
  diagnostic :=
    { category := .lexical
      offset := token.offset
      place := Position.inBytes bytes token.offset
      near := .nothing
      message := Token.invalidMessage ++ " '" ++ token.text ++ "'" }

/-- The complaint about a fault, or what the compiler is at fault for. -/
def diagnosticOf (bytes : List UInt8) (fault : Fault Refusal) : Except String Diagnostic :=
  match fault.cause with
  | .malformed error => .ok (diagnosticAt bytes fault.token .malformed error.message)
  | .refused error =>
    match error.category? with
    | some category => .ok (diagnosticAt bytes fault.token category error.message)
    | none => .error error.message
  | .exhausted => .error "nesting budget exhausted"

/-- The finding that a stop gives. -/
def faultFinding (bytes : List UInt8) (stop : Stop Refusal) : Except String Finding := do
  let diagnostic ← diagnosticOf bytes stop.fault
  pure ⟨offsetOf bytes stop.next, diagnostic⟩

/-- The tokens that declarations are read from. -/
def significant (tokens : List Token) : List Token :=
  tokens.filter fun token => token.kind ≠ .invalid && token.kind ≠ .endOfInput

def lexicalFindings (bytes : List UInt8) (tokens : List Token) : List Finding :=
  (tokens.filter (·.kind = .invalid)).map (lexicalFinding bytes)

/-- A reading at the first of some tokens. -/
def start (tokens : List Token) : Reading Builder :=
  ⟨significant tokens, 0, Builder.empty⟩

/-- All findings in the order in which they were made: before each fault come the invalid tokens
that had been looked at by then. -/
def mergeFindings (lexical : List Finding) : List Finding → List Finding
  | [] => lexical
  | fault :: faults =>
    lexical.takeWhile (·.reached < fault.reached) ++
      fault :: mergeFindings (lexical.dropWhile (·.reached < fault.reached)) faults

end Compile

/-- Compiles a source text with a budget for nested fields. -/
def compileWithin (budget : Nat) (source : String) : Except CompileError Graph :=
  let bytes := utf8Bytes source.toList
  let tokens := Lexer.tokens source
  let (stops, reading) := (Compile.start tokens).declarations Builder.meaning budget
  match stops.mapM (Compile.faultFinding bytes) with
  | .error cause => .error (.internal cause)
  | .ok faults =>
    match Compile.mergeFindings (Compile.lexicalFindings bytes tokens) faults with
    | [] =>
      match reading.state.finish with
      | .ok graph => .ok graph
      | .error error => .error (.internal error.message)
    | findings => .error (.rejected (findings.map (·.diagnostic)))

/-- Compiles a source text into the graph of its declarations. No more fields are ever nested than
parentheses may be, but for the one that is refused. -/
def compile (source : String) : Except CompileError Graph :=
  compileWithin (maxDepth + 1) source

end ErDiagram
