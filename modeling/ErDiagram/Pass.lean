import ErDiagram.Builder.Stacks
import ErDiagram.Lexer
import ErDiagram.Meaning

/-!
One pass over a source text. A pass asks the lexer for tokens one at a time and looks one token ahead.
Whenever it goes on to a token, the invalid tokens before it are told and passed over, so what is told
stands in the order in which it was found, and nothing has to be put in order afterwards.

A pass counts parentheses in a 32-bit word and builds on two stacks. What it comes to is what compiling
comes to, on all source texts that a 32-bit word can count.
-/

namespace ErDiagram

/-- A complaint about a token of a source text. -/
def complaint (source : String) (token : Token) (category : Diagnostic.Category)
    (message : String) : Diagnostic where
  category
  offset := token.offset
  place := Position.ofOffset source token.offset
  near :=
    match token.kind with
    | .endOfInput => .endOfFile
    | .invalid => .nothing
    | _ => .token token.text
  message

def invalidComplaint (source : String) (token : Token) : Diagnostic :=
  complaint source token .lexical (Token.invalidMessage ++ " '" ++ token.text ++ "'")

/-- The first valid token in front of a lexer, the lexer behind it, and what has been told by then. -/
def Lexer.nextValid (lexer : Lexer) (told : List Diagnostic) : Token × Lexer × List Diagnostic :=
  if lexer.nextToken.1.kind = .invalid then
    lexer.nextToken.2.nextValid (told ++ [invalidComplaint lexer.source lexer.nextToken.1])
  else (lexer.nextToken.1, lexer.nextToken.2, told)
termination_by lexer.unread.length
decreasing_by exact length_unread_nextToken_lt (by simp [*])

/-- The lexer behind the token that comes next, that token, the number of parentheses opened less those
closed, the stacks of what is built, and what has been told. -/
structure Pass where
  lexer : Lexer
  next : Token
  depth : Int32
  built : Builder.Stacks
  told : List Diagnostic

inductive Pass.Fault where
  | complaint (diagnostic : Diagnostic)
  | internal (cause : String)

abbrev Pass.Step := EStateM Pass.Fault Pass

namespace Pass

/-- The pass behind the token that comes next. -/
def advance (pass : Pass) : Pass :=
  let (next, lexer, told) := pass.lexer.nextValid pass.told
  { pass with
    lexer, next, told
    depth :=
      match pass.next.kind with
      | .leftParen => pass.depth + 1
      | .rightParen => pass.depth - 1
      | _ => pass.depth }

/-- A pass that has looked at the first token of a source text. The token before it stands for
nothing. -/
def start (source : String) : Pass :=
  advance ⟨Lexer.ofSource source, ⟨.endOfInput, "", 0⟩, 0, Builder.Stacks.fresh, []⟩

/-- No more tokens than this come next: each takes a character at least, but for the one that has been
looked at. -/
def bound (pass : Pass) : Nat :=
  pass.lexer.unread.length + 1

def atBodyEnd (pass : Pass) : Bool :=
  pass.next.kind = .rightParen || pass.next.kind = .endOfInput

/-- Drops tokens until no parenthesis is open, and one at least, if there is one. -/
def leaveGroupWithin : Nat → Pass → Pass
  | 0, pass => pass
  | bound + 1, pass =>
    if pass.next.kind = .endOfInput then pass
    else if pass.advance.depth ≤ 0 then pass.advance
    else leaveGroupWithin bound pass.advance

def leaveGroup (pass : Pass) : Pass :=
  { leaveGroupWithin pass.bound pass with depth := 0 }

namespace Step

variable {α : Type}

def blame (token : Token) (category : Diagnostic.Category) (message : String) : Step α :=
  fun pass => .error (.complaint (complaint pass.lexer.source token category message)) pass

def malformed (token : Token) (error : SyntaxError) : Step α :=
  blame token .malformed error.message

def ask (question : Pass → α) : Step α :=
  fun pass => .ok (question pass) pass

/-- Reads a token of a kind, or stops at the token that stands there instead. -/
def expect (kind : Token.Kind) (error : SyntaxError) : Step Token :=
  fun pass =>
    if pass.next.kind = kind then .ok pass.next pass.advance else malformed pass.next error pass

def expectKind (kind : Token.Kind) : Step Token :=
  expect kind (.expectedToken kind)

def expectName (kind : Node.Kind) : Step Token :=
  expect .identifier (.expectedName kind)

def accept (kind : Token.Kind) : Step Bool :=
  fun pass => if pass.next.kind = kind then .ok true pass.advance else .ok false pass

def decode (value? : String → Option α) (error : SyntaxError) : Step α :=
  fun pass =>
    match value? pass.next.text with
    | some value => .ok value pass.advance
    | none => malformed pass.next error pass

def decoded (token : Token) : Except InvalidCardinality α → Step α
  | .ok value => pure value
  | .error error => malformed token (.invalidCardinality error)

/-- What a failure of the stacks is, at a token. -/
def faultOf (source : String) (token : Token) : Builder.Stacks.Failure → Fault
  | .refused error =>
    match (Refusal.scope error).category? with
    | some category => .complaint (complaint source token category error.message)
    | none => .internal error.message
  | failure => .internal failure.message

/-- Works on the stacks, and stops at a token if that fails. -/
def build (action : Builder.Stacks.Action α) (token : Token) : Step α :=
  fun pass =>
    match action pass.built with
    | .ok value built => .ok value { pass with built }
    | .error failure built => .error (faultOf pass.lexer.source token failure) { pass with built }

def edit (change : Node → Node) : Step Unit :=
  fun pass =>
    match Builder.Stacks.edit change pass.built with
    | .ok _ built => .ok () { pass with built }
    | .error failure built => .error (.internal failure.message) { pass with built }

end Step
end Pass
end ErDiagram
