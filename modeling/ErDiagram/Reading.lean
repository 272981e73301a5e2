import ErDiagram.Cardinality
import ErDiagram.HierarchyType
import ErDiagram.Node
import ErDiagram.Token

/-!
Reading declarations from tokens. A reading is a place in a list of tokens, the number of
parentheses open there, and the state of whatever is told about the declarations read. A reader
takes a reading further or stops with a fault; a fault does not undo what was read before it.

Nothing here says what declarations mean. A reader reports them as actions, one by one as it reads
them, and an interpretation decides what an action does to the state and whether it is refused.
-/

namespace ErDiagram

/-- What the grammar does not allow. -/
inductive SyntaxError where
  | expectedToken (kind : Token.Kind)
  | expectedName (kind : Node.Kind)
  | expectedDeclaration
  | unknownField (owner : Node.Kind)
  | expectedCoverage
  | expectedDisjointness
  | invalidCardinality (error : InvalidCardinality)
  | nestedTooDeeply
  deriving DecidableEq

def SyntaxError.message : SyntaxError → String
  | .expectedToken kind => "expected " ++ kind.describe
  | .expectedName kind => "expected " ++ kind.label ++ " name"
  | .expectedDeclaration => "expected 'entity', 'assoc', 'gerarchy' or 'fk'"
  | .unknownField owner => "unrecognized field in " ++ owner.label
  | .expectedCoverage => "expected 'subset', 'total' or 'partial' for gerarchy type"
  | .expectedDisjointness => "expected 'exclusive' or 'overlapped' for gerarchy type"
  | .invalidCardinality error => error.message
  | .nestedTooDeeply => "declaration nested too deeply"

/-- What a reader reports about the declarations that it reads. -/
inductive Action where
  /-- A construct of a kind begins, under a new name. -/
  | declare (kind : Node.Kind) (name : String)
  /-- The construct that began last and has not ended has a classification. -/
  | classify (type : HierarchyType)
  /-- It has a cardinality. -/
  | bound (cardinality : Cardinality)
  /-- It ends. -/
  | close
  /-- It must not have a primary key yet. -/
  | lacksKey
  /-- It must have declared this attribute. -/
  | ownsAttribute (name : String)
  /-- It has a primary key of these attributes. -/
  | primaryKey (names : List String)
  /-- This name must be in reach. -/
  | knows (kind : Node.Kind) (name : String)
  /-- It has a branch to an entity. -/
  | branch (entity : String) (cardinality : Cardinality)
  /-- It refers to an attribute of an entity. -/
  | attributeOf (name : String) (entity : String)
  /-- It mentions a name. -/
  | mention (kind : Node.Kind) (name : String)
  deriving DecidableEq

/-- What actions do to a state, and how a state is taken back to an earlier one. -/
structure Interpretation (σ ε : Type) where
  act : Action → σ → Except ε σ
  /-- The state to go on with when a declaration that began at the first state failed at the
  second. -/
  undo : σ → σ → σ

/-- The tokens not read yet, the number of parentheses opened less those closed, and a state. -/
structure Reading (σ : Type) where
  unread : List Token
  /-- Has no bound here. Over a source text of fewer than `2 ^ 31` bytes it fits a signed 32-bit word. -/
  depth : Int
  state : σ

/-- Why a reader stops. -/
inductive Fault.Cause (ε : Type) where
  | malformed (error : SyntaxError)
  | refused (error : ε)
  /-- The reader may not nest any deeper. -/
  | exhausted
  deriving DecidableEq

/-- A cause and the token it is blamed on, which is missing at the end of input. -/
structure Fault (ε : Type) where
  cause : Fault.Cause ε
  token : Option Token
  deriving DecidableEq

/-- How much deeper a token nests what follows. -/
def Token.nesting (token : Token) : Int :=
  match token.kind with
  | .leftParen => 1
  | .rightParen => -1
  | _ => 0

abbrev Reader (σ ε α : Type) :=
  EStateM (Fault ε) (Reading σ) α

namespace Reading

def next? {σ : Type} (reading : Reading σ) : Option Token :=
  reading.unread.head?

def advance {σ : Type} (reading : Reading σ) : Reading σ :=
  match reading.unread with
  | [] => reading
  | token :: rest => { reading with unread := rest, depth := reading.depth + token.nesting }

def isNext {σ : Type} (reading : Reading σ) (kind : Token.Kind) : Bool :=
  reading.next?.any (·.kind = kind)

/-- Whether the body of a construct ends here: at a closing parenthesis or at the end of input. -/
def atBodyEnd {σ : Type} (reading : Reading σ) : Bool :=
  reading.unread.isEmpty || reading.isNext .rightParen

/-- What is left of some tokens once the parentheses open at them are closed. At least one token is
dropped, if there is one. -/
def afterGroup (depth : Int) : List Token → List Token
  | [] => []
  | token :: rest =>
    if depth + token.nesting ≤ 0 then rest else afterGroup (depth + token.nesting) rest

/-- The reading behind the group of parentheses that it is in. -/
def leaveGroup {σ : Type} (reading : Reading σ) : Reading σ :=
  { reading with unread := afterGroup reading.depth reading.unread, depth := 0 }

@[simp] theorem next?_advance_cons {σ : Type} (token : Token) (rest : List Token) (depth : Int)
    (state : σ) :
    (Reading.mk (token :: rest) depth state).advance = ⟨rest, depth + token.nesting, state⟩ := rfl

theorem length_afterGroup_lt (depth : Int) {tokens : List Token} (h : tokens ≠ []) :
    (afterGroup depth tokens).length < tokens.length := by
  fun_induction afterGroup depth tokens with
  | case1 => exact absurd rfl h
  | case2 => simp
  | case3 depth token rest _ ih =>
    cases rest with
    | nil => simp [afterGroup]
    | cons next more =>
      have := ih (List.cons_ne_nil _ _)
      simp only [List.length_cons] at this ⊢
      omega

end Reading

namespace Reader

variable {σ ε α : Type}

def fail (cause : Fault.Cause ε) (token : Option Token) : Reader σ ε α :=
  fun reading => .error ⟨cause, token⟩ reading

def ask (question : Reading σ → α) : Reader σ ε α :=
  fun reading => .ok (question reading) reading

/-- Reads a token of a kind, or stops at the token that stands there instead. -/
def expect (kind : Token.Kind) (error : SyntaxError) : Reader σ ε Token :=
  fun reading =>
    match reading.next? with
    | some token =>
      if token.kind = kind then .ok token reading.advance
      else .error ⟨.malformed error, some token⟩ reading
    | none => .error ⟨.malformed error, none⟩ reading

def expectKind (kind : Token.Kind) : Reader σ ε Token :=
  expect kind (.expectedToken kind)

def expectName (kind : Node.Kind) : Reader σ ε Token :=
  expect .identifier (.expectedName kind)

/-- Reads a token of a kind if one stands there, and says whether. -/
def accept (kind : Token.Kind) : Reader σ ε Bool :=
  fun reading =>
    if reading.isNext kind then .ok true reading.advance else .ok false reading

/-- Reads a token that stands for a value by its text, or stops at it. -/
def decode (value? : String → Option α) (error : SyntaxError) : Reader σ ε α :=
  fun reading =>
    match reading.next?.bind (value? ·.text) with
    | some value => .ok value reading.advance
    | none => .error ⟨.malformed error, reading.next?⟩ reading

/-- The value that the text of a token, read already, stands for; stops at the token if none. -/
def decoded (token : Token) : Except InvalidCardinality α → Reader σ ε α
  | .ok value => pure value
  | .error error => fail (.malformed (.invalidCardinality error)) (some token)

/-- Reports an action, and stops at the given token if it is refused. -/
def report (meaning : Interpretation σ ε) (action : Action) (token : Option Token) :
    Reader σ ε Unit :=
  fun reading =>
    match meaning.act action reading.state with
    | .ok state => .ok () { reading with state }
    | .error error => .error ⟨.refused error, token⟩ reading

/-- Reads items until the body of the construct ends. The list bounds their number: an item takes a
token at least, so as many items as there are tokens are enough. -/
def itemsWithin (item : Reader σ ε Unit) : List Token → Reader σ ε Unit
  | [] => pure ()
  | _ :: bound => do
    if ← ask Reading.atBodyEnd then
      pure ()
    else
      item
      itemsWithin item bound

def items (item : Reader σ ε Unit) : Reader σ ε Unit := do
  itemsWithin item (← ask Reading.unread)

end Reader
end ErDiagram
