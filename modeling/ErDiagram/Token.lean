/-!
Tokens of the diagram language: reserved words with their spellings, the kinds of token, and the
words that name a kind in messages.
-/

namespace ErDiagram

inductive Keyword where
  | entity
  | attribute
  | primaryKey
  | foreignKey
  | association
  | between
  | cardinality
  | hierarchy
  | type
  | subset
  | partialCover
  | totalCover
  | exclusive
  | overlapped
  | parent
  | child
  deriving DecidableEq

namespace Keyword

def all : List Keyword :=
  [.entity, .attribute, .primaryKey, .foreignKey, .association, .between, .cardinality, .hierarchy,
    .type, .subset, .partialCover, .totalCover, .exclusive, .overlapped, .parent, .child]

/-- How a reserved word may be written. The first spelling is the one that messages use. -/
def spellings : Keyword → String × List String
  | .entity => ("entity", [])
  | .attribute => ("attr", ["attribute"])
  | .primaryKey => ("pk", ["primary-key"])
  | .foreignKey => ("fk", ["foreign-key"])
  | .association => ("assoc", ["association"])
  | .between => ("between", [])
  | .cardinality => ("card", [])
  | .hierarchy => ("gerarchy", [])
  | .type => ("type", [])
  | .subset => ("subset", [])
  | .partialCover => ("partial", [])
  | .totalCover => ("total", [])
  | .exclusive => ("exclusive", [])
  | .overlapped => ("overlapped", [])
  | .parent => ("parent", [])
  | .child => ("child", [])

def name (keyword : Keyword) : String :=
  keyword.spellings.1

/-- Whether a word, taken whole, is a spelling of the reserved word. -/
def isSpelled (keyword : Keyword) (word : String) : Bool :=
  word = keyword.spellings.1 || keyword.spellings.2.contains word

/-- The reserved word with this spelling, case and all. -/
def ofWord? (word : String) : Option Keyword :=
  all.find? (·.isSpelled word)

theorem mem_all (keyword : Keyword) : keyword ∈ all := by
  cases keyword <;> decide

theorem isSpelled_of_ofWord? {word : String} {keyword : Keyword}
    (h : ofWord? word = some keyword) : keyword.isSpelled word := by
  simpa using List.find?_some h

end Keyword

namespace Token

inductive Kind where
  | leftParen
  | rightParen
  | identifier
  /-- One bound of a cardinality, or a pair of bounds joined by a colon. -/
  | cardinal
  | endOfInput
  /-- A character that starts no token. -/
  | invalid
  | reserved (word : Keyword)
  deriving DecidableEq

def Kind.describe : Kind → String
  | .leftParen => "'('"
  | .rightParen => "')'"
  | .identifier => "identifier"
  | .cardinal => "cardinality value"
  | .endOfInput => "end of input"
  | .invalid => "invalid character"
  | .reserved word => "'" ++ word.name ++ "'"

/-- The kind of a whole word: a reserved word, or else an identifier. -/
def Kind.ofWord (word : String) : Kind :=
  match Keyword.ofWord? word with
  | some keyword => .reserved keyword
  | none => .identifier

/-- What is wrong with an invalid token, without naming its character. -/
def invalidMessage : String :=
  "unexpected character"

end Token

/-- A token: its kind, the source text it covers and the byte offset where that text starts. -/
structure Token where
  kind : Token.Kind
  text : String
  offset : Nat
  deriving DecidableEq

end ErDiagram
