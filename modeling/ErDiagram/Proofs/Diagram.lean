import ErDiagram.Cardinality
import ErDiagram.HierarchyType
import ErDiagram.Node
import ErDiagram.Reading
import Mathlib.Algebra.Ring.Int.Defs
import Mathlib.Algebra.Ring.Nat

/-!
Diagrams as they are written, and the lists of tokens that write them. A diagram is a list of
declarations with their clauses. It knows no ids and no links, and nothing keeps it from using a name
twice or from mentioning a name that it does not declare.
-/

namespace ErDiagram

/-- The classification of a hierarchy: a subset, or its coverage and its disjointness. -/
inductive Classification where
  | subset
  | facets (total exclusive : Bool)

/-- The flags that a classification stands for. -/
def Classification.type : Classification → HierarchyType
  | .subset => .plainSubset
  | .facets total exclusive => .ofFacets total exclusive

/-- An attribute and the attributes inside it. -/
inductive Attribute where
  | mk (name : String) (cardinality : Option Cardinality) (inside : List Attribute)

def Attribute.name : Attribute → String
  | ⟨name, _, _⟩ => name

/-- A clause of a declared construct of a kind. -/
inductive Clause : Node.Kind → Type where
  | attr {kind : Node.Kind} (holds : kind = .entity ∨ kind = .association) (owned : Attribute) :
    Clause kind
  | key (names : List String) : Clause .entity
  | branch (entity : String) (cardinality : Cardinality) : Clause .association
  | parent (entity : String) : Clause .hierarchy
  | child (entity : String) : Clause .hierarchy
  | attributeOf (name entity : String) : Clause .foreignKey
  | between (entity : String) : Clause .foreignKey
  | across (association : String) : Clause .foreignKey

/-- A top-level declaration. -/
inductive Declaration where
  | entity (name : String) (clauses : List (Clause .entity))
  | association (name : String) (clauses : List (Clause .association))
  | hierarchy (name : String) (classification : Classification) (clauses : List (Clause .hierarchy))
  | foreignKey (name : String) (clauses : List (Clause .foreignKey))

def Declaration.kind : Declaration → Node.Kind
  | .entity .. => .entity
  | .association .. => .association
  | .hierarchy .. => .hierarchy
  | .foreignKey .. => .foreignKey

def Declaration.name : Declaration → String
  | .entity name _ => name
  | .association name _ => name
  | .hierarchy name _ _ => name
  | .foreignKey name _ => name

def Declaration.clauses : (declaration : Declaration) → List (Clause declaration.kind)
  | .entity _ clauses => clauses
  | .association _ clauses => clauses
  | .hierarchy _ _ clauses => clauses
  | .foreignKey _ clauses => clauses

/-- The flags of the declared construct, if it is a hierarchy. -/
def Declaration.type? : Declaration → Option HierarchyType
  | .hierarchy _ classification _ => some classification.type
  | _ => none

/-- A list of declarations, the first one first. -/
abbrev Diagram :=
  List Declaration

/-! ### What writes them -/

/-- The texts that write a bound: `n` or `N`, or digits with that value. -/
def Bound.WrittenAs : Bound → List Char → Prop
  | .many, text => text = ['n'] ∨ text = ['N']
  | .count n, text =>
    text ≠ [] ∧ (∀ c ∈ text, c.isDigit) ∧ Nat.ofDigitChars 10 text 0 = n.toNat

/-- A cardinality is one literal that joins its bounds by a colon, or a literal for each bound. -/
inductive Cardinality.WrittenAs (cardinality : Cardinality) : List Token → Prop where
  | pair {token : Token} {lower upper : List Char} (hkind : token.kind = .cardinal)
    (htext : token.text.toList = lower ++ ':' :: upper)
    (hmin : cardinality.min.WrittenAs lower) (hmax : cardinality.max.WrittenAs upper) :
    cardinality.WrittenAs [token]
  | bounds {lower upper : Token} (hlower : lower.kind = .cardinal) (hupper : upper.kind = .cardinal)
    (hmin : cardinality.min.WrittenAs lower.text.toList)
    (hmax : cardinality.max.WrittenAs upper.text.toList) : cardinality.WrittenAs [lower, upper]

inductive Classification.Words : Classification → List Token → Prop where
  | subset {token : Token} (hkind : token.kind = .reserved .subset) : Words .subset [token]
  | facets {total exclusive : Bool} {coverage disjointness : Token}
    (hcoverage : coverage.kind = .reserved (if total then .totalCover else .partialCover))
    (hdisjointness : disjointness.kind = .reserved (if exclusive then .exclusive else .overlapped)) :
    Words (.facets total exclusive) [coverage, disjointness]

/-- The words of a classification may be announced by `type`. -/
inductive Classification.WrittenAs (classification : Classification) : List Token → Prop where
  | plain {tokens : List Token} (hwords : classification.Words tokens) :
    classification.WrittenAs tokens
  | announced {type : Token} {tokens : List Token} (htype : type.kind = .reserved .type)
    (hwords : classification.Words tokens) : classification.WrittenAs (type :: tokens)

/-- Some tokens behind a reserved word, both between a pair of parentheses. -/
inductive Enclosed (word : Keyword) (inner : List Token) : List Token → Prop where
  | mk {opening keyword closing : Token} (hopening : opening.kind = .leftParen)
    (hkeyword : keyword.kind = .reserved word) (hclosing : closing.kind = .rightParen) :
    Enclosed word inner (opening :: keyword :: (inner ++ [closing]))

/-- Things of one sort that are written one behind the other. -/
inductive Row {α : Type} (writes : α → List Token → Prop) : List α → List Token → Prop where
  | nil : Row writes [] []
  | cons {first : α} {rest : List α} {front back : List Token} (hfirst : writes first front)
    (hrest : Row writes rest back) : Row writes (first :: rest) (front ++ back)

/-- An attribute may have a cardinality, which `card` announces. -/
inductive Attribute.Detail : Option Cardinality → List Token → Prop where
  | none : Detail none []
  | some {cardinality : Cardinality} {card : Token} {tokens : List Token}
    (hcard : card.kind = .reserved .cardinality) (htokens : cardinality.WrittenAs tokens) :
    Detail (some cardinality) (card :: tokens)

mutual

/-- An attribute: `attr`, its name, its cardinality and the attributes inside it. -/
inductive Attribute.WrittenAs : Attribute → List Token → Prop where
  | mk {name : Token} {cardinality : Option Cardinality} {inside : List Attribute}
    {detail rest tokens : List Token} (hname : name.kind = .identifier)
    (hdetail : Attribute.Detail cardinality detail) (hinside : Attribute.AllWrittenAs inside rest)
    (henclosed : Enclosed .attribute (name :: (detail ++ rest)) tokens) :
    Attribute.WrittenAs ⟨name.text, cardinality, inside⟩ tokens

inductive Attribute.AllWrittenAs : List Attribute → List Token → Prop where
  | nil : Attribute.AllWrittenAs [] []
  | cons {first : Attribute} {rest : List Attribute} {front back : List Token}
    (hfirst : Attribute.WrittenAs first front) (hrest : Attribute.AllWrittenAs rest back) :
    Attribute.AllWrittenAs (first :: rest) (front ++ back)

end

/-- The clauses of constructs:

* an attribute, of an entity or of an association,
* `pk` and names of attributes, of an entity,
* `entity`, its name, `card` and a cardinality, of an association,
* `parent` or `child` and the name of an entity, of a hierarchy,
* `attr`, its name and the name of an entity, of a foreign key,
* `between` and the name of an entity, or `assoc` and the name of an association, of a foreign
  key. -/
inductive Clause.WrittenAs : {kind : Node.Kind} → Clause kind → List Token → Prop where
  | attr {kind : Node.Kind} {holds : kind = .entity ∨ kind = .association} {owned : Attribute}
    {tokens : List Token} (howned : owned.WrittenAs tokens) :
    (Clause.attr holds owned).WrittenAs tokens
  | key {names tokens : List Token} (hnames : ∀ name ∈ names, name.kind = .identifier)
    (henclosed : Enclosed .primaryKey names tokens) :
    (Clause.key (names.map (·.text))).WrittenAs tokens
  | branch {entity card : Token} {cardinality : Cardinality} {rest tokens : List Token}
    (hentity : entity.kind = .identifier) (hcard : card.kind = .reserved .cardinality)
    (hrest : cardinality.WrittenAs rest)
    (henclosed : Enclosed .entity (entity :: card :: rest) tokens) :
    (Clause.branch entity.text cardinality).WrittenAs tokens
  | parent {entity : Token} {tokens : List Token} (hentity : entity.kind = .identifier)
    (henclosed : Enclosed .parent [entity] tokens) : (Clause.parent entity.text).WrittenAs tokens
  | child {entity : Token} {tokens : List Token} (hentity : entity.kind = .identifier)
    (henclosed : Enclosed .child [entity] tokens) : (Clause.child entity.text).WrittenAs tokens
  | attributeOf {name entity : Token} {tokens : List Token} (hname : name.kind = .identifier)
    (hentity : entity.kind = .identifier)
    (henclosed : Enclosed .attribute (name :: [entity]) tokens) :
    (Clause.attributeOf name.text entity.text).WrittenAs tokens
  | between {entity : Token} {tokens : List Token} (hentity : entity.kind = .identifier)
    (henclosed : Enclosed .between [entity] tokens) : (Clause.between entity.text).WrittenAs tokens
  | across {association : Token} {tokens : List Token} (hassociation : association.kind = .identifier)
    (henclosed : Enclosed .association [association] tokens) :
    (Clause.across association.text).WrittenAs tokens

/-- The declarations: a reserved word, a name, the classification of a hierarchy, and clauses. -/
inductive Declaration.WrittenAs : Declaration → List Token → Prop where
  | entity {name : Token} {clauses : List (Clause .entity)} {rest tokens : List Token}
    (hname : name.kind = .identifier) (hclauses : Row Clause.WrittenAs clauses rest)
    (henclosed : Enclosed .entity (name :: rest) tokens) :
    (Declaration.entity name.text clauses).WrittenAs tokens
  | association {name : Token} {clauses : List (Clause .association)} {rest tokens : List Token}
    (hname : name.kind = .identifier) (hclauses : Row Clause.WrittenAs clauses rest)
    (henclosed : Enclosed .association (name :: rest) tokens) :
    (Declaration.association name.text clauses).WrittenAs tokens
  | hierarchy {name : Token} {classification : Classification} {clauses : List (Clause .hierarchy)}
    {words rest tokens : List Token} (hname : name.kind = .identifier)
    (hwords : classification.WrittenAs words) (hclauses : Row Clause.WrittenAs clauses rest)
    (henclosed : Enclosed .hierarchy (name :: (words ++ rest)) tokens) :
    (Declaration.hierarchy name.text classification clauses).WrittenAs tokens
  | foreignKey {name : Token} {clauses : List (Clause .foreignKey)} {rest tokens : List Token}
    (hname : name.kind = .identifier) (hclauses : Row Clause.WrittenAs clauses rest)
    (henclosed : Enclosed .foreignKey (name :: rest) tokens) :
    (Declaration.foreignKey name.text clauses).WrittenAs tokens

/-- Some tokens write a diagram: its declarations one behind the other. -/
def Diagram.WrittenAs (diagram : Diagram) (tokens : List Token) : Prop :=
  Row Declaration.WrittenAs diagram tokens

/-! ### Parentheses -/

/-- The parentheses that some tokens open, less those that they close. -/
def openedBy (tokens : List Token) : Int :=
  (tokens.map (·.nesting)).sum

/-- Reading the tokens one by one, never more parentheses are open than a limit allows. -/
def NestsWithin (limit : Nat) (tokens : List Token) : Prop :=
  ∀ front, front <+: tokens → openedBy front ≤ limit

end ErDiagram
