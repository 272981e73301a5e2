import ErDiagram.Cardinality
import ErDiagram.HierarchyType

/-!
Nodes of a diagram graph: one for every construct that a source text declares, and the start node
that owns the top-level declarations.
-/

namespace ErDiagram

namespace Node

inductive Kind where
  | start
  | entity
  | association
  | hierarchy
  | attribute
  | foreignKey
  | primaryKey
  /-- A branch of an association: an entity that takes part, and how often. -/
  | cardinality
  deriving DecidableEq

/-- The short name of a kind, as graphs and messages about names print it. -/
def Kind.text : Kind → String
  | .start => "Start"
  | .entity => "Entity"
  | .association => "Assoc"
  | .hierarchy => "Gerarchy"
  | .attribute => "Attr"
  | .foreignKey => "FK"
  | .primaryKey => "PK"
  | .cardinality => "Card"

/-- What a kind is called in messages about the grammar. -/
def Kind.label : Kind → String
  | .start => "declaration"
  | .entity => "entity"
  | .association => "association"
  | .hierarchy => "gerarchy"
  | .attribute => "attribute"
  | .foreignKey => "foreign key"
  | .primaryKey => "primary key"
  | .cardinality => "cardinality"

end Node

/-- A declared construct. The links of an entity, association or attribute lead to what is declared
inside it, those of the other kinds to the nodes that they mention. -/
structure Node where
  kind : Node.Kind
  id : Nat
  name : String
  links : List Nat
  cardinality : Option Cardinality
  hierarchyType : Option HierarchyType
  deriving DecidableEq

namespace Node

def bare (kind : Kind) (id : Nat) (name : String) : Node :=
  ⟨kind, id, name, [], none, none⟩

def startId : Nat :=
  0

def emptyStart : Node :=
  bare .start startId "start"

end Node
end ErDiagram
