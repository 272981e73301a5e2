import ErDiagram.Node
import ErDiagram.Token

/-!
Fields: the parenthesized parts that a diagram and its constructs are made of. Which fields a
construct may hold, and which reserved word introduces each, depends on its kind alone.
-/

namespace ErDiagram

inductive Field where
  /-- A construct with a name and a body of its own. -/
  | construct (kind : Node.Kind)
  /-- The primary key of an entity: names of its attributes. -/
  | primaryKey
  /-- A branch of an association: an entity and its cardinality. -/
  | branch
  /-- An attribute that a foreign key refers to, with the entity that has it. -/
  | attributeOf
  /-- A declared name, mentioned by the construct around it. -/
  | mention (kind : Node.Kind)
  deriving DecidableEq

namespace Field

/-- The fields that a construct may hold, each with its reserved word. Those of the start node are
the declarations. -/
def table : Node.Kind → List (Keyword × Field)
  | .start =>
    [(.entity, .construct .entity), (.association, .construct .association),
      (.hierarchy, .construct .hierarchy), (.foreignKey, .construct .foreignKey)]
  | .entity => [(.attribute, .construct .attribute), (.primaryKey, .primaryKey)]
  | .association => [(.attribute, .construct .attribute), (.entity, .branch)]
  | .hierarchy => [(.parent, .mention .entity), (.child, .mention .entity)]
  | .foreignKey =>
    [(.attribute, .attributeOf), (.between, .mention .entity),
      (.association, .mention .association)]
  | .attribute => [(.attribute, .construct .attribute)]
  | .primaryKey => []
  | .cardinality => []

/-- The field of a construct that a kind of token introduces. -/
def find? (owner : Node.Kind) : Token.Kind → Option Field
  | .reserved word => (table owner).lookup word
  | _ => none

end Field
end ErDiagram
