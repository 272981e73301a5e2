import ErDiagram.Builder
import ErDiagram.Diagnostic
import ErDiagram.Reading

/-!
What declarations mean: every action of a reader is an operation on a builder, and a declaration
that fails is taken back by way of a checkpoint.
-/

namespace ErDiagram

/-- Why a declaration is refused. -/
inductive Refusal where
  | scope (error : ScopeError)
  /-- The entity has a primary key already. -/
  | secondKey
  deriving DecidableEq

namespace Refusal

def message : Refusal → String
  | .scope error => error.message
  | .secondKey => "entity already has a primary key"

/-- The class of diagnostic for a refusal. A misuse of the builder has none. -/
def category? : Refusal → Option Diagnostic.Category
  | .scope (.duplicate ..) => some .duplicateDefinition
  | .scope (.unresolved ..) => some .unresolvedReference
  | .scope (.missingAttribute ..) => some .unresolvedReference
  | .scope (.misuse _) => none
  | .secondKey => some .duplicateDefinition

/-- A builder operation whose refusal refuses the declaration. -/
def ofScope {α : Type} (result : Except ScopeError α) : Except Refusal α :=
  result.mapError .scope

end Refusal

namespace Builder

open Refusal (ofScope)

/-- What an action does to a builder. -/
def act (action : Action) (builder : Builder) : Except Refusal Builder :=
  match action with
  | .declare kind name => do
    let (_, builder) ← ofScope (builder.openNode kind name)
    pure builder
  | .classify type => pure (builder.setHierarchyType type)
  | .bound cardinality => pure (builder.setCardinality cardinality)
  | .close => do
    let (_, builder) ← ofScope builder.closeNode
    pure builder
  | .lacksKey => if builder.hasLinkTo .primaryKey then .error .secondKey else pure builder
  | .ownsAttribute name => do
    let _ ← ofScope (builder.findOwn .attribute name)
    pure builder
  | .primaryKey names => do
    let ids ← ofScope (names.mapM (builder.findOwn .attribute))
    let (_, builder) ← ofScope (builder.addLeaf .primaryKey ids none)
    pure builder
  | .knows kind name => do
    let _ ← ofScope (builder.findVisible kind name)
    pure builder
  | .branch entity cardinality => do
    let id ← ofScope (builder.findVisible .entity entity)
    let (_, builder) ← ofScope (builder.addLeaf .cardinality [id] (some cardinality))
    pure builder
  | .attributeOf name entity => do
    let owner ← ofScope (builder.findVisible .entity entity)
    let id ← ofScope (builder.findAttribute owner name)
    pure (builder.link id)
  | .mention kind name => do
    let id ← ofScope (builder.findVisible kind name)
    pure (builder.link id)

/-- Declarations as operations on a builder. -/
def meaning : Interpretation Builder Refusal where
  act := act
  undo before failed := failed.rollback before.checkpoint

end Builder
end ErDiagram
