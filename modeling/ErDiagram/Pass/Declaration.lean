import ErDiagram.Declaration
import ErDiagram.Pass

/-!
The grammar of declarations in one pass: every part of a declaration is built as soon as it is read,
and a declaration that stops is taken back by way of a checkpoint.
-/

namespace ErDiagram.Pass

open Builder (Stacks)

namespace Step

def cardinality : Step Cardinality := do
  let first ← expectKind .cardinal
  if ':' ∈ first.text.toList then
    decoded first (Cardinality.ofString first.text)
  else
    let min ← decoded first (Bound.ofString first.text)
    let second ← expectKind .cardinal
    let max ← decoded second (Bound.ofString second.text)
    return ⟨min, max⟩

def hierarchyType : Step HierarchyType := do
  let _ ← accept (.reserved .type)
  if ← accept (.reserved .subset) then
    return .plainSubset
  else
    let total ← decode HierarchyType.coverage? .expectedCoverage
    let exclusive ← decode HierarchyType.disjointness? .expectedDisjointness
    return .ofFacets total exclusive

def details : Node.Kind → Step Unit
  | .hierarchy => do
    let type ← hierarchyType
    edit ({ · with hierarchyType := some type })
  | .attribute => do
    if ← accept (.reserved .cardinality) then
      let cardinality ← cardinality
      edit ({ · with cardinality := some cardinality })
  | _ => return ()

/-- Reads items until the body of the construct ends. -/
def itemsWithin (item : Step Unit) : Nat → Step Unit
  | 0 => return ()
  | bound + 1 => do
    if ← ask Pass.atBodyEnd then
      return ()
    else
      item
      itemsWithin item bound

def items (item : Step Unit) : Step Unit := do
  itemsWithin item (← ask Pass.bound)

def construct (inside : Step Unit) (kind : Node.Kind) : Step Unit := do
  let name ← expectName kind
  let _ ← build (Stacks.openNode kind name.text) name
  details kind
  items inside
  let _ ← build Stacks.closeNode (← ask Pass.next)

/-- Reads the name of an attribute of the construct itself, and gives its id. -/
def ownId : Step Nat := do
  let name ← expectName .attribute
  build (Stacks.findOwn .attribute name.text) name

/-- Reads the names of a primary key and looks each of them up. -/
def keyIds (ids : List Nat) : Nat → Step (List Nat)
  | 0 => return ids
  | bound + 1 => do
    if ← ask Pass.atBodyEnd then
      return ids
    else
      let id ← ownId
      keyIds (ids ++ [id]) bound

def primaryKey (keyword : Token) : Step Unit := do
  if ← build (Stacks.hasLinkTo .primaryKey) keyword then
    blame keyword .duplicateDefinition Refusal.secondKey.message
  else
    let ids ← keyIds [] (← ask Pass.bound)
    let _ ← build (Stacks.addLeaf .primaryKey ids none) keyword

/-- Reads a name of a kind that must be in reach, and gives its id. -/
def knownId (kind : Node.Kind) : Step Nat := do
  let name ← expectName kind
  build (Stacks.findVisible kind name.text) name

def link (id : Nat) : Step Unit :=
  edit fun node => { node with links := node.links ++ [id] }

def branch (keyword : Token) : Step Unit := do
  let entity ← knownId .entity
  let _ ← expectKind (.reserved .cardinality)
  let cardinality ← cardinality
  let _ ← build (Stacks.addLeaf .cardinality [entity] (some cardinality)) keyword

def attributeOf : Step Unit := do
  let name ← expectName .attribute
  let entity ← knownId .entity
  let id ← build (Stacks.findAttribute entity name.text) name
  link id

def mention (kind : Node.Kind) : Step Unit := do
  link (← knownId kind)

def fieldBody (inside : Node.Kind → Step Unit) (keyword : Token) : Field → Step Unit
  | .construct kind => construct (inside kind) kind
  | .primaryKey => primaryKey keyword
  | .branch => branch keyword
  | .attributeOf => attributeOf
  | .mention kind => mention kind

def fieldKeyword (owner : Node.Kind) : Step (Token × Field) :=
  fun pass =>
    match Field.find? owner pass.next.kind with
    | some field => .ok (pass.next, field) pass.advance
    | none =>
      malformed pass.next
        (if owner = .start then SyntaxError.expectedDeclaration else SyntaxError.unknownField owner)
        pass

/-- Reads a field of a construct, with a budget for the nested fields. -/
def field : Nat → Node.Kind → Step Unit
  | 0, _ => throw (.internal "nesting budget exhausted")
  | budget + 1, owner => do
    let paren ← expectKind .leftParen
    if Int32.ofNat maxDepth < (← ask Pass.depth) then
      malformed paren .nestedTooDeeply
    else
      let (keyword, kind) ← fieldKeyword owner
      fieldBody (field budget) keyword kind
      let _ ← expectKind .rightParen

end Step

/-- Reads declarations to the end of input. One that stops is told and taken back, and the group of
parentheses around the fault is left. -/
def declarationsWithin (budget : Nat) : Nat → Pass → Except String Pass
  | 0, pass => .ok pass
  | bound + 1, pass =>
    if pass.next.kind = .endOfInput then .ok pass
    else
      match Step.field budget .start pass with
      | .ok () after => declarationsWithin budget bound after
      | .error (.complaint diagnostic) after =>
        match Stacks.rollback pass.built.checkpoint after.built with
        | .ok () built =>
          declarationsWithin budget bound
            (leaveGroup { after with built, told := after.told ++ [diagnostic] })
        | .error failure _ => .error failure.message
      | .error (.internal cause) _ => .error cause

def compile (source : String) : Except CompileError Graph :=
  match declarationsWithin (maxDepth + 1) (start source).bound (start source) with
  | .error cause => .error (.internal cause)
  | .ok pass =>
    match pass.told with
    | [] =>
      match Stacks.finish pass.built with
      | .ok graph _ => .ok graph
      | .error failure _ => .error (.internal failure.message)
    | told => .error (.rejected told)

end ErDiagram.Pass
