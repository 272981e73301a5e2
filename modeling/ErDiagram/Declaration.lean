import ErDiagram.Field
import ErDiagram.Reading

/-!
The grammar of declarations, as readers. A construct is a name, then the details of its kind, then
fields; a field is a parenthesis, a reserved word and what belongs to it, and a parenthesis.

A field may hold fields, so the readers nest. They are given a budget of nested fields and stop
when it is used up; parentheses nested too deeply are refused before that.
-/

namespace ErDiagram

/-- The deepest nesting of parentheses that a declaration may have. -/
def maxDepth : Nat :=
  256

namespace Reader

variable {σ ε : Type} (meaning : Interpretation σ ε)

/-- Reads a cardinality: one literal that is a pair, or two literals that are a bound each. -/
def cardinality : Reader σ ε Cardinality := do
  let first ← expectKind .cardinal
  if ':' ∈ first.text.toList then
    decoded first (Cardinality.ofString first.text)
  else
    let min ← decoded first (Bound.ofString first.text)
    let second ← expectKind .cardinal
    let max ← decoded second (Bound.ofString second.text)
    pure ⟨min, max⟩

/-- Reads the classification of a hierarchy, with or without the word that announces it. -/
def hierarchyType : Reader σ ε HierarchyType := do
  let _ ← accept (.reserved .type)
  if ← accept (.reserved .subset) then
    pure .plainSubset
  else
    let total ← decode HierarchyType.coverage? .expectedCoverage
    let exclusive ← decode HierarchyType.disjointness? .expectedDisjointness
    pure (.ofFacets total exclusive)

/-- Reads what stands between the name of a construct and its fields: the classification of a
hierarchy, and the cardinality that an attribute may have. -/
def details (kind : Node.Kind) : Reader σ ε Unit := do
  match kind with
  | .hierarchy =>
    let type ← hierarchyType
    report meaning (.classify type) none
  | .attribute =>
    if ← accept (.reserved .cardinality) then
      let cardinality ← cardinality
      report meaning (.bound cardinality) none
    else
      pure ()
  | _ => pure ()

/-- Reads a construct from its name on, with fields read by `inside`. -/
def construct (inside : Reader σ ε Unit) (kind : Node.Kind) : Reader σ ε Unit := do
  let name ← expectName kind
  report meaning (.declare kind name.text) (some name)
  details meaning kind
  items inside
  report meaning .close (← ask Reading.next?)

/-- Reads the names of a primary key behind those read already, which come last first. The list
bounds their number as in `itemsWithin`. -/
def keyNames (names : List String) : List Token → Reader σ ε (List String)
  | [] => pure names.reverse
  | _ :: bound => do
    if ← ask Reading.atBodyEnd then
      pure names.reverse
    else
      let name ← expectName .attribute
      report meaning (.ownsAttribute name.text) (some name)
      keyNames (name.text :: names) bound

/-- Reads a primary key behind its reserved word. -/
def primaryKey (keyword : Token) : Reader σ ε Unit := do
  report meaning .lacksKey (some keyword)
  let names ← keyNames meaning [] (← ask Reading.unread)
  report meaning (.primaryKey names) (some keyword)

/-- Reads a name of a kind that must be in reach. -/
def knownName (kind : Node.Kind) : Reader σ ε Token := do
  let name ← expectName kind
  report meaning (.knows kind name.text) (some name)
  pure name

/-- Reads a branch of an association behind its reserved word. -/
def branch (keyword : Token) : Reader σ ε Unit := do
  let entity ← knownName meaning .entity
  let _ ← expectKind (.reserved .cardinality)
  let cardinality ← cardinality
  report meaning (.branch entity.text cardinality) (some keyword)

def attributeOf : Reader σ ε Unit := do
  let name ← expectName .attribute
  let entity ← knownName meaning .entity
  report meaning (.attributeOf name.text entity.text) (some name)

def mention (kind : Node.Kind) : Reader σ ε Unit := do
  let name ← knownName meaning kind
  report meaning (.mention kind name.text) (some name)

/-- Reads what follows the reserved word of a field, with nested fields read by `inside`. -/
def fieldBody (inside : Node.Kind → Reader σ ε Unit) (keyword : Token) :
    Field → Reader σ ε Unit
  | .construct kind => construct meaning (inside kind) kind
  | .primaryKey => primaryKey meaning keyword
  | .branch => branch meaning keyword
  | .attributeOf => attributeOf meaning
  | .mention kind => mention meaning kind

/-- Reads the reserved word that introduces a field of a construct. -/
def fieldKeyword (owner : Node.Kind) : Reader σ ε (Token × Field) :=
  fun reading =>
    let error :=
      if owner = .start then SyntaxError.expectedDeclaration else SyntaxError.unknownField owner
    match reading.next? with
    | some token =>
      match Field.find? owner token.kind with
      | some field => .ok (token, field) reading.advance
      | none => .error ⟨.malformed error, some token⟩ reading
    | none => .error ⟨.malformed error, none⟩ reading

/-- Reads a field of a construct, with a budget for the nested fields. -/
def field : Nat → Node.Kind → Reader σ ε Unit
  | 0, _ => fail .exhausted none
  | budget + 1, owner => do
    let paren ← expectKind .leftParen
    if maxDepth < (← ask Reading.depth) then
      fail (.malformed .nestedTooDeeply) (some paren)
    else
      let (keyword, kind) ← fieldKeyword owner
      fieldBody meaning (field budget) keyword kind
      let _ ← expectKind .rightParen

end Reader

/-- A fault and the token that came next when it was found. -/
structure Stop (ε : Type) where
  fault : Fault ε
  next : Option Token

namespace Reading

variable {σ ε : Type} (meaning : Interpretation σ ε)

/-- Reads one declaration. If it stops, its effects are undone and the group of parentheses around
the fault is left. -/
def declaration (budget : Nat) (reading : Reading σ) : Option (Stop ε) × Reading σ :=
  match Reader.field meaning budget .start reading with
  | .ok () after => (none, after)
  | .error fault after =>
    (some ⟨fault, after.next?⟩,
      { after with state := meaning.undo reading.state after.state }.leaveGroup)

/-- Reads declarations to the end of input, behind the stops found already, which come last first.
The list bounds their number as in `Reader.itemsWithin`. -/
def declarationsWithin (budget : Nat) (stops : List (Stop ε)) (reading : Reading σ) :
    List Token → List (Stop ε) × Reading σ
  | [] => (stops.reverse, reading)
  | _ :: bound =>
    if reading.unread.isEmpty then (stops.reverse, reading)
    else
      match reading.declaration meaning budget with
      | (none, after) => declarationsWithin budget stops after bound
      | (some stop, after) => declarationsWithin budget (stop :: stops) after bound

/-- Reads declarations to the end of input. -/
def declarations (budget : Nat) (reading : Reading σ) : List (Stop ε) × Reading σ :=
  declarationsWithin meaning budget [] reading reading.unread

end Reading
end ErDiagram
