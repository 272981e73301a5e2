import ErDiagram.Graph
import ErDiagram.Json.Reader

/-!
Graphs from JSON values: kinds by their names, links as numbers, cardinalities and classifications in
their written forms, and whatever is absent as none.
-/

namespace ErDiagram

namespace Json

/-- The member of an object with this key, the first one if there are several. -/
def member? (key : String) : Json → Option Json
  | .object members => members.lookup key
  | _ => none

def text? : Json → Option String
  | .string text => some text
  | _ => none

def number? : Json → Option Nat
  | .number n => some n
  | _ => none

def items? : Json → Option (List Json)
  | .array items => some items
  | _ => none

/-- A text in an object that need not be there, read as something: nothing if it is absent, and no
result at all if it is there and cannot be read. -/
def detail? {ε α : Type} (read : String → Except ε α) (key : String) (value : Json) :
    Option (Option α) :=
  match value.member? key with
  | none => some none
  | some member => do
    let text ← member.text?
    let detail ← (read text).toOption
    some (some detail)

end Json

namespace Node

def Kind.all : List Kind :=
  [.start, .entity, .association, .hierarchy, .attribute, .foreignKey, .primaryKey, .cardinality]

def Kind.ofText? (text : String) : Option Kind :=
  Kind.all.find? (·.text = text)

/-- The node that a value writes. -/
def ofJson? (value : Json) : Option Node := do
  let kind ← value.member? "kind" >>= Json.text? >>= Kind.ofText?
  let id ← value.member? "id" >>= Json.number?
  let name ← value.member? "name" >>= Json.text?
  let links ← value.member? "links" >>= Json.items? >>= List.mapM Json.number?
  let cardinality ← value.detail? Cardinality.ofString "cardinality"
  let hierarchyType ← value.detail? HierarchyType.ofString "gerarchy_type"
  some ⟨kind, id, name, links, cardinality, hierarchyType⟩

end Node

namespace Graph

/-- The nodes that a JSON text lists, in the order of the text. -/
def nodesOfText? (text : String) : Option (List Node) :=
  Json.read? text >>= Json.items? >>= List.mapM Node.ofJson?

/-- The graph whose nodes a JSON text lists by ascending id. -/
def ofText? (text : String) : Option Graph := do
  let nodes ← nodesOfText? text
  if h : nodes.Pairwise (·.id < ·.id) then some ⟨nodes, h⟩ else none

end Graph
end ErDiagram
