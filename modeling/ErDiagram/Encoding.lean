import ErDiagram.Diagnostic
import ErDiagram.Graph
import ErDiagram.Json

/-!
Graphs and diagnostics as JSON values.
-/

namespace ErDiagram

/-- A node: its details are members only if it has them. -/
def Node.toJson (node : Node) : Json :=
  .object
    ([("kind", .string node.kind.text), ("id", .number node.id), ("name", .string node.name),
        ("links", .array (node.links.map .number))] ++
      (node.cardinality.map fun cardinality => ("cardinality", .string cardinality.text)).toList ++
      (node.hierarchyType.map fun type => ("gerarchy_type", .string type.text)).toList)

/-- A graph: the array of its nodes by ascending id. -/
def Graph.toJson (graph : Graph) : Json :=
  .array (graph.nodes.map Node.toJson)

namespace Diagnostic

/-- What a diagnostic stands next to, as plain text: the end of the file and a token that is
written like it are not told apart. -/
def Near.toJson : Near → Json
  | .token text => .string text
  | .endOfFile => .string "end of file"
  | .nothing => .null

/-- What a diagnostic stands next to, with a token tagged as one. -/
def Near.toTaggedJson : Near → Json
  | .token text => .object [("token", .string text)]
  | .endOfFile => .string "end_of_file"
  | .nothing => .string "nothing"

/-- A diagnostic with a given form of what it stands next to, its members in alphabetical order. -/
def toJsonWith (near : Near → Json) (diagnostic : Diagnostic) : Json :=
  .object
    [("column", .number diagnostic.place.column.toNat),
      ("kind", .string diagnostic.category.text),
      ("line", .number diagnostic.place.line.toNat),
      ("message", .string diagnostic.message),
      ("near", near diagnostic.near),
      ("offset", .number diagnostic.offset)]

/-- The flat form of a diagnostic, for readers that only show it. -/
def toJson (diagnostic : Diagnostic) : Json :=
  diagnostic.toJsonWith Near.toJson

/-- The tagged form of a diagnostic. -/
def toTaggedJson (diagnostic : Diagnostic) : Json :=
  diagnostic.toJsonWith Near.toTaggedJson

end Diagnostic
end ErDiagram
