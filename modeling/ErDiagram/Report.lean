import ErDiagram.Graph

/-!
The text report of a graph: a table with a header and a line for every node. A column but the last
is as wide as its widest cell, counted in characters, and two spaces stand between columns.
-/

namespace ErDiagram.Report

def header : List String :=
  ["ID", "Name", "Type", "Links", "Additional information"]

def linksCell (links : List Nat) : String :=
  if links = [] then "[None]" else "[" ++ ", ".intercalate (links.map Nat.repr) ++ "]"

def detailsCell (node : Node) : String :=
  match node.cardinality, node.hierarchyType with
  | some cardinality, _ => "Cardinality values: " ++ cardinality.text
  | none, some type => "Gerarchy type: " ++ type.text
  | none, none => "None"

def row (node : Node) : List String :=
  [node.id.repr, node.name, node.kind.text, linksCell node.links, detailsCell node]

def table (graph : Graph) : List (List String) :=
  header :: graph.nodes.map row

/-- The width of every column. -/
def widths (rows : List (List String)) : List Nat :=
  rows.foldl (fun widths cells => List.zipWith max widths (cells.map String.length))
    (header.map fun _ => 0)

/-- A cell with blanks behind it up to a width. -/
def pad (width : Nat) (cell : String) : String :=
  cell ++ String.ofList (List.replicate (width - cell.length) ' ')

/-- The line that some cells make. -/
def line : List Nat → List String → String
  | width :: widths, cell :: next :: cells => pad width cell ++ "  " ++ line widths (next :: cells)
  | _, cells => String.join cells

def trimEnd (text : String) : String :=
  String.ofList (text.toList.reverse.dropWhile isWhiteSpace).reverse

/-- The report of a graph, every line trimmed and ended by a line feed. -/
def render (graph : Graph) : String :=
  let columns := widths (table graph)
  String.join ((table graph).map fun cells => trimEnd (line columns cells) ++ "\n")

theorem length_row (node : Node) : (row node).length = header.length := rfl

end ErDiagram.Report
