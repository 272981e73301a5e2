import ErDiagram.Node

/-!
Graphs: finite sets of nodes with one node for an id, listed by ascending id.
-/

namespace ErDiagram

/-- Nodes by ascending id. -/
structure Graph where
  nodes : List Node
  ascending : nodes.Pairwise (·.id < ·.id)
  deriving DecidableEq

namespace Graph

/-- A list of nodes by ascending id with one more node, which replaces the node that has its id. -/
def insertNode (node : Node) : List Node → List Node
  | [] => [node]
  | first :: rest =>
    if node.id < first.id then node :: first :: rest
    else if node.id = first.id then node :: rest
    else first :: insertNode node rest

theorem eq_or_mem_of_mem_insertNode {node other : Node} {nodes : List Node}
    (h : other ∈ insertNode node nodes) : other = node ∨ other ∈ nodes := by
  induction nodes with
  | nil => simpa [insertNode] using h
  | cons first rest ih =>
    rw [insertNode] at h
    split at h
    · simpa using h
    · split at h
      · rcases List.mem_cons.1 h with h | h
        · exact Or.inl h
        · exact Or.inr (List.mem_cons_of_mem _ h)
      · rcases List.mem_cons.1 h with h | h
        · exact Or.inr (h ▸ List.mem_cons_self)
        · exact (ih h).imp_right (List.mem_cons_of_mem _)

theorem ascending_insertNode (node : Node) {nodes : List Node}
    (h : nodes.Pairwise (·.id < ·.id)) : (insertNode node nodes).Pairwise (·.id < ·.id) := by
  induction nodes with
  | nil => simp [insertNode]
  | cons first rest ih =>
    have hfirst := (List.pairwise_cons.1 h).1
    have hrest := (List.pairwise_cons.1 h).2
    rw [insertNode]
    split
    · rename_i hlt
      refine List.pairwise_cons.2 ⟨fun other hother => ?_, h⟩
      rcases List.mem_cons.1 hother with rfl | hother
      · exact hlt
      · exact Nat.lt_trans hlt (hfirst other hother)
    · split
      · rename_i heq
        exact List.pairwise_cons.2 ⟨fun other hother => heq ▸ hfirst other hother, hrest⟩
      · refine List.pairwise_cons.2 ⟨fun other hother => ?_, ih hrest⟩
        rcases eq_or_mem_of_mem_insertNode hother with rfl | hother
        · omega
        · exact hfirst other hother

def empty : Graph :=
  ⟨[], List.Pairwise.nil⟩

/-- The graph with one more node, which replaces the node that has its id. -/
def insert (graph : Graph) (node : Node) : Graph :=
  ⟨insertNode node graph.nodes, ascending_insertNode node graph.ascending⟩

/-- The graph without the nodes whose id is `first` or above. -/
def before (graph : Graph) (first : Nat) : Graph :=
  ⟨graph.nodes.filter (·.id < first), graph.ascending.filter _⟩

def get? (graph : Graph) (id : Nat) : Option Node :=
  graph.nodes.find? (·.id = id)

def contains (graph : Graph) (id : Nat) : Bool :=
  (graph.get? id).isSome

def size (graph : Graph) : Nat :=
  graph.nodes.length

def isEmpty (graph : Graph) : Bool :=
  graph.nodes.isEmpty

/-- The start node, if the graph has it. -/
def root? (graph : Graph) : Option Node :=
  graph.get? Node.startId

/-- The ids of the nodes, ascending. -/
def ids (graph : Graph) : List Nat :=
  graph.nodes.map (·.id)

/-- The nodes that the node with this id links to, in the order of its links; a link to an id that
the graph does not have is passed over. -/
def linkedNodes (graph : Graph) (id : Nat) : List Node :=
  match graph.get? id with
  | some node => node.links.filterMap graph.get?
  | none => []

@[simp] theorem nodes_empty : empty.nodes = [] := rfl

theorem mem_nodes_of_get? {graph : Graph} {id : Nat} {node : Node}
    (h : graph.get? id = some node) : node ∈ graph.nodes ∧ node.id = id :=
  ⟨List.mem_of_find?_eq_some h, by simpa using List.find?_some h⟩

theorem find?_insertNode (node : Node) (id : Nat) (nodes : List Node) :
    (insertNode node nodes).find? (·.id = id) =
      if node.id = id then some node else nodes.find? (·.id = id) := by
  induction nodes with
  | nil => by_cases hid : node.id = id <;> simp [insertNode, hid]
  | cons first rest ih =>
    rw [insertNode]
    split
    · by_cases hid : node.id = id <;> simp [hid]
    · split
      · rename_i heq
        by_cases hid : node.id = id <;> simp [hid, ← heq]
      · by_cases hid : first.id = id
        · have hne : node.id ≠ id := by omega
          simp [hid, hne]
        · simp [hid, ih]

theorem get?_insert (graph : Graph) (node : Node) (id : Nat) :
    (graph.insert node).get? id = if node.id = id then some node else graph.get? id :=
  find?_insertNode node id graph.nodes

theorem get?_before {graph : Graph} {first id : Nat} :
    (graph.before first).get? id = if id < first then graph.get? id else none := by
  simp only [get?, before, List.find?_filter]
  split
  · congr 1
    funext node
    by_cases h : node.id = id <;> simp [h]
    omega
  · rw [List.find?_eq_none]
    intro node _
    simp
    omega

end Graph
end ErDiagram
