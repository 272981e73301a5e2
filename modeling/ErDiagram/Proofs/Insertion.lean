import ErDiagram.Graph
import Mathlib.Tactic.SplitIfs

/-!
Graphs into which many nodes are inserted. Nodes with different ids may be inserted in any order,
and nodes that come by ascending id are just put behind those already there.
-/

namespace ErDiagram.Graph

def insertAll (graph : Graph) (nodes : List Node) : Graph :=
  nodes.foldl insert graph

theorem eq_of_nodes {graph other : Graph} (h : graph.nodes = other.nodes) : graph = other := by
  cases graph
  cases other
  cases h
  rfl

theorem insertNode_comm {node other : Node} (h : node.id ≠ other.id) (nodes : List Node) :
    insertNode node (insertNode other nodes) = insertNode other (insertNode node nodes) := by
  induction nodes with
  | nil =>
      rcases Nat.lt_or_gt_of_ne h with hlt | hlt
      · simp [insertNode, hlt, h.symm, Nat.lt_asymm hlt]
      · simp [insertNode, hlt, h, Nat.lt_asymm hlt]
  | cons first rest ih =>
      -- Both stand before, at or behind the first node.
      grind [insertNode]

theorem insert_comm {node other : Node} (h : node.id ≠ other.id) (graph : Graph) :
    (graph.insert other).insert node = (graph.insert node).insert other :=
  eq_of_nodes (insertNode_comm h graph.nodes)

@[simp] theorem insertAll_nil (graph : Graph) : graph.insertAll [] = graph := rfl

theorem insertAll_cons (graph : Graph) (node : Node) (nodes : List Node) :
    graph.insertAll (node :: nodes) = (graph.insert node).insertAll nodes := rfl

theorem insertAll_append (graph : Graph) (front back : List Node) :
    graph.insertAll (front ++ back) = (graph.insertAll front).insertAll back :=
  List.foldl_append

/-- A node may be inserted last instead of first. -/
theorem insert_insertAll {graph : Graph} {node : Node} {nodes : List Node}
    (h : ∀ other ∈ nodes, other.id ≠ node.id) :
    (graph.insertAll nodes).insert node = graph.insertAll (node :: nodes) := by
  induction nodes generalizing graph with
  | nil => rfl
  | cons first rest ih =>
      obtain ⟨hfirst, hrest⟩ := List.forall_mem_cons.1 h
      rw [insertAll_cons, ih hrest, insertAll_cons, insertAll_cons, insertAll_cons,
        insert_comm hfirst]

theorem insertNode_of_lt {node : Node} {nodes : List Node} (h : ∀ other ∈ nodes, other.id < node.id) :
    insertNode node nodes = nodes ++ [node] := by
  induction nodes with
  | nil => rfl
  | cons first rest ih =>
      obtain ⟨hfirst, hrest⟩ := List.forall_mem_cons.1 h
      rw [insertNode, if_neg (by omega), if_neg (by omega), ih hrest]
      rfl

theorem nodes_insertAll {graph : Graph} {nodes : List Node}
    (h : (graph.nodes ++ nodes).Pairwise (·.id < ·.id)) :
    (graph.insertAll nodes).nodes = graph.nodes ++ nodes := by
  induction nodes generalizing graph with
  | nil => exact (List.append_nil _).symm
  | cons first rest ih =>
      have hfirst : (graph.insert first).nodes = graph.nodes ++ [first] := by
        apply insertNode_of_lt
        intro other hother
        exact (List.pairwise_append.1 h).2.2 other hother first List.mem_cons_self
      have hsplit : graph.nodes ++ first :: rest = (graph.insert first).nodes ++ rest := by
        rw [hfirst, List.append_assoc]
        rfl
      rw [insertAll_cons, ih (hsplit ▸ h), hsplit]

/-- Nodes by ascending id are the nodes of the graph that they make. -/
theorem nodes_insertAll_empty {nodes : List Node} (h : nodes.Pairwise (·.id < ·.id)) :
    (empty.insertAll nodes).nodes = nodes :=
  nodes_insertAll h

theorem get?_eq_some {graph : Graph} {node : Node} (h : node ∈ graph.nodes) :
    graph.get? node.id = some node := by
  obtain ⟨nodes, hascending⟩ := graph
  induction nodes with
  | nil => cases h
  | cons first rest ih =>
      obtain ⟨hfirst, hrest⟩ := List.pairwise_cons.1 hascending
      rcases List.mem_cons.1 h with rfl | h
      · exact List.find?_cons_of_pos (by simp)
      · have hlt := hfirst node h
        have hne : first.id ≠ node.id := by omega
        rw [get?, List.find?_cons_of_neg (by simpa using hne)]
        exact ih hrest h

theorem get?_iff {graph : Graph} {id : Nat} {node : Node} :
    graph.get? id = some node ↔ node ∈ graph.nodes ∧ node.id = id := by
  constructor
  · exact mem_nodes_of_get?
  · rintro ⟨h, rfl⟩
    exact get?_eq_some h

end ErDiagram.Graph
