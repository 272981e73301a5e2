import ErDiagram.Graph

/-!
Trees of constructs, and the nodes that they become. The constructs of a tree are numbered in order:
each before what it contains, and that from left to right. So a tree takes as many ids in a row as
it has constructs, and its nodes come out by ascending id.
-/

namespace ErDiagram

/-- What is known of a construct before it is numbered: its name may depend on its id, and it may
mention constructs that are numbered already. -/
structure Label where
  kind : Node.Kind
  name : Nat → String
  mentions : List Nat
  cardinality : Option Cardinality
  hierarchyType : Option HierarchyType

/-- A construct and the constructs that it contains. -/
inductive Tree where
  | mk (label : Label) (inside : List Tree)

namespace Tree

def label : Tree → Label
  | ⟨label, _⟩ => label

mutual

def size : Tree → Nat
  | ⟨_, inside⟩ => sizes inside + 1

def sizes : List Tree → Nat
  | [] => 0
  | tree :: rest => tree.size + sizes rest

end

def roots (id : Nat) : List Tree → List Nat
  | [] => []
  | tree :: rest => id :: roots (id + tree.size) rest

/-- The node that the root of a tree becomes. -/
def rootNode (id : Nat) : Tree → Node
  | ⟨label, inside⟩ =>
    ⟨label.kind, id, label.name id, roots (id + 1) inside ++ label.mentions, label.cardinality,
      label.hierarchyType⟩

mutual

def nodes (id : Nat) : Tree → List Node
  | ⟨label, inside⟩ => rootNode id ⟨label, inside⟩ :: allNodes (id + 1) inside

def allNodes (id : Nat) : List Tree → List Node
  | [] => []
  | tree :: rest => tree.nodes id ++ allNodes (id + tree.size) rest

end

@[simp] theorem id_rootNode (id : Nat) (tree : Tree) : (tree.rootNode id).id = id := by
  cases tree
  rfl

theorem size_pos (tree : Tree) : 0 < tree.size := by
  cases tree
  exact Nat.succ_pos _

theorem nodes_eq_cons (id : Nat) (tree : Tree) :
    ∃ rest, tree.nodes id = tree.rootNode id :: rest := by
  cases tree
  exact ⟨_, rfl⟩

theorem sizes_append (front back : List Tree) : sizes (front ++ back) = sizes front + sizes back := by
  induction front with
  | nil => exact (Nat.zero_add _).symm
  | cons tree front ih => rw [List.cons_append, sizes, sizes, ih, Nat.add_assoc]

theorem roots_append (id : Nat) (front back : List Tree) :
    roots id (front ++ back) = roots id front ++ roots (id + sizes front) back := by
  induction front generalizing id with
  | nil => rfl
  | cons tree front ih =>
      rw [List.cons_append, roots, roots, ih, sizes, Nat.add_assoc, List.cons_append]

theorem allNodes_append (id : Nat) (front back : List Tree) :
    allNodes id (front ++ back) = allNodes id front ++ allNodes (id + sizes front) back := by
  induction front generalizing id with
  | nil => rfl
  | cons tree front ih =>
      rw [List.cons_append, allNodes, allNodes, ih, sizes, Nat.add_assoc, List.append_assoc]

mutual

/-- A tree takes as many ids in a row as it has constructs. -/
theorem ids_nodes (id : Nat) : ∀ tree : Tree,
    (tree.nodes id).map (·.id) = List.range' id tree.size
  | ⟨label, inside⟩ => by
      rw [nodes, List.map_cons, ids_allNodes (id + 1) inside, size, List.range'_succ, id_rootNode]

theorem ids_allNodes (id : Nat) : ∀ trees : List Tree,
    (allNodes id trees).map (·.id) = List.range' id (sizes trees)
  | [] => rfl
  | tree :: rest => by
      rw [allNodes, List.map_append, ids_nodes id tree, ids_allNodes (id + tree.size) rest, sizes,
        ← List.range'_append_1]

end

theorem mem_allNodes_iff {id : Nat} {trees : List Tree} {node : Node} :
    node ∈ allNodes id trees ↔
      ∃ front tree back, trees = front ++ tree :: back ∧
        node ∈ tree.nodes (id + sizes front) := by
  induction trees generalizing id with
  | nil =>
      constructor
      · intro h
        cases h
      · rintro ⟨front, tree, back, h, -⟩
        cases front <;> cases h
  | cons first rest ih =>
      rw [allNodes, List.mem_append, ih]
      constructor
      · rintro (h | ⟨front, tree, back, rfl, h⟩)
        · exact ⟨[], first, rest, rfl, h⟩
        · exact ⟨first :: front, tree, back, rfl, by rwa [sizes, ← Nat.add_assoc]⟩
      · rintro ⟨front, tree, back, heq, h⟩
        cases front with
        | nil =>
            cases heq
            exact Or.inl h
        | cons first front =>
            cases heq
            exact Or.inr ⟨front, tree, back, rfl, by rwa [sizes, ← Nat.add_assoc] at h⟩

/-- The ids of trees lie in their row. -/
theorem id_mem_allNodes {id : Nat} {trees : List Tree} {node : Node}
    (h : node ∈ allNodes id trees) : id ≤ node.id ∧ node.id < id + sizes trees := by
  have hid : node.id ∈ (allNodes id trees).map (·.id) := List.mem_map_of_mem h
  rw [ids_allNodes, List.mem_range'_1] at hid
  exact hid

theorem ascending_allNodes (id : Nat) (trees : List Tree) :
    (allNodes id trees).Pairwise (·.id < ·.id) := by
  rw [← List.pairwise_map, ids_allNodes]
  exact List.pairwise_lt_range'

theorem ascending_nodes (id : Nat) (tree : Tree) : (tree.nodes id).Pairwise (·.id < ·.id) := by
  rw [← List.pairwise_map, ids_nodes]
  exact List.pairwise_lt_range'

end Tree
end ErDiagram
