import ErDiagram.Proofs.Insertion
import ErDiagram.Proofs.Tree
import Mathlib.Data.List.Perm.Basic

/-!
Which links of a node lead to what it contains, and which to what it mentions, is settled by its
kind. In the nodes of a tree of constructs, what is contained makes up that tree again: everything
is contained once, and going through it from the root finds the ids in their order.
-/

namespace ErDiagram

namespace Node

/-- A construct of one kind may contain constructs of another. -/
def Kind.holds : Kind → Kind → Bool
  | .start, .entity => true
  | .start, .association => true
  | .start, .hierarchy => true
  | .start, .foreignKey => true
  | .entity, .attribute => true
  | .entity, .primaryKey => true
  | .association, .attribute => true
  | .association, .cardinality => true
  | .attribute, .attribute => true
  | _, _ => false

/-- A construct of this kind may contain constructs. -/
def Kind.isContainer : Kind → Bool
  | .start => true
  | .entity => true
  | .association => true
  | .attribute => true
  | _ => false

def contained (node : Node) : List Nat :=
  if node.kind.isContainer then node.links else []

def mentioned (node : Node) : List Nat :=
  if node.kind.isContainer then [] else node.links

theorem contained_eq_links {node : Node} (h : node.kind.isContainer = true) :
    node.contained = node.links :=
  if_pos h

theorem mentioned_eq_links {node : Node} (h : node.kind.isContainer = false) :
    node.mentioned = node.links :=
  if_neg (by rw [h]; decide)

end Node

/-- Going through the nodes with some ids, each before the nodes that it contains and all those
before the next, meets the nodes with some ids. -/
inductive Graph.Visits (graph : Graph) : List Nat → List Nat → Prop where
  | nil : graph.Visits [] []
  | cons {id : Nat} {node : Node} {rest inside after : List Nat} (hnode : graph.get? id = some node)
    (hinside : graph.Visits node.contained inside) (hrest : graph.Visits rest after) :
    graph.Visits (id :: rest) (id :: (inside ++ after))

namespace Tree

/-! ### Trees in a graph -/

/-- A graph has the nodes of some trees. -/
def In (graph : Graph) (id : Nat) (trees : List Tree) : Prop :=
  ∀ node ∈ allNodes id trees, node ∈ graph.nodes

theorem In.inside {graph : Graph} {id : Nat} {label : Label} {inside rest : List Tree}
    (h : In graph id (⟨label, inside⟩ :: rest)) : In graph (id + 1) inside := by
  intro node hnode
  refine h node ?_
  rw [allNodes]
  exact List.mem_append_left _ (List.mem_cons_of_mem _ hnode)

theorem In.rest {graph : Graph} {id : Nat} {tree : Tree} {rest : List Tree}
    (h : In graph id (tree :: rest)) : In graph (id + tree.size) rest := by
  intro node hnode
  refine h node ?_
  rw [allNodes]
  exact List.mem_append_right _ hnode

theorem In.get?_root {graph : Graph} {id : Nat} {tree : Tree} {rest : List Tree}
    (h : In graph id (tree :: rest)) : graph.get? id = some (tree.rootNode id) := by
  obtain ⟨more, hnodes⟩ := nodes_eq_cons id tree
  refine Graph.get?_iff.2 ⟨h _ ?_, id_rootNode id tree⟩
  rw [allNodes, hnodes]
  exact List.mem_cons_self

def rootNodes (id : Nat) : List Tree → List Node
  | [] => []
  | tree :: rest => tree.rootNode id :: rootNodes (id + tree.size) rest

theorem rootNodes_append (id : Nat) (front back : List Tree) :
    rootNodes id (front ++ back) = rootNodes id front ++ rootNodes (id + sizes front) back := by
  induction front generalizing id with
  | nil => rfl
  | cons tree front ih =>
      rw [List.cons_append, rootNodes, rootNodes, ih, sizes, Nat.add_assoc, List.cons_append]

/-- The links to the roots of trees lead to their nodes. -/
theorem In.filterMap_roots {graph : Graph} {id : Nat} {trees : List Tree} (h : In graph id trees) :
    (roots id trees).filterMap graph.get? = rootNodes id trees := by
  induction trees generalizing id with
  | nil => rfl
  | cons tree rest ih => rw [roots, List.filterMap_cons, h.get?_root, rootNodes, ih h.rest]

/-! ### What is contained -/

/-- A tree in which constructs contain only what their kind may contain, and only constructs that
cannot contain any mention some. -/
inductive Orderly : Tree → Prop where
  | mk {label : Label} {inside : List Tree}
    (hmentions : label.kind.isContainer = true → label.mentions = [])
    (hinside : label.kind.isContainer = false → inside = [])
    (hholds : ∀ tree ∈ inside, label.kind.holds tree.label.kind = true)
    (horderly : ∀ tree ∈ inside, tree.Orderly) : Orderly ⟨label, inside⟩

theorem contained_rootNode {label : Label} {inside : List Tree} (h : Orderly ⟨label, inside⟩)
    (id : Nat) : (rootNode id ⟨label, inside⟩).contained = roots (id + 1) inside := by
  obtain ⟨hmentions, hinside, -, -⟩ := h
  unfold Node.contained rootNode
  dsimp only
  by_cases hkind : label.kind.isContainer
  · rw [if_pos hkind, hmentions hkind, List.append_nil]
  · rw [if_neg hkind, hinside (by simpa using hkind)]
    rfl

theorem mentioned_rootNode {label : Label} {inside : List Tree} (h : Orderly ⟨label, inside⟩)
    (id : Nat) : (rootNode id ⟨label, inside⟩).mentioned = label.mentions := by
  obtain ⟨hmentions, hinside, -, -⟩ := h
  unfold Node.mentioned rootNode
  dsimp only
  by_cases hkind : label.kind.isContainer
  · rw [if_pos hkind, hmentions hkind]
  · rw [if_neg hkind, hinside (by simpa using hkind)]
    rfl

/-- The ids that the nodes of a graph contain, counted as often as they occur. -/
def allContained (nodes : List Node) : List Nat :=
  nodes.flatMap Node.contained

mutual

/-- In the nodes of an orderly tree, everything but the root is contained once. -/
theorem perm_contained (id : Nat) : ∀ tree : Tree, tree.Orderly →
    (id :: allContained (tree.nodes id)).Perm (List.range' id tree.size)
  | ⟨label, inside⟩, h => by
      have hrest := perm_allContained (id + 1) inside (by cases h with | mk _ _ _ h => exact h)
      rw [nodes, size, List.range'_succ, allContained, List.flatMap_cons, contained_rootNode h]
      exact hrest.cons id

/-- In the nodes of orderly trees, everything but the roots is contained once. -/
theorem perm_allContained (id : Nat) : ∀ trees : List Tree, (∀ tree ∈ trees, tree.Orderly) →
    (roots id trees ++ allContained (allNodes id trees)).Perm (List.range' id (sizes trees))
  | [], _ => List.Perm.nil
  | tree :: rest, h => by
      obtain ⟨htree, hrest⟩ := List.forall_mem_cons.1 h
      have hfront := perm_contained id tree htree
      have hback := perm_allContained (id + tree.size) rest hrest
      rw [roots, allNodes, allContained, List.flatMap_append, sizes, ← List.range'_append_1]
      refine List.Perm.trans ?_ (hfront.append hback)
      exact (List.perm_append_comm_assoc _ _ _).cons id

end

mutual

/-- Going through an orderly tree that is in a graph meets its ids in their order. -/
theorem visits_tree {graph : Graph} (id : Nat) : ∀ tree : Tree, tree.Orderly → In graph id [tree] →
    ∀ {rest after : List Nat}, graph.Visits rest after →
      graph.Visits (id :: rest) (List.range' id tree.size ++ after)
  | ⟨label, inside⟩, h, hin, rest, after, hrest => by
      have hinside := visits_trees (id + 1) inside (by cases h with | mk _ _ _ h => exact h)
        hin.inside
      rw [← contained_rootNode h] at hinside
      rw [size, List.range'_succ]
      exact .cons hin.get?_root hinside hrest

theorem visits_trees {graph : Graph} (id : Nat) : ∀ trees : List Tree,
    (∀ tree ∈ trees, tree.Orderly) → In graph id trees →
      graph.Visits (roots id trees) (List.range' id (sizes trees))
  | [], _, _ => .nil
  | tree :: rest, h, hin => by
      obtain ⟨htree, hrest⟩ := List.forall_mem_cons.1 h
      have hfirst : In graph id [tree] := by
        intro node hnode
        rw [allNodes, allNodes, List.append_nil] at hnode
        exact hin node (by rw [allNodes]; exact List.mem_append_left _ hnode)
      rw [roots, sizes, ← List.range'_append_1]
      exact visits_tree id tree htree hfirst (visits_trees (id + tree.size) rest hrest hin.rest)

end

/-! ### Parts of trees -/

/-- A tree that is another one or stands inside it, each with the id of its root. -/
inductive Part : Nat → Tree → Nat → Tree → Prop where
  | self {id : Nat} {tree : Tree} : Part id tree id tree
  | inside {id place : Nat} {label : Label} {front back : List Tree} {child part : Tree}
    (h : Part (id + 1 + sizes front) child place part) :
    Part id ⟨label, front ++ child :: back⟩ place part

theorem Part.nodes_subset {id place : Nat} {tree part : Tree} (h : Part id tree place part) :
    part.nodes place ⊆ tree.nodes id := by
  induction h with
  | self => exact List.Subset.refl _
  | @inside id place label front back child part _ ih =>
      refine List.Subset.trans ih fun node hnode => ?_
      rw [nodes]
      exact List.mem_cons_of_mem _ (mem_allNodes_iff.2 ⟨front, child, back, rfl, hnode⟩)

theorem Part.rootNode_mem {id place : Nat} {tree part : Tree} (h : Part id tree place part) :
    part.rootNode place ∈ tree.nodes id := by
  obtain ⟨rest, hnodes⟩ := nodes_eq_cons place part
  exact h.nodes_subset (hnodes ▸ List.mem_cons_self)

theorem Part.orderly {id place : Nat} {tree part : Tree} (h : Part id tree place part)
    (htree : tree.Orderly) : part.Orderly := by
  induction h with
  | self => exact htree
  | inside _ ih =>
      obtain ⟨-, -, -, horderly⟩ := htree
      exact ih (horderly _ (by simp))

mutual

theorem exists_part (id : Nat) : ∀ (tree : Tree) (node : Node), node ∈ tree.nodes id →
    ∃ place part, Part id tree place part ∧ node = part.rootNode place
  | ⟨label, inside⟩, node, h => by
      rw [nodes] at h
      rcases List.mem_cons.1 h with rfl | h
      · exact ⟨id, _, .self, rfl⟩
      · obtain ⟨front, child, back, rfl, place, part, hpart, hnode⟩ :=
          exists_part_of_mem (id + 1) inside node h
        exact ⟨place, part, .inside hpart, hnode⟩

theorem exists_part_of_mem (id : Nat) : ∀ (trees : List Tree) (node : Node),
    node ∈ allNodes id trees →
      ∃ front tree back, trees = front ++ tree :: back ∧
        ∃ place part, Part (id + sizes front) tree place part ∧ node = part.rootNode place
  | [], node, h => by cases h
  | tree :: rest, node, h => by
      rw [allNodes] at h
      rcases List.mem_append.1 h with h | h
      · exact ⟨[], tree, rest, rfl, exists_part id tree node h⟩
      · obtain ⟨front, child, back, rfl, hpart⟩ :=
          exists_part_of_mem (id + tree.size) rest node h
        exact ⟨tree :: front, child, back, rfl, by rwa [sizes, ← Nat.add_assoc]⟩

end

/-- The nodes of a tree are the roots of its parts. -/
theorem mem_nodes_iff {id : Nat} {tree : Tree} {node : Node} :
    node ∈ tree.nodes id ↔ ∃ place part, Part id tree place part ∧ node = part.rootNode place := by
  constructor
  · exact exists_part id tree node
  · rintro ⟨place, part, hpart, rfl⟩
    exact hpart.rootNode_mem

end Tree
end ErDiagram
