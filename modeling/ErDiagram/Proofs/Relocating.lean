import ErDiagram.Builder
import ErDiagram.Proofs.References

/-!
Constructs under other ids. A declaration takes ids in a row, so behind other declarations it takes
another row of them. If the names that it mentions lead to the same declarations there, under their
new ids, then its constructs are the same, with ids, links and the names that are made from ids
replaced.
-/

namespace ErDiagram

variable {σ : Nat → Nat} {kind : Node.Kind}

/-! ### Nodes under other ids -/

/-- The name of a construct of a kind that takes an id: primary keys and branches are named after
their ids, and others keep their name. -/
def Node.Kind.nameAt (kind : Node.Kind) (name : String) (id : Nat) : String :=
  match Builder.leafSuffix? kind with
  | some suffix => id.repr ++ "_" ++ suffix
  | none => name

def Node.renumber (σ : Nat → Nat) (node : Node) : Node :=
  { node with
    id := σ node.id
    name := node.kind.nameAt node.name (σ node.id)
    links := node.links.map σ }

/-- Some ids in a row are replaced by ids in a row. -/
def Shifts (σ : Nat → Nat) (start image count : Nat) : Prop :=
  ∀ index < count, σ (start + index) = image + index

namespace Shifts

variable {start image count : Nat}

theorem first (h : Shifts σ start image count) (hcount : 0 < count) : σ start = image :=
  h 0 hcount

theorem within (h : Shifts σ start image count) (skipped : Nat) {part : Nat}
    (hpart : skipped + part ≤ count) : Shifts σ (start + skipped) (image + skipped) part := by
  intro index hindex
  rw [Nat.add_assoc, Nat.add_assoc]
  exact h (skipped + index) (by omega)

end Shifts

/-! ### Trees -/

/-- The name of a construct depends on its id only as that of its kind does. -/
def Label.Proper (label : Label) : Prop :=
  ∀ id other, label.kind.nameAt (label.name id) other = label.name other

namespace Tree

/-- All names in a tree depend on ids only as those of their kinds do. -/
inductive Proper : Tree → Prop where
  | mk {label : Label} {inside : List Tree} (hlabel : label.Proper)
    (hinside : ∀ tree ∈ inside, tree.Proper) : Proper ⟨label, inside⟩

mutual

def relink (σ : Nat → Nat) : Tree → Tree
  | ⟨label, inside⟩ => ⟨{ label with mentions := label.mentions.map σ }, relinkAll σ inside⟩

def relinkAll (σ : Nat → Nat) : List Tree → List Tree
  | [] => []
  | tree :: rest => tree.relink σ :: relinkAll σ rest

end

theorem relinkAll_eq_map (trees : List Tree) : relinkAll σ trees = trees.map (relink σ) := by
  induction trees with
  | nil => rfl
  | cons tree rest ih => rw [relinkAll, ih, List.map_cons]

mutual

theorem size_relink : ∀ tree : Tree, (tree.relink σ).size = tree.size
  | ⟨label, inside⟩ => by rw [relink, size, size, sizes_relinkAll inside]

theorem sizes_relinkAll : ∀ trees : List Tree, sizes (relinkAll σ trees) = sizes trees
  | [] => rfl
  | tree :: rest => by rw [relinkAll, sizes, sizes, size_relink tree, sizes_relinkAll rest]

end

theorem roots_relinkAll {id id' : Nat} {trees : List Tree} (h : Shifts σ id id' (sizes trees)) :
    roots id' (relinkAll σ trees) = (roots id trees).map σ := by
  induction trees generalizing id id' with
  | nil => rfl
  | cons tree rest ih =>
      have hpos := tree.size_pos
      rw [sizes] at h
      rw [relinkAll, roots, roots, List.map_cons, size_relink, h.first (by omega),
        ih (h.within tree.size (Nat.le_refl _))]

mutual

/-- A tree with what it mentions replaced has the same nodes, but for ids and what depends on
them. -/
theorem nodes_relink {id id' : Nat} : ∀ tree : Tree, tree.Proper → Shifts σ id id' tree.size →
    (tree.relink σ).nodes id' = (tree.nodes id).map (Node.renumber σ)
  | ⟨label, inside⟩, ⟨hlabel, hinside⟩, h => by
      have hrest : Shifts σ (id + 1) (id' + 1) (sizes inside) := by
        refine h.within 1 ?_
        rw [size, Nat.add_comm]
      have hroot : rootNode id' (relink σ ⟨label, inside⟩) =
          (rootNode id ⟨label, inside⟩).renumber σ := by
        rw [relink, rootNode, rootNode, Node.renumber, h.first (size_pos _), hlabel,
          roots_relinkAll hrest, List.map_append]
      rw [nodes, List.map_cons, ← hroot, ← nodes_relinkAll inside hinside hrest]
      rfl

theorem nodes_relinkAll {id id' : Nat} : ∀ trees : List Tree, (∀ tree ∈ trees, tree.Proper) →
    Shifts σ id id' (sizes trees) →
      allNodes id' (relinkAll σ trees) = (allNodes id trees).map (Node.renumber σ)
  | [], _, _ => rfl
  | tree :: rest, hproper, h => by
      obtain ⟨hfirst, hrest⟩ := List.forall_mem_cons.1 hproper
      rw [sizes] at h
      have hshift : Shifts σ id id' tree.size := h.within 0 (by omega)
      rw [relinkAll, allNodes, allNodes, List.map_append, nodes_relink tree hfirst hshift, size_relink,
        nodes_relinkAll rest hrest (h.within tree.size (Nat.le_refl _))]

end

end Tree

/-! ### Names that depend on ids -/

theorem Tree.proper_leaf {label : Label} (h : label.Proper) : Proper ⟨label, []⟩ :=
  .mk h fun _ hnone => nomatch hnone

theorem Clause.proper_keyLabel (id : Nat) (before : List (Clause kind)) (names : List String) :
    (keyLabel id before names).Proper := by
  intro _ other
  change other.repr ++ "_" ++ "pk" = other.repr ++ "_pk"
  rw [String.append_assoc]
  rfl

theorem Clause.proper_branchLabel (earlier : Diagram) (entity : String) (cardinality : Cardinality) :
    (branchLabel earlier entity cardinality).Proper := by
  intro _ other
  change other.repr ++ "_" ++ "card" = other.repr ++ "_card"
  rw [String.append_assoc]
  rfl

namespace Attribute

mutual

theorem proper_tree : ∀ owned : Attribute, owned.tree.Proper
  | ⟨name, cardinality, inside⟩ => by
      rw [tree]
      exact .mk (fun _ _ => rfl) (proper_trees inside)

theorem proper_trees : ∀ attributes : List Attribute, ∀ tree ∈ trees attributes, tree.Proper
  | [], tree, h => by cases h
  | first :: rest, tree, h => by
      rw [trees] at h
      rcases List.mem_cons.1 h with rfl | h
      · exact proper_tree first
      · exact proper_trees rest tree h

end

mutual

/-- Attributes mention nothing. -/
theorem relink_tree : ∀ owned : Attribute, owned.tree.relink σ = owned.tree
  | ⟨name, cardinality, inside⟩ => by
      rw [tree, Tree.relink, relinkAll_trees inside]
      rfl

theorem relinkAll_trees : ∀ attributes : List Attribute,
    Tree.relinkAll σ (trees attributes) = trees attributes
  | [] => rfl
  | first :: rest => by rw [trees, Tree.relinkAll, relink_tree first, relinkAll_trees rest]

end

end Attribute

theorem Declaration.proper_tree (earlier : Diagram) (declaration : Declaration) :
    (declaration.tree earlier).Proper := by
  refine .mk (fun _ _ => ?_) fun tree htree => ?_
  · cases declaration <;> rfl
  · obtain ⟨front, back, hsplit⟩ := List.append_of_mem htree
    obtain ⟨before, clause, after, -, hclause, -⟩ := Clause.split_trees hsplit
    rcases Clause.tree?_cases hclause with ⟨owned, -, rfl⟩ | ⟨names, -, -, rfl⟩ |
      ⟨entity, cardinality, -, -, rfl⟩
    · exact owned.proper_tree
    · exact Tree.proper_leaf (Clause.proper_keyLabel _ _ _)
    · exact Tree.proper_leaf (Clause.proper_branchLabel _ _ _)

theorem Diagram.proper_trees (diagram : Diagram) : ∀ tree ∈ diagram.trees, tree.Proper := by
  intro tree htree
  obtain ⟨front, back, hsplit⟩ := List.append_of_mem htree
  obtain ⟨before, declaration, -, -, rfl, -⟩ := split_trees_of_eq hsplit
  exact declaration.proper_tree before

/-! ### Declarations behind other declarations -/

/-- A declaration with its id replaced. -/
def relocate (σ : Nat → Nat) (place : Nat × Declaration) : Nat × Declaration :=
  (σ place.1, place.2)

namespace Clause

/-- The ids of attributes are replaced with that of the construct that has them. -/
theorem lookup_attributeIds {id id' : Nat} {clauses : List (Clause kind)}
    (h : Shifts σ id id' (sizes clauses + 1)) (name : String) :
    (attributeIds id' clauses).lookup name = ((attributeIds id clauses).lookup name).map σ := by
  induction clauses using List.reverseRecOn with
  | nil => rfl
  | append_singleton front clause ih =>
      rw [sizes_concat] at h
      have hfront : Shifts σ id id' (sizes front + 1) := h.within 0 (by omega)
      rw [attributeIds_concat, attributeIds_concat, List.lookup_append, List.lookup_append,
        ih hfront, Option.map_or]
      congr 1
      cases hclause : clause.attribute? with
      | none => rfl
      | some owned =>
          have hpos := (tree?_of_attribute? [] id front hclause).2
          have hid : σ (id + 1 + sizes front) = id' + 1 + sizes front := by
            rw [Nat.add_assoc, Nat.add_assoc]
            exact h (1 + sizes front) (by omega)
          cases hname : name == owned.name <;> simp [List.lookup_cons, hname, hid]

/-- The names that a clause mentions lead to the same declarations under replaced ids. -/
structure Moves (σ : Nat → Nat) (earlier image : Diagram) (clause : Clause kind) : Prop where
  place : ∀ kind name, clause.mentioned? = some (kind, name) →
    image.place? kind name = (earlier.place? kind name).map (relocate σ)
  blocks : ∀ place ∈ earlier.places, Shifts σ place.1 (σ place.1) place.2.size

namespace Moves

variable {earlier image : Diagram} {clause : Clause kind}

theorem ids (h : clause.Moves σ earlier image) {other : Node.Kind} {name : String}
    (hmentioned : clause.mentioned? = some (other, name)) :
    image.ids other name = (earlier.ids other name).map σ := by
  rw [Diagram.ids, Diagram.ids, h.place other name hmentioned]
  cases earlier.place? other name <;> rfl

theorem mentions (h : clause.Moves σ earlier image) :
    clause.mentions image = (clause.mentions earlier).map σ := by
  cases clause with
  | attr | key | branch => rfl
  | parent | child | between | across => exact h.ids rfl
  | attributeOf name entity =>
      rw [Clause.mentions, Clause.mentions, h.place _ _ rfl]
      cases hplace : earlier.place? .entity entity with
      | none => rfl
      | some place =>
          have hblock := h.blocks place (List.mem_of_find?_eq_some hplace)
          change ((attributeIds (σ place.1) place.2.clauses).lookup name).toList = _
          rw [lookup_attributeIds hblock]
          cases h : (attributeIds place.1 place.2.clauses).lookup name <;> simp [h]

theorem tree? (h : clause.Moves σ earlier image) {id id' : Nat} {before : List (Clause kind)}
    (hrow : Shifts σ id id' (sizes before + 1)) :
    (clause.tree? image id' before) = (clause.tree? earlier id before).map (Tree.relink σ) := by
  cases clause with
  | attr holds owned => exact congrArg some owned.relink_tree.symm
  | key names =>
      have hwords : keyLabel id' before names =
          { keyLabel id before names with mentions := (keyLabel id before names).mentions.map σ } := by
        rw [keyLabel, keyLabel]
        congr 1
        rw [List.map_filterMap]
        exact List.filterMap_congr fun name _ => lookup_attributeIds hrow name
      rw [Clause.tree?, Clause.tree?, hwords]
      rfl
  | branch entity cardinality =>
      have hwords : branchLabel image entity cardinality =
          { branchLabel earlier entity cardinality with
            mentions := (branchLabel earlier entity cardinality).mentions.map σ } := by
        rw [branchLabel, branchLabel, h.ids rfl]
      rw [Clause.tree?, Clause.tree?, hwords]
      rfl
  | parent | child | attributeOf | between | across => rfl

theorem fits (h : clause.Moves σ earlier image) {before : List (Clause kind)}
    (hfits : clause.Fits earlier before) : clause.Fits image before := by
  have hdeclares : ∀ kind name, clause.mentioned? = some (kind, name) →
      earlier.Declares kind name → image.Declares kind name := by
    intro kind name hmentioned hdeclared
    obtain ⟨place, hplace⟩ := Diagram.place?_isSome.2 hdeclared
    refine Diagram.place?_isSome.1 ⟨relocate σ place, ?_⟩
    rw [h.place kind name hmentioned, hplace]
    rfl
  cases clause with
  | attr | key => exact hfits
  | branch | parent | child | between | across => exact hdeclares _ _ rfl hfits
  | attributeOf name entity =>
      obtain ⟨place, hplace, hattr⟩ := hfits
      refine ⟨relocate σ place, ?_, hattr⟩
      rw [h.place _ _ rfl, hplace]
      rfl

end Moves

theorem trees_relink {earlier image : Diagram} {id id' : Nat} {clauses : List (Clause kind)}
    (hmoves : ∀ clause ∈ clauses, clause.Moves σ earlier image)
    (h : Shifts σ id id' (sizes clauses + 1)) :
    trees image id' clauses = Tree.relinkAll σ (trees earlier id clauses) := by
  rw [Tree.relinkAll_eq_map]
  induction clauses using List.reverseRecOn with
  | nil => rfl
  | append_singleton front clause ih =>
      rw [sizes_concat] at h
      have hfront : Shifts σ id id' (sizes front + 1) := h.within 0 (by omega)
      rw [List.forall_mem_append, List.forall_mem_singleton] at hmoves
      rw [trees_concat, trees_concat, List.map_append, ih hmoves.1 hfront, hmoves.2.tree? hfront]
      cases clause.tree? earlier id front <;> rfl

end Clause

/-- Behind another list of declarations, a declaration takes the ids that replace its ids, and what
it mentions is declared under the ids that replace those it had. -/
structure Declaration.Moves (σ : Nat → Nat) (earlier image : Diagram) (declaration : Declaration) :
    Prop where
  row : Shifts σ earlier.nextId image.nextId declaration.size
  clauses : ∀ clause ∈ declaration.clauses, clause.Moves σ earlier image

namespace Declaration.Moves

variable {earlier image : Diagram} {declaration : Declaration}
  (h : declaration.Moves σ earlier image)
include h

/-- A declaration that moves has the same constructs, with what they mention replaced. -/
theorem tree : declaration.tree image = (declaration.tree earlier).relink σ := by
  have hmentions : ∀ clause ∈ declaration.clauses,
      clause.mentions image = (clause.mentions earlier).map σ :=
    fun clause hclause => (h.clauses clause hclause).mentions
  rw [Declaration.tree, Declaration.tree, Clause.treeOf, Clause.treeOf, Tree.relink,
    Clause.trees_relink h.clauses h.row, List.map_flatMap]
  congr 2
  exact List.flatMap_congr hmentions

/-- A declaration that moves fits if its name is free. -/
theorem fits (hfits : declaration.Fits earlier)
    (hfree : ¬image.Declares declaration.kind declaration.name) : declaration.Fits image := by
  refine ⟨hfree, fun front clause back hclauses => ?_⟩
  have hclause : clause ∈ declaration.clauses := by simp [hclauses]
  exact (h.clauses clause hclause).fits (hfits.2 front clause back hclauses)

end Declaration.Moves

end ErDiagram
