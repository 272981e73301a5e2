import ErDiagram.Proofs.Diagram
import ErDiagram.Proofs.Tree
import Mathlib.Data.List.Induction

/-!
The graph of a diagram. Every declaration is a tree: attributes, primary keys and branches of
associations are constructs inside it, and whatever else its clauses mention are links to constructs
that came before. A name is looked up among the declarations before the one that mentions it, and
the name of an attribute among the clauses of the entity that has it; a name that is not found there
gives no link.
-/

namespace ErDiagram

/-- Goes through some things in order, where each gives something that depends on those before. -/
def inOrder {α β : Type} (gives : List α → α → List β) (before : List α) : List α → List β
  | [] => []
  | thing :: rest => gives before thing ++ inOrder gives (before ++ [thing]) rest

theorem inOrder_append {α β : Type} (gives : List α → α → List β) (before front back : List α) :
    inOrder gives before (front ++ back) =
      inOrder gives before front ++ inOrder gives (before ++ front) back := by
  induction front generalizing before with
  | nil => rw [List.append_nil]; rfl
  | cons thing front ih =>
      rw [List.cons_append, inOrder, inOrder, ih, List.append_assoc, List.append_assoc]
      rfl

theorem inOrder_concat {α β : Type} (gives : List α → α → List β) (front : List α) (thing : α) :
    inOrder gives [] (front ++ [thing]) = inOrder gives [] front ++ gives front thing := by
  rw [inOrder_append, inOrder, inOrder, List.append_nil, List.nil_append]

theorem mem_inOrder {α β : Type} {gives : List α → α → List β} {before things : List α} {b : β} :
    b ∈ inOrder gives before things ↔
      ∃ front thing back, things = front ++ thing :: back ∧ b ∈ gives (before ++ front) thing := by
  induction things generalizing before with
  | nil =>
      constructor
      · intro h
        cases h
      · rintro ⟨front, thing, back, h, -⟩
        cases front <;> cases h
  | cons first rest ih =>
      rw [inOrder, List.mem_append, ih]
      constructor
      · rintro (h | ⟨front, thing, back, rfl, h⟩)
        · exact ⟨[], first, rest, rfl, by rwa [List.append_nil]⟩
        · exact ⟨first :: front, thing, back, rfl, by simpa using h⟩
      · rintro ⟨front, thing, back, heq, h⟩
        cases front with
        | nil =>
            cases heq
            exact Or.inl (by rwa [List.append_nil] at h)
        | cons first front =>
            cases heq
            exact Or.inr ⟨front, thing, back, rfl, by simpa using h⟩

theorem inOrder_map {α β : Type} {gives : List α → α → List β} {f : β → β}
    {before image things : List α} (h : ∀ front thing back, things = front ++ thing :: back →
      gives (image ++ front) thing = (gives (before ++ front) thing).map f) :
    inOrder gives image things = (inOrder gives before things).map f := by
  induction things generalizing before image with
  | nil => rfl
  | cons thing rest ih =>
      have hfirst := h [] thing rest rfl
      rw [List.append_nil, List.append_nil] at hfirst
      rw [inOrder, inOrder, List.map_append, hfirst, ih]
      intro front other back hrest
      rw [List.append_assoc, List.append_assoc]
      exact h (thing :: front) other back (congrArg (thing :: ·) hrest)

/-! ### Attributes and clauses -/

mutual

/-- The construct of an attribute, with those of the attributes inside it. -/
def Attribute.tree : Attribute → Tree
  | ⟨name, cardinality, inside⟩ =>
    ⟨⟨.attribute, fun _ => name, [], cardinality, none⟩, Attribute.trees inside⟩

def Attribute.trees : List Attribute → List Tree
  | [] => []
  | first :: rest => first.tree :: Attribute.trees rest

end

namespace Clause

variable {kind : Node.Kind}

def attribute? : Clause kind → Option Attribute
  | .attr _ owned => some owned
  | _ => none

/-- The names in a primary key. -/
def key? : Clause kind → Option (List String)
  | .key names => some names
  | _ => none

/-- The entity or the association that a clause mentions. -/
def mentioned? : Clause kind → Option (Node.Kind × String)
  | .branch entity _ => some (.entity, entity)
  | .parent entity => some (.entity, entity)
  | .child entity => some (.entity, entity)
  | .attributeOf _ entity => some (.entity, entity)
  | .between entity => some (.entity, entity)
  | .across association => some (.association, association)
  | .attr .. => none
  | .key _ => none

def size : Clause kind → Nat
  | .attr _ owned => owned.tree.size
  | .key _ => 1
  | .branch .. => 1
  | _ => 0

def sizes (clauses : List (Clause kind)) : Nat :=
  (clauses.map size).sum

def attributes (clauses : List (Clause kind)) : List Attribute :=
  clauses.filterMap attribute?

/-- The attributes that the clauses of a construct declare, by name, each with its id. -/
def attributeIds (id : Nat) (clauses : List (Clause kind)) : List (String × Nat) :=
  inOrder (fun before clause =>
    clause.attribute?.toList.map fun owned => (owned.name, id + 1 + sizes before)) [] clauses

end Clause

/-! ### Declarations -/

def Declaration.size (declaration : Declaration) : Nat :=
  Clause.sizes declaration.clauses + 1

def Declaration.attributes (declaration : Declaration) : List Attribute :=
  Clause.attributes declaration.clauses

namespace Diagram

def size (diagram : Diagram) : Nat :=
  (diagram.map Declaration.size).sum

def nextId (diagram : Diagram) : Nat :=
  Node.startId + 1 + diagram.size

/-- The declarations of a diagram, each with its id. -/
def places (diagram : Diagram) : List (Nat × Declaration) :=
  inOrder (fun earlier declaration => [(nextId earlier, declaration)]) [] diagram

/-- The declaration of a name of a kind, with its id. -/
def place? (diagram : Diagram) (kind : Node.Kind) (name : String) : Option (Nat × Declaration) :=
  diagram.places.find? fun place => place.2.kind = kind && place.2.name = name

/-- The ids of the declarations that a name of a kind stands for: one or none. -/
def ids (diagram : Diagram) (kind : Node.Kind) (name : String) : List Nat :=
  ((diagram.place? kind name).map (·.1)).toList

end Diagram

namespace Clause

variable {kind : Node.Kind}

/-- The links that a clause gives to the construct that it is a clause of, other than to a construct
of its own. -/
def mentions (earlier : Diagram) : Clause kind → List Nat
  | .parent entity => earlier.ids .entity entity
  | .child entity => earlier.ids .entity entity
  | .between entity => earlier.ids .entity entity
  | .across association => earlier.ids .association association
  | .attributeOf name entity =>
    ((earlier.place? .entity entity).bind fun place =>
      (attributeIds place.1 place.2.clauses).lookup name).toList
  | _ => []

/-- A primary key of the construct with an id, behind some of its clauses: it mentions attributes
that they declare. -/
def keyLabel (id : Nat) (before : List (Clause kind)) (names : List String) : Label where
  kind := .primaryKey
  name own := own.repr ++ "_pk"
  mentions := names.filterMap fun name => (attributeIds id before).lookup name
  cardinality := none
  hierarchyType := none

/-- A branch of an association: it mentions an entity. -/
def branchLabel (earlier : Diagram) (entity : String) (cardinality : Cardinality) : Label where
  kind := .cardinality
  name own := own.repr ++ "_card"
  mentions := earlier.ids .entity entity
  cardinality := some cardinality
  hierarchyType := none

/-- The construct that a clause declares, given the id of the construct that it is a clause of and
the clauses before it. -/
def tree? (earlier : Diagram) (id : Nat) (before : List (Clause kind)) : Clause kind → Option Tree
  | .attr _ owned => some owned.tree
  | .key names => some ⟨keyLabel id before names, []⟩
  | .branch entity cardinality => some ⟨branchLabel earlier entity cardinality, []⟩
  | _ => none

def trees (earlier : Diagram) (id : Nat) (clauses : List (Clause kind)) : List Tree :=
  inOrder (fun before clause => (clause.tree? earlier id before).toList) [] clauses

/-- A construct with some clauses. -/
def treeOf (earlier : Diagram) (id : Nat) (name : String) (type : Option HierarchyType)
    (clauses : List (Clause kind)) : Tree :=
  ⟨⟨kind, fun _ => name, clauses.flatMap (mentions earlier), none, type⟩, trees earlier id clauses⟩

end Clause

/-- The constructs of a declaration, given those before it. -/
def Declaration.tree (earlier : Diagram) (declaration : Declaration) : Tree :=
  Clause.treeOf earlier earlier.nextId declaration.name declaration.type? declaration.clauses

namespace Diagram

def trees (diagram : Diagram) : List Tree :=
  inOrder (fun earlier declaration => [declaration.tree earlier]) [] diagram

def tree (diagram : Diagram) : Tree :=
  ⟨⟨.start, fun _ => "start", [], none, none⟩, diagram.trees⟩

def graph (diagram : Diagram) : Graph :=
  ⟨diagram.tree.nodes Node.startId, Tree.ascending_nodes _ _⟩

end Diagram

/-! ### Trees one by one, and sizes -/

theorem Clause.sizes_toList_tree? {kind : Node.Kind} (earlier : Diagram) (id : Nat)
    (before : List (Clause kind)) (clause : Clause kind) :
    Tree.sizes (clause.tree? earlier id before).toList = clause.size := by
  cases clause <;> rfl

theorem Clause.sizes_concat {kind : Node.Kind} (front : List (Clause kind)) (clause : Clause kind) :
    sizes (front ++ [clause]) = sizes front + clause.size := by
  simp [sizes]

theorem Clause.trees_concat {kind : Node.Kind} (earlier : Diagram) (id : Nat)
    (front : List (Clause kind)) (clause : Clause kind) :
    trees earlier id (front ++ [clause]) =
      trees earlier id front ++ (clause.tree? earlier id front).toList :=
  inOrder_concat _ _ _

theorem Clause.sizes_trees {kind : Node.Kind} (earlier : Diagram) (id : Nat)
    (clauses : List (Clause kind)) : Tree.sizes (trees earlier id clauses) = sizes clauses := by
  induction clauses using List.reverseRecOn with
  | nil => rfl
  | append_singleton front clause ih =>
      rw [trees_concat, Tree.sizes_append, sizes_toList_tree?, sizes_concat, ih]

theorem Declaration.size_tree (earlier : Diagram) (declaration : Declaration) :
    (declaration.tree earlier).size = declaration.size := by
  rw [tree, Clause.treeOf, Tree.size, Clause.sizes_trees]
  rfl

theorem Diagram.size_concat (front : Diagram) (declaration : Declaration) :
    Diagram.size (front ++ [declaration]) = front.size + declaration.size := by
  simp [size]

theorem Diagram.trees_concat (front : Diagram) (declaration : Declaration) :
    trees (front ++ [declaration]) = front.trees ++ [declaration.tree front] :=
  inOrder_concat _ _ _

theorem Diagram.sizes_trees (diagram : Diagram) : Tree.sizes diagram.trees = diagram.size := by
  induction diagram using List.reverseRecOn with
  | nil => rfl
  | append_singleton front declaration ih =>
      rw [trees_concat, Tree.sizes_append, size_concat, Tree.sizes, Tree.sizes,
        Declaration.size_tree, ih]
      rfl

end ErDiagram
