import ErDiagram.Builder
import ErDiagram.Proofs.Validity

/-!
Names and ids. The scope of a builder binds the newest name first; where names are distinct this is
the order of no consequence, and a scope gives the id that the construct of a name has in the
drawing.
-/

namespace ErDiagram

/-- Where at most one element of a list passes a test, it is found from either end. -/
theorem find?_reverse_of_unique {α : Type} {p : α → Bool} {things : List α}
    (h : things.Pairwise fun a b => ¬(p a ∧ p b)) : things.reverse.find? p = things.find? p := by
  induction things with
  | nil => rfl
  | cons first rest ih =>
      obtain ⟨hfirst, hrest⟩ := List.pairwise_cons.1 h
      rw [List.reverse_cons, List.find?_append, ih hrest]
      by_cases hp : p first
      · have hnone : rest.find? p = none := by
          rw [List.find?_eq_none]
          exact fun other hother hq => hfirst other hother ⟨hp, hq⟩
        simp [hnone, hp]
      · simp [hp]

namespace Diagram

/-- The scope of the start node behind some declarations. -/
def scope (diagram : Diagram) : Scope :=
  ⟨(diagram.places.map fun place => ⟨place.2.kind, place.2.name, place.1⟩).reverse⟩

theorem places_concat (front : Diagram) (declaration : Declaration) :
    places (front ++ [declaration]) = front.places ++ [(front.nextId, declaration)] :=
  inOrder_concat _ _ _

theorem map_snd_places (diagram : Diagram) : diagram.places.map (·.2) = diagram := by
  induction diagram using List.reverseRecOn with
  | nil => rfl
  | append_singleton front declaration ih => rw [places_concat, List.map_append, ih]; rfl

theorem mem_places {diagram : Diagram} {place : Nat × Declaration} (h : place ∈ diagram.places) :
    place.2 ∈ diagram := by
  have hmem := List.mem_map_of_mem (f := fun place : Nat × Declaration => place.2) h
  rwa [map_snd_places] at hmem

theorem scope_concat (front : Diagram) (declaration : Declaration) :
    scope (front ++ [declaration]) =
      front.scope.bind declaration.kind declaration.name front.nextId := by
  rw [scope, places_concat, List.map_append, List.reverse_append]
  rfl

/-- A name is found exactly if it is declared. -/
theorem place?_isSome {diagram : Diagram} {kind : Node.Kind} {name : String} :
    (∃ place, diagram.place? kind name = some place) ↔ diagram.Declares kind name := by
  rw [← Option.isSome_iff_exists, place?, List.find?_isSome]
  constructor
  · rintro ⟨place, hplace, h⟩
    exact ⟨place.2, mem_places hplace, by simpa using h⟩
  · rintro ⟨declaration, hdeclaration, h⟩
    rw [← map_snd_places diagram] at hdeclaration
    obtain ⟨place, hplace, rfl⟩ := List.mem_map.1 hdeclaration
    exact ⟨place, hplace, by simpa using h⟩

/-- A declaration that is found stands somewhere in the diagram. -/
theorem split_of_place? {diagram : Diagram} {other : Node.Kind} {word : String}
    {place : Nat × Declaration} (h : diagram.place? other word = some place) :
    place.2.kind = other ∧ place.2.name = word ∧
      ∃ front back, diagram = front ++ place.2 :: back ∧ place.1 = front.nextId := by
  have hfound := List.find?_some h
  simp only [Bool.and_eq_true, decide_eq_true_eq] at hfound
  obtain ⟨front, declaration, back, hsplit, hplace⟩ :=
    mem_inOrder.1 (List.mem_of_find?_eq_some h)
  rw [List.nil_append, List.mem_singleton] at hplace
  subst hplace
  exact ⟨hfound.1, hfound.2, front, back, hsplit, rfl⟩

/-- Where names are distinct, the scope gives the id of the declaration of a name. -/
theorem get?_scope {diagram : Diagram} (hnames : (diagram.map fun declaration =>
    (declaration.kind, declaration.name)).Nodup) (kind : Node.Kind) (name : String) :
    diagram.scope.get? kind name = (diagram.place? kind name).map (·.1) := by
  have hpairs : diagram.places.Pairwise fun a b =>
      (a.2.kind, a.2.name) ≠ (b.2.kind, b.2.name) := by
    rw [← map_snd_places diagram, List.map_map] at hnames
    exact List.pairwise_map.1 hnames
  rw [Scope.get?, scope, find?_reverse_of_unique, List.find?_map, Option.map_map, place?]
  · rfl
  · refine List.pairwise_map.2 (hpairs.imp fun {a b} hne h => hne ?_)
    simp only [Bool.and_eq_true, decide_eq_true_eq] at h
    rw [h.1.1, h.1.2, h.2.1, h.2.2]

end Diagram

namespace Clause

variable {kind : Node.Kind}

/-- The scope of a construct behind some clauses. -/
def scope (id : Nat) (clauses : List (Clause kind)) : Scope :=
  ⟨((attributeIds id clauses).map fun attr => ⟨.attribute, attr.1, attr.2⟩).reverse⟩

theorem attributeIds_concat (id : Nat) (front : List (Clause kind)) (clause : Clause kind) :
    attributeIds id (front ++ [clause]) = attributeIds id front ++
      clause.attribute?.toList.map fun owned => (owned.name, id + 1 + sizes front) :=
  inOrder_concat _ _ _

theorem attributes_concat (front : List (Clause kind)) (clause : Clause kind) :
    attributes (front ++ [clause]) = attributes front ++ clause.attribute?.toList := by
  rw [attributes, attributes, List.filterMap_append]
  cases clause <;> rfl

theorem map_fst_attributeIds (id : Nat) (clauses : List (Clause kind)) :
    (attributeIds id clauses).map (·.1) = (attributes clauses).map Attribute.name := by
  induction clauses using List.reverseRecOn with
  | nil => rfl
  | append_singleton front clause ih =>
      rw [attributeIds_concat, attributes_concat, List.map_append, List.map_append, ih, List.map_map]
      rfl

theorem lookup_eq_find? (name : String) (ids : List (String × Nat)) :
    ids.lookup name = (ids.find? (·.1 = name)).map (·.2) := by
  induction ids with
  | nil => rfl
  | cons first rest ih =>
      by_cases h : first.1 = name
      · have heq : (name == first.1) = true := by simpa using h.symm
        rw [List.find?_cons_of_pos (by simpa using h), List.lookup_cons, heq]
        rfl
      · have hne : (name == first.1) = false := by simpa using Ne.symm h
        rw [List.find?_cons_of_neg (by simpa using h), List.lookup_cons, hne, ← ih]

/-- Where names are distinct, the scope gives the id of the attribute of a name. -/
theorem get?_scope {id : Nat} {clauses : List (Clause kind)}
    (hnames : ((attributes clauses).map Attribute.name).Nodup) (name : String) :
    (scope id clauses).get? .attribute name = (attributeIds id clauses).lookup name := by
  have hpairs : (attributeIds id clauses).Pairwise fun a b => a.1 ≠ b.1 := by
    rw [← map_fst_attributeIds id] at hnames
    exact List.pairwise_map.1 hnames
  rw [lookup_eq_find?, Scope.get?, scope, find?_reverse_of_unique, List.find?_map, Option.map_map]
  · simp [Function.comp_def]
  · refine List.pairwise_map.2 (hpairs.imp fun {a b} hne h => hne ?_)
    simp only [Bool.and_eq_true, decide_eq_true_eq] at h
    rw [h.1.2, h.2.2]

/-- Nothing but attributes is bound inside a construct. -/
theorem get?_scope_of_ne {id : Nat} {clauses : List (Clause kind)} {other : Node.Kind}
    (h : other ≠ .attribute) (name : String) : (scope id clauses).get? other name = none := by
  rw [Scope.get?, scope, Option.map_eq_none_iff, List.find?_eq_none]
  intro binding hbinding
  obtain ⟨attr, -, rfl⟩ := List.mem_map.1 (List.mem_reverse.1 hbinding)
  simp [Ne.symm h]

theorem lookup_attributeIds_isSome {id : Nat} {clauses : List (Clause kind)} {name : String} :
    (∃ found, (attributeIds id clauses).lookup name = some found) ↔
      ∃ attr ∈ attributes clauses, attr.name = name := by
  have hnames : (∃ attr ∈ attributes clauses, attr.name = name) ↔
      name ∈ (attributeIds id clauses).map (·.1) := by
    rw [map_fst_attributeIds, List.mem_map]
  rw [← Option.isSome_iff_exists, lookup_eq_find?, Option.isSome_map, List.find?_isSome, hnames,
    List.mem_map]
  simp only [decide_eq_true_eq]

end Clause

end ErDiagram
