import ErDiagram.Proofs.Drawing

/-!
What a diagram needs to have a graph: names are declared once, an entity has one primary key at
most, and what is mentioned is declared before.
-/

namespace ErDiagram

/-- No two attributes that stand directly inside the same attribute have the same name. -/
inductive Attribute.Distinct : Attribute → Prop where
  | mk {name : String} {cardinality : Option Cardinality} {inside : List Attribute}
    (hnames : (inside.map Attribute.name).Nodup) (hinside : ∀ owned ∈ inside, owned.Distinct) :
    Attribute.Distinct ⟨name, cardinality, inside⟩

/-- The attribute and the entity that a clause of a foreign key refers to. -/
def Clause.attributeOf? {kind : Node.Kind} : Clause kind → Option (String × String)
  | .attributeOf name entity => some (name, entity)
  | _ => none

namespace Diagram

def Declares (diagram : Diagram) (kind : Node.Kind) (name : String) : Prop :=
  ∃ declaration ∈ diagram, declaration.kind = kind ∧ declaration.name = name

/-- No two named constructs with the same parent have the same kind and the same name: not two
declarations, not two attributes of a declared construct, and not two attributes of an attribute. -/
structure NamesDistinct (diagram : Diagram) : Prop where
  declarations : (diagram.map fun declaration => (declaration.kind, declaration.name)).Nodup
  attributes : ∀ declaration ∈ diagram, (declaration.attributes.map Attribute.name).Nodup ∧
    ∀ owned ∈ declaration.attributes, owned.Distinct

/-- Each entity has one primary key at most, and its names are those of attributes that are declared
directly in the entity before the key. -/
structure KeysOwned (diagram : Diagram) : Prop where
  single : ∀ declaration ∈ diagram, (declaration.clauses.filterMap Clause.key?).length ≤ 1
  owned : ∀ declaration ∈ diagram, ∀ front clause back names,
    declaration.clauses = front ++ clause :: back → clause.key? = some names →
      ∀ name ∈ names, ∃ attr ∈ Clause.attributes front, attr.name = name

/-- Each entity and each association that is mentioned is declared before. -/
def MentionsDeclared (diagram : Diagram) : Prop :=
  ∀ earlier declaration later, diagram = earlier ++ declaration :: later →
    ∀ clause ∈ declaration.clauses, ∀ kind name, clause.mentioned? = some (kind, name) →
      Declares earlier kind name

/-- Each attribute of an entity that a foreign key refers to is declared directly in the entity. -/
def AttributesDeclared (diagram : Diagram) : Prop :=
  ∀ declaration ∈ diagram, ∀ clause ∈ declaration.clauses, ∀ name entity,
    clause.attributeOf? = some (name, entity) →
      ∃ owner ∈ diagram, owner.kind = .entity ∧ owner.name = entity ∧
        ∃ attr ∈ owner.attributes, attr.name = name

/-- All that a diagram needs to have a graph. -/
structure Valid (diagram : Diagram) : Prop where
  names : diagram.NamesDistinct
  keys : diagram.KeysOwned
  mentions : diagram.MentionsDeclared
  attributes : diagram.AttributesDeclared

end Diagram

/-! ### One part after another -/

/-- A clause fits behind other clauses of the same construct and behind earlier declarations. -/
def Clause.Fits {kind : Node.Kind} (earlier : Diagram) (before : List (Clause kind)) :
    Clause kind → Prop
  | .attr _ owned => (∀ attr ∈ attributes before, attr.name ≠ owned.name) ∧ owned.Distinct
  | .key names =>
    (∀ other ∈ before, other.key? = none) ∧
      ∀ name ∈ names, ∃ attr ∈ attributes before, attr.name = name
  | .branch entity _ => earlier.Declares .entity entity
  | .parent entity => earlier.Declares .entity entity
  | .child entity => earlier.Declares .entity entity
  | .between entity => earlier.Declares .entity entity
  | .across association => earlier.Declares .association association
  | .attributeOf name entity =>
    ∃ place, earlier.place? .entity entity = some place ∧
      ∃ attr ∈ place.2.attributes, attr.name = name

def Clause.AllFit {kind : Node.Kind} (earlier : Diagram) (clauses : List (Clause kind)) : Prop :=
  ∀ front clause back, clauses = front ++ clause :: back → clause.Fits earlier front

/-- A declaration fits behind others. -/
def Declaration.Fits (earlier : Diagram) (declaration : Declaration) : Prop :=
  ¬Diagram.Declares earlier declaration.kind declaration.name ∧
    Clause.AllFit earlier declaration.clauses

def Diagram.AllFit (diagram : Diagram) : Prop :=
  ∀ earlier declaration later, diagram = earlier ++ declaration :: later →
    declaration.Fits earlier

theorem forall_split_append {α : Type} {P : List α → α → Prop} {things more : List α} :
    (∀ front thing back, things ++ more = front ++ thing :: back → P front thing) ↔
      (∀ front thing back, things = front ++ thing :: back → P front thing) ∧
        ∀ front thing back, more = front ++ thing :: back → P (things ++ front) thing := by
  constructor
  · intro h
    constructor
    · rintro front thing back rfl
      exact h front thing (back ++ more) (by rw [List.append_assoc, List.cons_append])
    · rintro front thing back rfl
      exact h (things ++ front) thing back (by rw [List.append_assoc])
  · rintro ⟨hthings, hmore⟩ front thing back hsplit
    rcases List.append_eq_append_iff.1 hsplit with ⟨middle, rfl, hrest⟩ | ⟨middle, rfl, hmiddle⟩
    · exact hmore middle thing back hrest
    · cases middle with
      | nil =>
          have hfirst := hmore [] thing back (hmiddle.symm.trans (List.nil_append _))
          rwa [List.append_nil, List.append_nil] at hfirst
      | cons other middle =>
          cases hmiddle
          exact hthings front thing middle rfl

theorem forall_split_concat {α : Type} {P : List α → α → Prop} {things : List α} {last : α} :
    (∀ front thing back, things ++ [last] = front ++ thing :: back → P front thing) ↔
      (∀ front thing back, things = front ++ thing :: back → P front thing) ∧ P things last := by
  rw [forall_split_append, and_congr_right_iff]
  refine fun _ => ⟨fun h => ?_, ?_⟩
  · have hlast := h [] last [] rfl
    rwa [List.append_nil] at hlast
  · rintro hlast front thing back hsplit
    rcases List.append_eq_singleton_iff.1 hsplit.symm with ⟨rfl, hthing⟩ | ⟨-, hthing⟩
    · cases hthing
      rwa [List.append_nil]
    · cases hthing

theorem Clause.allFit_nil {kind : Node.Kind} (earlier : Diagram) :
    AllFit earlier ([] : List (Clause kind)) := by
  intro front clause back h
  cases front <;> cases h

theorem Clause.allFit_concat {kind : Node.Kind} {earlier : Diagram} {clauses : List (Clause kind)}
    {last : Clause kind} :
    AllFit earlier (clauses ++ [last]) ↔ AllFit earlier clauses ∧ last.Fits earlier clauses :=
  forall_split_concat

theorem Diagram.allFit_nil : AllFit [] := by
  intro earlier declaration later h
  cases earlier <;> cases h

theorem Diagram.allFit_append {front back : Diagram} :
    AllFit (front ++ back) ↔ front.AllFit ∧ ∀ earlier declaration later,
      back = earlier ++ declaration :: later → declaration.Fits (front ++ earlier) :=
  forall_split_append

theorem Diagram.allFit_concat {diagram : Diagram} {last : Declaration} :
    AllFit (diagram ++ [last]) ↔ diagram.AllFit ∧ last.Fits diagram :=
  forall_split_concat

/-! ### Deciding whether parts fit -/

mutual

/-- Whether names are distinct inside an attribute. -/
def Attribute.isDistinct : Attribute → Bool
  | ⟨_, _, inside⟩ => decide (inside.map Attribute.name).Nodup && Attribute.allDistinct inside

def Attribute.allDistinct : List Attribute → Bool
  | [] => true
  | owned :: rest => owned.isDistinct && Attribute.allDistinct rest

end

mutual

theorem Attribute.isDistinct_iff : ∀ owned : Attribute, owned.isDistinct = true ↔ owned.Distinct
  | ⟨name, cardinality, inside⟩ => by
      rw [isDistinct, Bool.and_eq_true, decide_eq_true_iff, allDistinct_iff inside]
      constructor
      · exact fun ⟨hnames, hinside⟩ => .mk hnames hinside
      · exact fun ⟨hnames, hinside⟩ => ⟨hnames, hinside⟩

theorem Attribute.allDistinct_iff : ∀ attributes : List Attribute,
    Attribute.allDistinct attributes = true ↔ ∀ owned ∈ attributes, owned.Distinct
  | [] => by simp [allDistinct]
  | owned :: rest => by
      rw [allDistinct, Bool.and_eq_true, isDistinct_iff owned, allDistinct_iff rest,
        List.forall_mem_cons]

end

instance : DecidablePred Attribute.Distinct :=
  fun owned => decidable_of_iff _ owned.isDistinct_iff

instance (diagram : Diagram) (kind : Node.Kind) (name : String) :
    Decidable (diagram.Declares kind name) :=
  inferInstanceAs (Decidable (∃ declaration ∈ diagram, _))

instance {kind : Node.Kind} (earlier : Diagram) (before : List (Clause kind))
    (clause : Clause kind) : Decidable (clause.Fits earlier before) :=
  match kind, before, clause with
  | _, _, .attr .. | _, _, .key .. => inferInstanceAs (Decidable (_ ∧ _))
  | _, _, .branch .. | _, _, .parent .. | _, _, .child .. | _, _, .between .. | _, _, .across .. =>
    inferInstanceAs (Decidable (Diagram.Declares ..))
  | _, _, .attributeOf name entity =>
    inferInstanceAs (Decidable (∃ place ∈ earlier.place? .entity entity,
      ∃ attr ∈ place.2.attributes, attr.name = name))

theorem forall_split_iff {α : Type} {P : List α → α → Prop} {things : List α} :
    (∀ front thing back, things = front ++ thing :: back → P front thing) ↔
      ∀ i (h : i < things.length), P (things.take i) things[i] := by
  constructor
  · intro hsplit i h
    exact hsplit _ _ (things.drop (i + 1)) (by simp)
  · rintro h front thing back rfl
    simpa using h front.length (by simp)

instance {kind : Node.Kind} (earlier : Diagram) (clauses : List (Clause kind)) :
    Decidable (Clause.AllFit earlier clauses) :=
  decidable_of_iff _ forall_split_iff.symm

instance (earlier : Diagram) : DecidablePred (Declaration.Fits earlier) :=
  fun _ => inferInstanceAs (Decidable (_ ∧ _))

instance : DecidablePred Diagram.AllFit :=
  fun _ => decidable_of_iff _ forall_split_iff.symm

end ErDiagram
