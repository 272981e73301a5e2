import ErDiagram.Node

/-!
Scopes: the names introduced at one level of nesting. A name is bound together with a kind, so an
entity and an association may share it.
-/

namespace ErDiagram

/-- A name of a kind and the id of the node that declared it. -/
structure Binding where
  kind : Node.Kind
  name : String
  id : Nat
  deriving DecidableEq

/-- The bindings of one level, the newest first. -/
structure Scope where
  bindings : List Binding
  deriving DecidableEq

namespace Scope

def empty : Scope :=
  ⟨[]⟩

def get? (scope : Scope) (kind : Node.Kind) (name : String) : Option Nat :=
  (scope.bindings.find? fun binding => binding.kind = kind && binding.name = name).map (·.id)

def bind (scope : Scope) (kind : Node.Kind) (name : String) (id : Nat) : Scope :=
  ⟨⟨kind, name, id⟩ :: scope.bindings⟩

/-- The scope without the names bound to `first` or a later id. -/
def before (scope : Scope) (first : Nat) : Scope :=
  ⟨scope.bindings.filter (·.id < first)⟩

@[simp] theorem get?_empty (kind : Node.Kind) (name : String) : empty.get? kind name = none := rfl

theorem get?_bind (scope : Scope) (kind other : Node.Kind) (name word : String) (id : Nat) :
    (scope.bind kind name id).get? other word =
      if kind = other ∧ name = word then some id else scope.get? other word := by
  by_cases h : kind = other ∧ name = word
  · simp [get?, bind, h]
  · simp only [get?, bind, h, if_false]
    rw [List.find?_cons_of_neg (by simpa using h)]

end Scope
end ErDiagram
