import ErDiagram.Proofs.Groups

/-!
What writes a diagram leaves no group open. Read behind any number of open groups, it leaves just
these open, and so does each of its parts; hence a diagram is written by complete groups.
-/

namespace ErDiagram

/-- Read behind any number of open groups, some tokens leave just these open. -/
def Balanced (tokens : List Token) : Prop :=
  ∀ count, openGroups count tokens = count

theorem openGroups_append (count : Nat) (front back : List Token) :
    openGroups count (front ++ back) = openGroups (openGroups count front) back := by
  induction front generalizing count with
  | nil => rfl
  | cons token front ih => rw [List.cons_append, openGroups, openGroups, ih]

namespace Balanced

theorem nil : Balanced [] :=
  fun _ => rfl

theorem append {front back : List Token} (hfront : Balanced front) (hback : Balanced back) :
    Balanced (front ++ back) := by
  intro count
  rw [openGroups_append, hfront, hback]

theorem cons {token : Token} {rest : List Token} (hopen : token.kind ≠ .leftParen)
    (hclose : token.kind ≠ .rightParen) (hrest : Balanced rest) : Balanced (token :: rest) := by
  intro count
  rw [openGroups, nesting_of_ne hopen hclose, Int.add_zero, Int.toNat_natCast, hrest]

theorem of_kinds {tokens : List Token}
    (h : ∀ token ∈ tokens, token.kind ≠ .leftParen ∧ token.kind ≠ .rightParen) :
    Balanced tokens := by
  induction tokens with
  | nil => exact nil
  | cons token rest ih =>
      obtain ⟨htoken, hrest⟩ := List.forall_mem_cons.1 h
      exact cons htoken.1 htoken.2 (ih hrest)

theorem enclosed {word : Keyword} {inner tokens : List Token} (h : Enclosed word inner tokens)
    (hinner : Balanced inner) : Balanced tokens := by
  obtain ⟨hopening, hkeyword, hclosing⟩ := h
  intro count
  have hopened : ((count : Int) + 1).toNat = count + 1 := Int.toNat_natCast (count + 1)
  have hclosed : (((count + 1 : Nat) : Int) + -1).toNat = count := by omega
  rw [openGroups, nesting_leftParen hopening, hopened, openGroups, nesting_reserved hkeyword,
    Int.add_zero, Int.toNat_natCast, openGroups_append, hinner, openGroups,
    nesting_rightParen hclosing, hclosed, openGroups]

theorem row {α : Type} {writes : α → List Token → Prop}
    (h : ∀ thing tokens, writes thing tokens → Balanced tokens) {things : List α}
    {tokens : List Token} (hrow : Row writes things tokens) : Balanced tokens := by
  induction hrow with
  | nil => exact nil
  | cons hfirst _ ih => exact (h _ _ hfirst).append ih

/-- Tokens that leave the open groups open are complete groups, and tokens that open none. -/
theorem pieces {tokens : List Token} (h : Balanced tokens) : Pieces tokens :=
  pieces_of_openGroups (h 0)

end Balanced

/-! ### The parts of a diagram -/

theorem Cardinality.WrittenAs.balanced {cardinality : Cardinality} {tokens : List Token}
    (h : cardinality.WrittenAs tokens) : Balanced tokens := by
  apply Balanced.of_kinds
  cases h with
  | pair hkind => simp [hkind]
  | bounds hlower hupper => simp [hlower, hupper]

theorem Classification.WrittenAs.balanced {classification : Classification} {tokens : List Token}
    (h : classification.WrittenAs tokens) : Balanced tokens := by
  apply Balanced.of_kinds
  cases h with
  | plain hwords => cases hwords <;> simp_all
  | announced htype hwords => cases hwords <;> simp_all

theorem Attribute.Detail.balanced {cardinality : Option Cardinality} {tokens : List Token}
    (h : Attribute.Detail cardinality tokens) : Balanced tokens := by
  cases h with
  | none => exact .nil
  | some hcard htokens => exact .cons (by simp [hcard]) (by simp [hcard]) htokens.balanced

mutual

theorem Attribute.WrittenAs.balanced {owned : Attribute} {tokens : List Token} :
    owned.WrittenAs tokens → Balanced tokens
  | .mk hname hdetail hinside henclosed =>
    .enclosed henclosed (.cons (by simp [hname]) (by simp [hname])
      (hdetail.balanced.append (Attribute.AllWrittenAs.balanced hinside)))

theorem Attribute.AllWrittenAs.balanced {attributes : List Attribute} {tokens : List Token} :
    Attribute.AllWrittenAs attributes tokens → Balanced tokens
  | .nil => .nil
  | .cons hfirst hrest =>
    .append (Attribute.WrittenAs.balanced hfirst) (Attribute.AllWrittenAs.balanced hrest)

end

theorem Clause.WrittenAs.balanced {kind : Node.Kind} (clause : Clause kind) (tokens : List Token)
    (h : clause.WrittenAs tokens) : Balanced tokens := by
  cases h with
  | attr howned => exact howned.balanced
  | key hnames henclosed =>
      refine .enclosed henclosed (.of_kinds fun name hname => ?_)
      simp [hnames name hname]
  | branch hentity hcard hrest henclosed =>
      exact .enclosed henclosed (.cons (by simp [hentity]) (by simp [hentity])
        (.cons (by simp [hcard]) (by simp [hcard]) hrest.balanced))
  | parent hname henclosed | child hname henclosed | between hname henclosed
  | across hname henclosed => exact .enclosed henclosed (.of_kinds (by simp [hname]))
  | attributeOf hname hentity henclosed =>
      exact .enclosed henclosed (.of_kinds (by simp [hname, hentity]))

theorem Declaration.WrittenAs.balanced (declaration : Declaration) (tokens : List Token)
    (h : declaration.WrittenAs tokens) : Balanced tokens := by
  cases h with
  | entity hname hclauses henclosed | association hname hclauses henclosed
  | foreignKey hname hclauses henclosed =>
      exact .enclosed henclosed (.cons (by simp [hname]) (by simp [hname])
        (.row Clause.WrittenAs.balanced hclauses))
  | hierarchy hname hwords hclauses henclosed =>
      exact .enclosed henclosed (.cons (by simp [hname]) (by simp [hname])
        (hwords.balanced.append (.row Clause.WrittenAs.balanced hclauses)))

theorem Diagram.WrittenAs.balanced {diagram : Diagram} {tokens : List Token}
    (h : diagram.WrittenAs tokens) : Balanced tokens :=
  .row Declaration.WrittenAs.balanced h

end ErDiagram
