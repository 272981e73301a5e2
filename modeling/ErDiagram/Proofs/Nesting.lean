import ErDiagram.Declaration
import ErDiagram.Proofs.Diagram

/-!
Parentheses in lists of tokens. What writes a clause or a declaration is a group: it starts with a
parenthesis and closes all that it opens.
-/

namespace ErDiagram

/-- No opening parenthesis among some tokens, read at a depth, goes deeper than allowed. -/
def Shallow (depth : Int) : List Token → Prop
  | [] => True
  | token :: rest =>
    (token.kind = .leftParen → depth + 1 ≤ maxDepth) ∧ Shallow (depth + token.nesting) rest

instance decidableShallow : (depth : Int) → (tokens : List Token) → Decidable (Shallow depth tokens)
  | _, [] => .isTrue trivial
  | depth, token :: rest =>
    have := decidableShallow (depth + token.nesting) rest
    inferInstanceAs (Decidable (_ ∧ _))

theorem openedBy_append (front back : List Token) :
    openedBy (front ++ back) = openedBy front + openedBy back := by
  simp [openedBy]

@[simp] theorem openedBy_nil : openedBy [] = 0 := rfl

@[simp] theorem openedBy_cons (token : Token) (rest : List Token) :
    openedBy (token :: rest) = token.nesting + openedBy rest := by
  simp [openedBy]

theorem nesting_of_ne {token : Token} (hopen : token.kind ≠ .leftParen)
    (hclose : token.kind ≠ .rightParen) : token.nesting = 0 := by
  unfold Token.nesting
  split <;> simp_all

theorem nesting_leftParen {token : Token} (h : token.kind = .leftParen) : token.nesting = 1 := by
  rw [Token.nesting, h]

theorem nesting_rightParen {token : Token} (h : token.kind = .rightParen) : token.nesting = -1 := by
  rw [Token.nesting, h]

theorem nesting_reserved {token : Token} {word : Keyword} (h : token.kind = .reserved word) :
    token.nesting = 0 := by
  rw [Token.nesting, h]

theorem shallow_append {depth : Int} {front back : List Token} :
    Shallow depth (front ++ back) ↔
      Shallow depth front ∧ Shallow (depth + openedBy front) back := by
  induction front generalizing depth with
  | nil => simp [Shallow]
  | cons token front ih =>
      simp only [List.cons_append, Shallow, ih, openedBy_cons, and_assoc, Int.add_assoc]

theorem shallow_iff {depth : Int} {tokens : List Token} (hdepth : depth ≤ maxDepth) :
    Shallow depth tokens ↔ ∀ front, front <+: tokens → depth + openedBy front ≤ maxDepth := by
  induction tokens generalizing depth with
  | nil => simpa [Shallow] using hdepth
  | cons token tokens ih =>
      simp only [Shallow]
      constructor
      · rintro ⟨hopen, hrest⟩ front hfront
        cases front with
        | nil => simpa using hdepth
        | cons first front =>
            obtain ⟨rfl, htail⟩ := List.cons_prefix_cons.1 hfront
            have hstep : depth + first.nesting ≤ maxDepth := by
              unfold Token.nesting
              split
              · exact hopen ‹_›
              · omega
              · omega
            have := (ih hstep).1 hrest front htail
            rw [openedBy_cons]
            omega
      · intro h
        have hstep : depth + token.nesting ≤ maxDepth := by
          simpa using h [token] (by simp)
        refine ⟨fun hopen => ?_, (ih hstep).2 fun front hfront => ?_⟩
        · simpa [Token.nesting, hopen] using hstep
        · have := h (token :: front) (List.cons_prefix_cons.2 ⟨rfl, hfront⟩)
          rw [openedBy_cons] at this
          omega

theorem nestsWithin_iff {tokens : List Token} : NestsWithin maxDepth tokens ↔ Shallow 0 tokens := by
  rw [shallow_iff (by decide)]
  simp [NestsWithin]

/-! ### Groups of parentheses -/

theorem Attribute.allWrittenAs_iff {attributes : List Attribute} {tokens : List Token} :
    Attribute.AllWrittenAs attributes tokens ↔ Row Attribute.WrittenAs attributes tokens := by
  induction attributes generalizing tokens with
  | nil =>
      constructor
      · rintro ⟨⟩
        exact .nil
      · rintro ⟨⟩
        exact .nil
  | cons first rest ih =>
      constructor
      · rintro (_ | ⟨hfirst, hrest⟩)
        exact .cons hfirst (ih.1 hrest)
      · rintro (_ | ⟨hfirst, hrest⟩)
        exact .cons hfirst (ih.2 hrest)

/-- What writes things of a sort is a group: it starts with a parenthesis and closes all that it
opens. -/
def Grouped {α : Type} (writes : α → List Token → Prop) : Prop :=
  ∀ a tokens, writes a tokens →
    openedBy tokens = 0 ∧ ∃ first rest, tokens = first :: rest ∧ first.kind = .leftParen

theorem Enclosed.group {word : Keyword} {inner tokens : List Token}
    (h : Enclosed word inner tokens) (hinner : openedBy inner = 0) :
    openedBy tokens = 0 ∧ ∃ first rest, tokens = first :: rest ∧ first.kind = .leftParen := by
  obtain ⟨hopening, hkeyword, hclosing⟩ := h
  refine ⟨?_, _, _, rfl, hopening⟩
  simp [openedBy_append, hinner, nesting_leftParen hopening, nesting_reserved hkeyword,
    nesting_rightParen hclosing]

theorem openedBy_of_kinds {tokens : List Token}
    (h : ∀ token ∈ tokens, token.kind ≠ .leftParen ∧ token.kind ≠ .rightParen) :
    openedBy tokens = 0 := by
  induction tokens with
  | nil => rfl
  | cons token rest ih =>
      have htoken := h token List.mem_cons_self
      rw [openedBy_cons, nesting_of_ne htoken.1 htoken.2,
        ih fun other hother => h other (List.mem_cons_of_mem _ hother)]
      rfl

theorem Row.openedBy {α : Type} {writes : α → List Token → Prop} (hgrouped : Grouped writes)
    {things : List α} {tokens : List Token} (h : Row writes things tokens) :
    openedBy tokens = 0 := by
  induction h with
  | nil => rfl
  | cons hfirst _ ih => rw [openedBy_append, (hgrouped _ _ hfirst).1, ih]; rfl

theorem Cardinality.WrittenAs.openedBy {cardinality : Cardinality} {tokens : List Token}
    (h : cardinality.WrittenAs tokens) : openedBy tokens = 0 := by
  apply openedBy_of_kinds
  cases h with
  | pair hkind => simp [hkind]
  | bounds hlower hupper => simp [hlower, hupper]

theorem Classification.WrittenAs.openedBy {classification : Classification} {tokens : List Token}
    (h : classification.WrittenAs tokens) : openedBy tokens = 0 := by
  apply openedBy_of_kinds
  cases h with
  | plain hwords => cases hwords <;> simp_all
  | announced htype hwords => cases hwords <;> simp_all

theorem Attribute.Detail.openedBy {cardinality : Option Cardinality} {tokens : List Token}
    (h : Attribute.Detail cardinality tokens) : openedBy tokens = 0 := by
  cases h with
  | none => rfl
  | some hcard htokens =>
      rw [openedBy_cons, htokens.openedBy, nesting_reserved hcard]
      rfl

mutual

theorem Attribute.WrittenAs.group {owned : Attribute} {tokens : List Token} :
    owned.WrittenAs tokens →
      openedBy tokens = 0 ∧ ∃ first rest, tokens = first :: rest ∧ first.kind = .leftParen
  | .mk hname hdetail hinside henclosed => henclosed.group (by
      rw [openedBy_cons, openedBy_append, hdetail.openedBy, Attribute.AllWrittenAs.openedBy hinside,
        nesting_of_ne (by simp [hname]) (by simp [hname])]
      rfl)

theorem Attribute.AllWrittenAs.openedBy {attributes : List Attribute} {tokens : List Token} :
    Attribute.AllWrittenAs attributes tokens → openedBy tokens = 0
  | .nil => rfl
  | .cons hfirst hrest => by
      rw [openedBy_append, (Attribute.WrittenAs.group hfirst).1,
        Attribute.AllWrittenAs.openedBy hrest]
      rfl

end

theorem Attribute.grouped : Grouped Attribute.WrittenAs :=
  fun _ _ h => h.group

theorem Clause.grouped {kind : Node.Kind} : Grouped (@Clause.WrittenAs kind) := by
  intro clause tokens h
  cases h with
  | attr howned => exact howned.group
  | key hnames henclosed =>
      refine henclosed.group (openedBy_of_kinds fun name hname => ?_)
      simp [hnames name hname]
  | branch hentity hcard hrest henclosed =>
      refine henclosed.group ?_
      rw [openedBy_cons, openedBy_cons, hrest.openedBy, nesting_reserved hcard,
        nesting_of_ne (by simp [hentity]) (by simp [hentity])]
      rfl
  | parent hname henclosed | child hname henclosed | between hname henclosed
  | across hname henclosed => exact henclosed.group (openedBy_of_kinds (by simp [hname]))
  | attributeOf hname hentity henclosed =>
      exact henclosed.group (openedBy_of_kinds (by simp [hname, hentity]))

end ErDiagram
