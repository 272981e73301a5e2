import ErDiagram.Proofs.Fields
import Mathlib.Tactic.SplitIfs

/-!
The readers parse the grammar: each one runs through exactly on the tokens that write a thing of its
sort, and then it has reported the actions of that thing, in order. No budget enters, because a
field needs a parenthesis and parentheses give out before the budget does.
-/

namespace ErDiagram

variable {σ ε α : Type} {meaning : Interpretation σ ε} {before after : Reading σ}

theorem Field.find?_eq_some {owner : Node.Kind} {kind : Token.Kind} {field : Field} :
    Field.find? owner kind = some field ↔
      ∃ word, kind = .reserved word ∧ (table owner).lookup word = some field := by
  constructor
  · intro h
    unfold find? at h
    split at h
    · exact ⟨_, rfl, h⟩
    · cases h
  · rintro ⟨word, rfl, h⟩
    exact h

theorem Field.mem_table {owner : Node.Kind} {word : Keyword} {field : Field}
    (h : (table owner).lookup word = some field) : (word, field) ∈ table owner := by
  obtain ⟨front, back, htable, -⟩ := List.lookup_eq_some_iff.1 h
  simp [htable]

/-- The reserved word and the inner tokens of an enclosure are settled by its tokens. -/
theorem enclosed_iff {opening keyword closing : Token} {word other : Keyword}
    {inner inside : List Token} (hopening : opening.kind = .leftParen)
    (hkeyword : keyword.kind = .reserved word) (hclosing : closing.kind = .rightParen) :
    Enclosed other inside (opening :: keyword :: (inner ++ [closing])) ↔
      other = word ∧ inside = inner := by
  constructor
  · generalize htokens : opening :: keyword :: (inner ++ [closing]) = tokens
    rintro ⟨-, hother, -⟩
    obtain ⟨-, hrest⟩ := List.cons.inj htokens
    obtain ⟨rfl, hinner⟩ := List.cons.inj hrest
    rw [hkeyword] at hother
    cases hother
    exact ⟨rfl, (List.append_inj' hinner rfl).1.symm⟩
  · rintro ⟨rfl, rfl⟩
    exact ⟨hopening, hkeyword, hclosing⟩

namespace Reader

theorem fieldKeyword_ok (meaning : Interpretation σ ε) {owner : Node.Kind} {keyword : Token}
    {field : Field} :
    (fieldKeyword owner : Reader σ ε (Token × Field)) before = .ok (keyword, field) after ↔
      ∃ word, keyword.kind = .reserved word ∧ (Field.table owner).lookup word = some field ∧
        Passes meaning [] [keyword] before after := by
  unfold fieldKeyword
  rcases hunread : before.unread with _ | ⟨first, rest⟩
  · simp only [Reading.next?, hunread, List.head?_nil]
    constructor
    · intro h
      cases h
    · rintro ⟨word, -, -, hpass⟩
      rw [hpass.unread] at hunread
      cases hunread
  · simp only [Reading.next?, hunread, List.head?_cons]
    constructor
    · intro h
      split at h
      · rename_i found hfound
        cases h
        obtain ⟨word, hkind, hlookup⟩ := Field.find?_eq_some.1 hfound
        refine ⟨word, hkind, hlookup, (passes_token_of_ne (by simp [hkind])).2 ⟨?_, rfl⟩⟩
        simp [Reading.advance, hunread]
      · cases h
    · rintro ⟨word, hkind, hlookup, hpass⟩
      obtain ⟨hfirst, hafter⟩ := (passes_token_of_ne (by simp [hkind])).1 hpass
      rw [hunread] at hfirst
      cases hfirst
      rw [Field.find?_eq_some.2 ⟨word, hkind, hlookup⟩, hafter]

/-- A field is a parenthesis, a reserved word and what belongs to it, and a parenthesis. -/
theorem field_ok {budget : Nat} {owner : Node.Kind} :
    field meaning (budget + 1) owner before = .ok () after ↔
      ∃ (opening keyword closing : Token) (word : Keyword) (kind : Field)
        (first second third : Reading σ), opening.kind = .leftParen ∧
          Passes meaning [] [opening] before first ∧ keyword.kind = .reserved word ∧
            (Field.table owner).lookup word = some kind ∧
              Passes meaning [] [keyword] first second ∧
                fieldBody meaning (field meaning budget) keyword kind second = .ok () third ∧
                  closing.kind = .rightParen ∧ Passes meaning [] [closing] third after := by
  have hclose : Token.Kind.rightParen ≠ .leftParen := by decide
  rw [field]
  simp only [expectKind, bind_ok, expect_ok_iff, ask_ok meaning, passes_nil]
  constructor
  · rintro ⟨opening, first, ⟨hopening, hunread, hfirst⟩, depth, _, ⟨rfl, rfl⟩, h⟩
    split_ifs at h with hdeep
    · cases h
    simp only [bind_ok, expect_ok meaning hclose, pure_ok meaning,
      passes_nil] at h
    obtain ⟨⟨keyword, kind⟩, second, hkeyword, ⟨⟩, third, hbody, closing, last, ⟨hclosing, hpass⟩,
      -, rfl⟩ := h
    obtain ⟨word, hword, hlookup, hpass'⟩ := (fieldKeyword_ok meaning).1 hkeyword
    have hshallow : opening.kind = .leftParen → before.depth + 1 ≤ maxDepth := by
      intro _
      have hdepth : before.advance.depth = before.depth + 1 := by
        simp [Reading.advance, hunread, Token.nesting, hopening]
      rw [hfirst, hdepth] at hdeep
      omega
    exact ⟨opening, keyword, closing, word, kind, _, second, third, hopening,
      passes_token.2 ⟨hshallow, hunread, hfirst⟩, hword, hlookup, hpass', hbody, hclosing, hpass⟩
  · rintro ⟨opening, keyword, closing, word, kind, first, second, third, hopening, hpass, hword,
      hlookup, hpass', hbody, hclosing, hlast⟩
    obtain ⟨hshallow, hunread, hfirst⟩ := passes_token.1 hpass
    have hdeep : ¬(maxDepth : Int) < first.depth := by
      have hdepth : first.depth = before.depth + 1 := by
        rw [hpass.depth, openedBy_cons, nesting_leftParen hopening]
        rfl
      have := hshallow hopening
      omega
    refine ⟨opening, first, ⟨hopening, hunread, hfirst⟩, _, first, ⟨rfl, rfl⟩, ?_⟩
    rw [if_neg hdeep]
    simp only [bind_ok, expect_ok meaning hclose, pure_ok meaning,
      passes_nil]
    exact ⟨(keyword, kind), second,
      (fieldKeyword_ok meaning).2 ⟨word, hword, hlookup, hpass'⟩, (), third, hbody,
      closing, after, ⟨hclosing, hlast⟩, trivial, rfl⟩

end Reader

/-! ### Fields of constructs -/

/-- Things that are written as fields of a construct: between parentheses, behind a reserved word
that introduces such a field. -/
def Framed (owner : Node.Kind) (writes : α → List Token → Prop) : Prop :=
  ∀ a tokens, writes a tokens →
    ∃ word inner field, Enclosed word inner tokens ∧
      (Field.table owner).lookup word = some field

/-- Behind a reserved word, at a depth, the fields of a construct are read as what writes a thing
between the parentheses. -/
def BodyReads (meaning : Interpretation σ ε) (inside : Node.Kind → Reader σ ε Unit)
    (owner : Node.Kind) (writes : α → List Token → Prop) (actions : α → List Action)
    (depth : Int) : Prop :=
  ∀ (opening keyword closing : Token) (word : Keyword) (field : Field) (before after : Reading σ),
    opening.kind = .leftParen → keyword.kind = .reserved word → closing.kind = .rightParen →
      (Field.table owner).lookup word = some field → before.depth = depth →
        (∀ token ∈ before.unread, token.Spelled) → after.atBodyEnd →
          (Reader.fieldBody meaning inside keyword field before = .ok () after ↔
            ∃ a inner, writes a (opening :: keyword :: (inner ++ [closing])) ∧
              Passes meaning (actions a) inner before after)

/-- A budget that goes beyond the deepest nesting is as good as none. -/
theorem reads_field {owner : Node.Kind} {writes : α → List Token → Prop}
    {actions : α → List Action} {budget : Nat} {depth : Int}
    (hbudget : maxDepth + 1 ≤ depth + budget) (hframed : Framed owner writes)
    (hbody : ∀ smaller, budget = smaller + 1 →
      BodyReads meaning (Reader.field meaning smaller) owner writes actions (depth + 1)) :
    Reads meaning (Reader.field meaning budget owner) writes actions depth := by
  intro before after hdepth hspelled
  cases budget with
  | zero =>
      constructor
      · intro h
        cases h
      · rintro ⟨a, tokens, hwrites, hpass⟩
        obtain ⟨word, inner, field, ⟨hopening, -, -⟩, -⟩ := hframed a tokens hwrites
        have hshallow := hpass.shallow.1 hopening
        omega
  | succ smaller =>
      specialize hbody smaller rfl
      -- The reading behind the reserved word of a field.
      have hinner : ∀ {opening keyword : Token} {word : Keyword} {first second : Reading σ},
          opening.kind = .leftParen → Passes meaning [] [opening] before first →
            keyword.kind = .reserved word → Passes meaning [] [keyword] first second →
              second.depth = depth + 1 ∧ ∀ token ∈ second.unread, token.Spelled := by
        intro opening keyword word first second hopening hpass hkeyword hpass'
        refine ⟨?_, hpass'.spelled (hpass.spelled hspelled)⟩
        rw [hpass'.depth, hpass.depth, hdepth, openedBy_cons, openedBy_cons,
          nesting_reserved hkeyword, nesting_leftParen hopening]
        simp
      have hlast : ∀ {closing : Token} {third : Reading σ}, closing.kind = .rightParen →
          Passes meaning [] [closing] third after → third.atBodyEnd := by
        intro closing third hclosing hpass
        rw [Reading.atBodyEnd_iff, Reading.next?, hpass.unread]
        intro token htoken
        cases htoken
        exact hclosing
      rw [Reader.field_ok]
      constructor
      · rintro ⟨opening, keyword, closing, word, field, first, second, third, hopening, hpass,
          hword, hlookup, hpass', hfield, hclosing, hpass''⟩
        obtain ⟨hsecond, hspelled'⟩ := hinner hopening hpass hword hpass'
        obtain ⟨a, inner, hwrites, hmiddle⟩ := (hbody opening keyword closing word field second third
          hopening hword hclosing hlookup hsecond hspelled' (hlast hclosing hpass'')).1 hfield
        have hend := (passes_append (actions a) inner).2 ⟨third, hmiddle, hpass''⟩
        rw [List.append_nil] at hend
        exact ⟨a, _, hwrites, passes_cons.2 ⟨first, hpass, passes_cons.2 ⟨second, hpass', hend⟩⟩⟩
      · rintro ⟨a, tokens, hwrites, hpass⟩
        obtain ⟨word, inner, field, henclosed, hlookup⟩ := hframed a tokens hwrites
        obtain @⟨opening, keyword, closing, hopening, hword, hclosing⟩ := henclosed
        obtain ⟨first, hfirst, hpass⟩ := passes_cons.1 hpass
        obtain ⟨second, hsecond, hpass⟩ := passes_cons.1 hpass
        rw [← List.append_nil (actions a)] at hpass
        obtain ⟨third, hthird, hpass⟩ := (passes_append _ _).1 hpass
        obtain ⟨hdepth', hspelled'⟩ := hinner hopening hfirst hword hsecond
        exact ⟨opening, keyword, closing, word, field, first, second, third, hopening, hfirst,
          hword, hlookup, hsecond, (hbody opening keyword closing word field second third hopening
            hword hclosing hlookup hdepth' hspelled' (hlast hclosing hpass)).2
            ⟨a, inner, hwrites, hthird⟩, hclosing, hpass⟩

/-! ### Attributes -/

theorem Attribute.framed {owner : Node.Kind} (h : (Field.table owner).lookup .attribute =
    some (.construct .attribute)) : Framed owner Attribute.WrittenAs := by
  rintro _ tokens ⟨-, -, -, henclosed⟩
  exact ⟨.attribute, _, _, henclosed, h⟩

/-- Between the parentheses of an attribute stands a construct. -/
theorem construct_attribute_ok {inside : Reader σ ε Unit} {opening keyword closing : Token}
    (hinside : Reads meaning inside Attribute.WrittenAs Attribute.actions before.depth)
    (hopening : opening.kind = .leftParen) (hkeyword : keyword.kind = .reserved .attribute)
    (hclosing : closing.kind = .rightParen) (hspelled : ∀ token ∈ before.unread, token.Spelled)
    (hend : after.atBodyEnd) :
    Reader.construct meaning inside .attribute before = .ok () after ↔
      ∃ (owned : Attribute) (inner : List Token),
        owned.WrittenAs (opening :: keyword :: (inner ++ [closing])) ∧
          Passes meaning owned.actions inner before after := by
  rw [Reader.construct_ok hinside Attribute.grouped hspelled]
  constructor
  · rintro ⟨name, detailActions, detail, inside, rest, hname, hdetails, hrow, hpass, -⟩
    cases hdetails with
    | plain _ hattribute => exact absurd rfl hattribute
    | @attr cardinality detail hdetail =>
        refine ⟨⟨name.text, cardinality, inside⟩, name :: (detail ++ rest), ?_, ?_⟩
        · exact .mk hname hdetail (Attribute.allWrittenAs_iff.2 hrow)
            ⟨hopening, hkeyword, hclosing⟩
        · rw [Attribute.actions, Attribute.allActions_eq]
          exact hpass
  · rintro ⟨_, inner, ⟨hname, hdetail, hrow, henclosed⟩, hpass⟩
    obtain ⟨-, rfl⟩ := (enclosed_iff hopening hkeyword hclosing).1 henclosed
    rw [Attribute.actions, Attribute.allActions_eq] at hpass
    exact ⟨_, _, _, _, _, hname, .attr hdetail, Attribute.allWrittenAs_iff.1 hrow, hpass, hend⟩

theorem reads_attribute {budget : Nat} {depth : Int} (hbudget : maxDepth + 1 ≤ depth + budget) :
    Reads meaning (Reader.field meaning budget .attribute) Attribute.WrittenAs Attribute.actions
      depth := by
  induction budget generalizing depth with
  | zero => exact reads_field hbudget (Attribute.framed rfl) fun smaller h => by omega
  | succ budget ih =>
      refine reads_field hbudget (Attribute.framed rfl) fun smaller h => ?_
      cases h
      intro opening keyword closing word field before after hopening hkeyword hclosing hlookup
        hdepth hspelled hend
      have hfield := Field.mem_table hlookup
      simp only [Field.table, List.mem_singleton, Prod.mk.injEq] at hfield
      obtain ⟨rfl, rfl⟩ := hfield
      exact construct_attribute_ok (hdepth ▸ ih (by omega)) hopening hkeyword hclosing hspelled hend

/-! ### Clauses -/

theorem Clause.framed {kind : Node.Kind} : Framed kind (@Clause.WrittenAs kind) := by
  intro clause tokens h
  cases h with
  | @attr _ holds _ _ howned =>
      rcases holds with rfl | rfl
      · exact Attribute.framed rfl _ _ howned
      · exact Attribute.framed rfl _ _ howned
  | key _ henclosed | branch _ _ _ henclosed | parent _ henclosed | child _ henclosed
  | attributeOf _ _ henclosed | between _ henclosed | across _ henclosed =>
      exact ⟨_, _, _, henclosed, rfl⟩

section

variable {opening keyword closing : Token}

/-- The clauses that `attr` introduces in an entity or an association are the attributes. -/
theorem exists_attr_iff {kind : Node.Kind} (holds : kind = .entity ∨ kind = .association)
    (hopening : opening.kind = .leftParen) (hkeyword : keyword.kind = .reserved .attribute)
    (hclosing : closing.kind = .rightParen) :
    (∃ (clause : Clause kind) (inner : List Token),
      clause.WrittenAs (opening :: keyword :: (inner ++ [closing])) ∧
        Passes meaning clause.actions inner before after) ↔
      ∃ (owned : Attribute) (inner : List Token),
        owned.WrittenAs (opening :: keyword :: (inner ++ [closing])) ∧
          Passes meaning owned.actions inner before after := by
  constructor
  · rintro ⟨clause, inner, hwritten, hpass⟩
    cases hwritten with
    | attr howned => exact ⟨_, inner, howned, hpass⟩
    | key _ henclosed | branch _ _ _ henclosed | parent _ henclosed | child _ henclosed
    | between _ henclosed | across _ henclosed =>
        cases ((enclosed_iff hopening hkeyword hclosing).1 henclosed).1
    | attributeOf => rcases holds with h | h <;> cases h
  · rintro ⟨owned, inner, howned, hpass⟩
    exact ⟨.attr holds owned, inner, .attr howned, hpass⟩

end

theorem bodyReads_entity {budget : Nat} {depth : Int} (hbudget : maxDepth + 1 ≤ depth + budget) :
    BodyReads meaning (Reader.field meaning budget) .entity (@Clause.WrittenAs .entity)
      Clause.actions depth := by
  intro opening keyword closing word field before after hopening hkeyword hclosing hlookup
    hdepth hspelled hend
  have hfield := Field.mem_table hlookup
  simp only [Field.table, List.mem_cons, Prod.mk.injEq, List.not_mem_nil, or_false] at hfield
  rcases hfield with ⟨rfl, rfl⟩ | ⟨rfl, rfl⟩
  · rw [exists_attr_iff (Or.inl rfl) hopening hkeyword hclosing]
    exact construct_attribute_ok (hdepth ▸ reads_attribute hbudget) hopening hkeyword hclosing
      hspelled hend
  · rw [Reader.fieldBody, Reader.primaryKey_ok]
    constructor
    · rintro ⟨names, hnames, hpass, -⟩
      exact ⟨_, names, .key hnames ⟨hopening, hkeyword, hclosing⟩, hpass⟩
    · rintro ⟨clause, inner, hwritten, hpass⟩
      cases hwritten with
      | attr howned =>
          obtain ⟨-, -, -, henclosed⟩ := howned
          cases ((enclosed_iff hopening hkeyword hclosing).1 henclosed).1
      | key hnames henclosed =>
          obtain ⟨-, rfl⟩ := (enclosed_iff hopening hkeyword hclosing).1 henclosed
          exact ⟨_, hnames, hpass, hend⟩

theorem bodyReads_association {budget : Nat} {depth : Int}
    (hbudget : maxDepth + 1 ≤ depth + budget) :
    BodyReads meaning (Reader.field meaning budget) .association (@Clause.WrittenAs .association)
      Clause.actions depth := by
  intro opening keyword closing word field before after hopening hkeyword hclosing hlookup
    hdepth hspelled hend
  have hfield := Field.mem_table hlookup
  simp only [Field.table, List.mem_cons, Prod.mk.injEq, List.not_mem_nil, or_false] at hfield
  rcases hfield with ⟨rfl, rfl⟩ | ⟨rfl, rfl⟩
  · rw [exists_attr_iff (Or.inr rfl) hopening hkeyword hclosing]
    exact construct_attribute_ok (hdepth ▸ reads_attribute hbudget) hopening hkeyword hclosing
      hspelled hend
  · rw [Reader.fieldBody, Reader.branch_ok]
    constructor
    · rintro ⟨entity, card, cardinality, rest, hentity, hcard, hrest, hpass⟩
      exact ⟨_, _, .branch hentity hcard hrest ⟨hopening, hkeyword, hclosing⟩, hpass⟩
    · rintro ⟨clause, inner, hwritten, hpass⟩
      cases hwritten with
      | attr howned =>
          obtain ⟨-, -, -, henclosed⟩ := howned
          cases ((enclosed_iff hopening hkeyword hclosing).1 henclosed).1
      | branch hentity hcard hrest henclosed =>
          obtain ⟨-, rfl⟩ := (enclosed_iff hopening hkeyword hclosing).1 henclosed
          exact ⟨_, _, _, _, hentity, hcard, hrest, hpass⟩

/-- What is read behind the reserved word of a clause that mentions one name, if no other clause is
written with that word. -/
theorem mention_reads {kind owner : Node.Kind} {opening keyword closing : Token}
    (clause : String → Clause owner)
    (hactions : ∀ name, (clause name).actions = [.knows kind name, .mention kind name])
    (hclause : ∀ name : Token, name.kind = .identifier →
      (clause name.text).WrittenAs (opening :: keyword :: ([name] ++ [closing])))
    (honly : ∀ (other : Clause owner) (inner : List Token),
      other.WrittenAs (opening :: keyword :: (inner ++ [closing])) →
        ∃ name : Token, name.kind = .identifier ∧ inner = [name] ∧ other = clause name.text) :
    Reader.mention meaning kind before = .ok () after ↔
      ∃ (other : Clause owner) (inner : List Token),
        other.WrittenAs (opening :: keyword :: (inner ++ [closing])) ∧
          Passes meaning other.actions inner before after := by
  rw [Reader.mention_ok]
  constructor
  · rintro ⟨name, hname, hpass⟩
    exact ⟨clause name.text, [name], hclause name hname, (hactions name.text).symm ▸ hpass⟩
  · rintro ⟨other, inner, hother, hpass⟩
    obtain ⟨name, hname, rfl, rfl⟩ := honly other inner hother
    exact ⟨name, hname, hactions name.text ▸ hpass⟩

theorem bodyReads_hierarchy {inside : Node.Kind → Reader σ ε Unit} {depth : Int} :
    BodyReads meaning inside .hierarchy (@Clause.WrittenAs .hierarchy) Clause.actions depth := by
  intro opening keyword closing word field before after hopening hkeyword hclosing hlookup
    hdepth hspelled hend
  have hfield := Field.mem_table hlookup
  simp only [Field.table, List.mem_cons, Prod.mk.injEq, List.not_mem_nil, or_false] at hfield
  rcases hfield with ⟨rfl, rfl⟩ | ⟨rfl, rfl⟩
  · refine mention_reads .parent (fun _ => rfl)
      (fun name hname => .parent hname ⟨hopening, hkeyword, hclosing⟩) fun other inner hother => ?_
    cases hother with
    | attr howned =>
        obtain ⟨-, -, -, henclosed⟩ := howned
        cases ((enclosed_iff hopening hkeyword hclosing).1 henclosed).1
    | child _ henclosed => cases ((enclosed_iff hopening hkeyword hclosing).1 henclosed).1
    | parent hname henclosed =>
        exact ⟨_, hname, ((enclosed_iff hopening hkeyword hclosing).1 henclosed).2.symm, rfl⟩
  · refine mention_reads .child (fun _ => rfl)
      (fun name hname => .child hname ⟨hopening, hkeyword, hclosing⟩) fun other inner hother => ?_
    cases hother with
    | attr howned =>
        obtain ⟨-, -, -, henclosed⟩ := howned
        cases ((enclosed_iff hopening hkeyword hclosing).1 henclosed).1
    | parent _ henclosed => cases ((enclosed_iff hopening hkeyword hclosing).1 henclosed).1
    | child hname henclosed =>
        exact ⟨_, hname, ((enclosed_iff hopening hkeyword hclosing).1 henclosed).2.symm, rfl⟩

theorem bodyReads_foreignKey {inside : Node.Kind → Reader σ ε Unit} {depth : Int} :
    BodyReads meaning inside .foreignKey (@Clause.WrittenAs .foreignKey) Clause.actions depth := by
  intro opening keyword closing word field before after hopening hkeyword hclosing hlookup
    hdepth hspelled hend
  have hfield := Field.mem_table hlookup
  simp only [Field.table, List.mem_cons, Prod.mk.injEq, List.not_mem_nil, or_false] at hfield
  rcases hfield with ⟨rfl, rfl⟩ | ⟨rfl, rfl⟩ | ⟨rfl, rfl⟩
  · rw [Reader.fieldBody, Reader.attributeOf_ok]
    constructor
    · rintro ⟨name, entity, hname, hentity, hpass⟩
      exact ⟨_, _, .attributeOf hname hentity ⟨hopening, hkeyword, hclosing⟩, hpass⟩
    · rintro ⟨clause, inner, hwritten, hpass⟩
      cases hwritten with
      | @attr _ holds => rcases holds with h | h <;> cases h
      | between _ henclosed | across _ henclosed =>
          cases ((enclosed_iff hopening hkeyword hclosing).1 henclosed).1
      | attributeOf hname hentity henclosed =>
          obtain ⟨-, rfl⟩ := (enclosed_iff hopening hkeyword hclosing).1 henclosed
          exact ⟨_, _, hname, hentity, hpass⟩
  · refine mention_reads .between (fun _ => rfl)
      (fun name hname => .between hname ⟨hopening, hkeyword, hclosing⟩) fun other inner hother => ?_
    cases hother with
    | @attr _ holds => rcases holds with h | h <;> cases h
    | attributeOf _ _ henclosed | across _ henclosed =>
        cases ((enclosed_iff hopening hkeyword hclosing).1 henclosed).1
    | between hname henclosed =>
        exact ⟨_, hname, ((enclosed_iff hopening hkeyword hclosing).1 henclosed).2.symm, rfl⟩
  · refine mention_reads .across (fun _ => rfl)
      (fun name hname => .across hname ⟨hopening, hkeyword, hclosing⟩) fun other inner hother => ?_
    cases hother with
    | @attr _ holds => rcases holds with h | h <;> cases h
    | attributeOf _ _ henclosed | between _ henclosed =>
        cases ((enclosed_iff hopening hkeyword hclosing).1 henclosed).1
    | across hname henclosed =>
        exact ⟨_, hname, ((enclosed_iff hopening hkeyword hclosing).1 henclosed).2.symm, rfl⟩

/-- The fields of a declared construct are its clauses. -/
theorem reads_clause {kind : Node.Kind} {budget : Nat} {depth : Int}
    (hbudget : maxDepth + 1 ≤ depth + budget)
    (hkind : kind = .entity ∨ kind = .association ∨ kind = .hierarchy ∨ kind = .foreignKey) :
    Reads meaning (Reader.field meaning budget kind) (@Clause.WrittenAs kind) Clause.actions
      depth := by
  refine reads_field hbudget Clause.framed fun smaller hsmaller => ?_
  rcases hkind with rfl | rfl | rfl | rfl
  · exact bodyReads_entity (by omega)
  · exact bodyReads_association (by omega)
  · exact bodyReads_hierarchy
  · exact bodyReads_foreignKey

/-! ### Declarations -/

theorem Declaration.framed : Framed .start Declaration.WrittenAs := by
  intro declaration tokens h
  cases h with
  | entity _ _ henclosed | association _ _ henclosed | hierarchy _ _ _ henclosed
  | foreignKey _ _ henclosed => exact ⟨_, _, _, henclosed, rfl⟩

theorem Declaration.grouped : Grouped Declaration.WrittenAs := by
  intro declaration tokens h
  cases h with
  | entity hname hclauses henclosed | association hname hclauses henclosed
  | foreignKey hname hclauses henclosed =>
      refine henclosed.group ?_
      rw [openedBy_cons, hclauses.openedBy Clause.grouped,
        nesting_of_ne (by simp [hname]) (by simp [hname])]
      rfl
  | hierarchy hname hwords hclauses henclosed =>
      refine henclosed.group ?_
      rw [openedBy_cons, openedBy_append, hwords.openedBy, hclauses.openedBy Clause.grouped,
        nesting_of_ne (by simp [hname]) (by simp [hname])]
      rfl

/-- What is read behind the reserved word of a construct without details of its own, if no other
declaration is written with that word. -/
theorem construct_reads {kind : Node.Kind} {inside : Reader σ ε Unit}
    {opening keyword closing : Token}
    (hinside : Reads meaning inside (@Clause.WrittenAs kind) Clause.actions before.depth)
    (hspelled : ∀ token ∈ before.unread, token.Spelled) (hend : after.atBodyEnd)
    (hhierarchy : kind ≠ .hierarchy) (hattribute : kind ≠ .attribute)
    (make : String → List (Clause kind) → Declaration)
    (hactions : ∀ name clauses, (make name clauses).actions =
      .declare kind name :: (clauses.flatMap Clause.actions ++ [.close]))
    (hmake : ∀ (name : Token) clauses rest, name.kind = .identifier →
      Row Clause.WrittenAs clauses rest →
        (make name.text clauses).WrittenAs (opening :: keyword :: (name :: rest ++ [closing])))
    (honly : ∀ (declaration : Declaration) (inner : List Token),
      declaration.WrittenAs (opening :: keyword :: (inner ++ [closing])) →
        ∃ (name : Token) (clauses : List (Clause kind)) (rest : List Token),
          name.kind = .identifier ∧ Row Clause.WrittenAs clauses rest ∧ inner = name :: rest ∧
            declaration = make name.text clauses) :
    Reader.construct meaning inside kind before = .ok () after ↔
      ∃ (declaration : Declaration) (inner : List Token),
        declaration.WrittenAs (opening :: keyword :: (inner ++ [closing])) ∧
          Passes meaning declaration.actions inner before after := by
  rw [Reader.construct_ok hinside Clause.grouped hspelled]
  constructor
  · rintro ⟨name, detailActions, detail, clauses, rest, hname, hdetails, hrow, hpass, -⟩
    cases hdetails with
    | hierarchy => exact absurd rfl hhierarchy
    | attr => exact absurd rfl hattribute
    | plain =>
        exact ⟨make name.text clauses, name :: rest, hmake name clauses rest hname hrow,
          (hactions name.text clauses).symm ▸ hpass⟩
  · rintro ⟨declaration, inner, hwritten, hpass⟩
    obtain ⟨name, clauses, rest, hname, hrow, rfl, rfl⟩ := honly declaration inner hwritten
    exact ⟨name, [], [], clauses, rest, hname, .plain hhierarchy hattribute, hrow,
      hactions name.text clauses ▸ hpass, hend⟩

theorem bodyReads_start {budget : Nat} {depth : Int} (hbudget : maxDepth + 1 ≤ depth + budget) :
    BodyReads meaning (Reader.field meaning budget) .start Declaration.WrittenAs
      Declaration.actions depth := by
  intro opening keyword closing word field before after hopening hkeyword hclosing hlookup
    hdepth hspelled hend
  have hfield := Field.mem_table hlookup
  simp only [Field.table, List.mem_cons, Prod.mk.injEq, List.not_mem_nil, or_false] at hfield
  rcases hfield with ⟨rfl, rfl⟩ | ⟨rfl, rfl⟩ | ⟨rfl, rfl⟩ | ⟨rfl, rfl⟩
  · refine construct_reads (hdepth ▸ reads_clause hbudget (by simp)) hspelled hend (by decide)
      (by decide) .entity (fun _ _ => rfl)
      (fun name clauses rest hname hrow => .entity hname hrow ⟨hopening, hkeyword, hclosing⟩)
      fun declaration inner hwritten => ?_
    cases hwritten with
    | association _ _ henclosed | foreignKey _ _ henclosed | hierarchy _ _ _ henclosed =>
        cases ((enclosed_iff hopening hkeyword hclosing).1 henclosed).1
    | entity hname hrow henclosed =>
        exact ⟨_, _, _, hname, hrow, ((enclosed_iff hopening hkeyword hclosing).1 henclosed).2.symm,
          rfl⟩
  · refine construct_reads (hdepth ▸ reads_clause hbudget (by simp)) hspelled hend (by decide)
      (by decide) .association (fun _ _ => rfl)
      (fun name clauses rest hname hrow => .association hname hrow ⟨hopening, hkeyword, hclosing⟩)
      fun declaration inner hwritten => ?_
    cases hwritten with
    | entity _ _ henclosed | foreignKey _ _ henclosed | hierarchy _ _ _ henclosed =>
        cases ((enclosed_iff hopening hkeyword hclosing).1 henclosed).1
    | association hname hrow henclosed =>
        exact ⟨_, _, _, hname, hrow, ((enclosed_iff hopening hkeyword hclosing).1 henclosed).2.symm,
          rfl⟩
  · rw [Reader.fieldBody, Reader.construct_ok (hdepth ▸ reads_clause hbudget (by simp))
      Clause.grouped hspelled]
    constructor
    · rintro ⟨name, detailActions, detail, clauses, rest, hname, hdetails, hrow, hpass, -⟩
      cases hdetails with
      | plain hhierarchy => exact absurd rfl hhierarchy
      | hierarchy hwords =>
          exact ⟨_, _, .hierarchy hname hwords hrow ⟨hopening, hkeyword, hclosing⟩, hpass⟩
    · rintro ⟨declaration, inner, hwritten, hpass⟩
      cases hwritten with
      | entity _ _ henclosed | association _ _ henclosed | foreignKey _ _ henclosed =>
          cases ((enclosed_iff hopening hkeyword hclosing).1 henclosed).1
      | hierarchy hname hwords hrow henclosed =>
          obtain ⟨-, rfl⟩ := (enclosed_iff hopening hkeyword hclosing).1 henclosed
          exact ⟨_, _, _, _, _, hname, .hierarchy hwords, hrow, hpass, hend⟩
  · refine construct_reads (hdepth ▸ reads_clause hbudget (by simp)) hspelled hend (by decide)
      (by decide) .foreignKey (fun _ _ => rfl)
      (fun name clauses rest hname hrow => .foreignKey hname hrow ⟨hopening, hkeyword, hclosing⟩)
      fun declaration inner hwritten => ?_
    cases hwritten with
    | entity _ _ henclosed | association _ _ henclosed | hierarchy _ _ _ henclosed =>
        cases ((enclosed_iff hopening hkeyword hclosing).1 henclosed).1
    | foreignKey hname hrow henclosed =>
        exact ⟨_, _, _, hname, hrow, ((enclosed_iff hopening hkeyword hclosing).1 henclosed).2.symm,
          rfl⟩

/-- At the top level, fields are declarations. -/
theorem reads_declaration {budget : Nat} (hbudget : maxDepth + 1 ≤ budget) :
    Reads meaning (Reader.field meaning budget .start) Declaration.WrittenAs Declaration.actions
      0 := by
  refine reads_field (by omega) Declaration.framed fun smaller hsmaller => ?_
  exact bodyReads_start (by omega)

end ErDiagram
