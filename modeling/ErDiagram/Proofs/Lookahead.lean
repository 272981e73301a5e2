import ErDiagram.Proofs.Confined

/-!
Loops and fields look no further than the readers that they are made of. A loop may go as far as
there are tokens, so it could notice that more of them follow; but each of its items uses up a token,
so it always ends before that.
-/

namespace ErDiagram

variable {σ ε α β : Type}

namespace Confined

variable {allowed : Token → Prop} {gives : α → Prop} {gives' : β → Prop}

theorem atBodyEnd :
    Confined allowed (fun _ => True) 0 (Reader.ask Reading.atBodyEnd : Reader σ ε Bool) :=
  ask (fun _ _ => trivial) fun _ h more => Reading.atBodyEnd_extend h more

theorem itemsWithin {item : Reader σ ε Unit} (hitem : Confined allowed (fun _ => True) 0 item)
    (bound : List Token) : Confined allowed (fun _ => True) 0 (Reader.itemsWithin item bound) := by
  induction bound with
  | nil => exact pure trivial
  | cons token bound ih =>
      rw [Reader.itemsWithin]
      apply atBodyEnd.bind
      intro atEnd _
      split
      · exact pure trivial
      · apply hitem.bind
        intro _ _
        exact ih

/-- How far a loop may go at most does not matter once it is as far as there are tokens, so a loop
that may go just as far does not look beyond what it reads either. -/
theorem unread_bind {loop : List Token → Reader σ ε α}
    (hloop : ∀ bound, Confined allowed gives 0 (loop bound))
    (hbound : ∀ (before : Reading σ) (bound bound' : List Token),
      (∀ token ∈ before.unread, allowed token) → before.unread.length ≤ bound.length →
        before.unread.length ≤ bound'.length → loop bound before = loop bound' before) :
    Confined allowed gives 0 (Reader.ask Reading.unread >>= loop) where
  ok := fun hallowed hok => (hloop _).ok hallowed hok
  error := fun hallowed herror => (hloop _).error hallowed herror
  extend_ok := by
    intro before after a more hallowed hok hunread
    have hlonger : loop (before.unread ++ more) before = .ok a after := by
      rw [hbound before (before.unread ++ more) before.unread hallowed (by simp) (Nat.le_refl _)]
      exact hok
    exact (hloop (before.unread ++ more)).extend_ok more hallowed hlonger hunread
  extend_error := by
    intro before after fault more hallowed herror hunread
    have hlonger : loop (before.unread ++ more) before = .error fault after := by
      rw [hbound before (before.unread ++ more) before.unread hallowed (by simp) (Nat.le_refl _)]
      exact herror
    exact (hloop (before.unread ++ more)).extend_error more hallowed hlonger hunread

/-- What is made of what a reader gives. -/
theorem then_pure {reader : Reader σ ε α} {deeper : Int} (h : Confined allowed gives deeper reader)
    (f : α → β) (hf : ∀ a, gives a → gives' (f a)) :
    Confined allowed gives' deeper (reader >>= fun a => Pure.pure (f a)) where
  ok := by
    intro before after b hallowed hok
    obtain ⟨a, middle, hfirst, hsecond⟩ := Reader.bind_ok.1 hok
    cases hsecond
    obtain ⟨hreach, hdepth, ha⟩ := h.ok hallowed hfirst
    exact ⟨hreach, hdepth, hf a ha⟩
  error := by
    intro before after fault hallowed herror
    rcases Reader.bind_error.1 herror with hfirst | ⟨a, middle, -, hsecond⟩
    · exact h.error hallowed hfirst
    · cases hsecond
  extend_ok := by
    intro before after b more hallowed hok hunread
    obtain ⟨a, middle, hfirst, hsecond⟩ := Reader.bind_ok.1 hok
    cases hsecond
    exact Reader.bind_ok.2 ⟨a, _, h.extend_ok more hallowed hfirst hunread, rfl⟩
  extend_error := by
    intro before after fault more hallowed herror hunread
    rcases Reader.bind_error.1 herror with hfirst | ⟨a, middle, -, hsecond⟩
    · exact Reader.bind_error.2 (Or.inl (h.extend_error more hallowed hfirst hunread))
    · cases hsecond

end Confined

/-- A reader that is given allowed tokens and does not stop reads one of them at least. -/
def Progresses (allowed : Token → Prop) (reader : Reader σ ε α) : Prop :=
  ∀ (before after : Reading σ) (a : α), (∀ token ∈ before.unread, allowed token) →
    reader before = .ok a after → after.unread.length < before.unread.length

namespace Reader

variable {allowed : Token → Prop}

theorem bind_congr {reader reader' : Reader σ ε α} {next next' : α → Reader σ ε β}
    {before : Reading σ} (h : reader before = reader' before)
    (hnext : ∀ a middle, reader before = .ok a middle → next a middle = next' a middle) :
    (reader >>= next) before = (reader' >>= next') before := by
  change EStateM.bind reader next before = EStateM.bind reader' next' before
  unfold EStateM.bind
  rw [← h]
  cases hread : reader before with
  | ok a middle => exact hnext a middle hread
  | error fault middle => rfl

theorem itemsWithin_eq {item : Reader σ ε Unit}
    (hitem : Confined allowed (fun _ => True) 0 item) (hprogress : Progresses allowed item)
    (before : Reading σ) (bound bound' : List Token)
    (hallowed : ∀ token ∈ before.unread, allowed token) (h : before.unread.length ≤ bound.length)
    (h' : before.unread.length ≤ bound'.length) :
    itemsWithin item bound before = itemsWithin item bound' before := by
  induction bound generalizing before bound' with
  | nil => rw [itemsWithin_of_end (atBodyEnd_of_unread h), itemsWithin_of_end (atBodyEnd_of_unread h)]
  | cons token bound ih =>
      by_cases hend : before.atBodyEnd = true
      · rw [itemsWithin_of_end hend, itemsWithin_of_end hend]
      · cases bound' with
        | nil => exact absurd (atBodyEnd_of_unread h') hend
        | cons token' bound' =>
            rw [itemsWithin_of_item hend, itemsWithin_of_item hend]
            apply bind_congr rfl
            intro u middle hread
            have hlt := hprogress before middle u hallowed hread
            have hsuffix := (hitem.ok hallowed hread).1.suffix
            rw [List.length_cons] at h h'
            exact ih middle bound' (fun token htoken => hallowed token (hsuffix.subset htoken))
              (by omega) (by omega)

variable (meaning : Interpretation σ ε)

theorem keyNames_eq (names : List String) (before : Reading σ) (bound bound' : List Token)
    (h : before.unread.length ≤ bound.length) (h' : before.unread.length ≤ bound'.length) :
    keyNames meaning names bound before = keyNames meaning names bound' before := by
  induction bound generalizing names before bound' with
  | nil =>
      rw [keyNames_of_end (atBodyEnd_of_unread h),
        keyNames_of_end (atBodyEnd_of_unread h)]
  | cons token bound ih =>
      by_cases hend : before.atBodyEnd = true
      · rw [keyNames_of_end hend, keyNames_of_end hend]
      · cases bound' with
        | nil => exact absurd (atBodyEnd_of_unread h') hend
        | cons token' bound' =>
            rw [keyNames_of_name hend, keyNames_of_name hend]
            apply bind_congr rfl
            intro name middle hname
            apply bind_congr rfl
            intro u last hreport
            have hunread := (expect_ok_iff.1 hname).2.1
            have hsame : middle.unread = last.unread := (report_ok.1 hreport).unread
            rw [hunread, hsame, List.length_cons, List.length_cons] at h h'
            exact ih _ last bound' (by omega) (by omega)

end Reader

namespace Confined

variable {allowed : Token → Prop}

theorem items {item : Reader σ ε Unit} (hitem : Confined allowed (fun _ => True) 0 item)
    (hprogress : Progresses allowed item) :
    Confined allowed (fun _ => True) 0 (Reader.items item) :=
  unread_bind (itemsWithin hitem) (Reader.itemsWithin_eq hitem hprogress)

theorem keyNames (meaning : Interpretation σ ε) (names : List String) (bound : List Token) :
    Confined allowed (fun _ => True) 0 (Reader.keyNames meaning names bound) := by
  induction bound generalizing names with
  | nil => exact pure trivial
  | cons token bound ih =>
      rw [Reader.keyNames]
      apply atBodyEnd.bind
      intro atEnd _
      split
      · exact pure trivial
      · apply (expect_flat (by decide)).bind
        rintro name ⟨hname, -⟩
        apply (report fun blamed h => Option.mem_some.1 h ▸ hname).bind
        intro _ _
        exact ih _

/-! ### Fields -/

variable (meaning : Interpretation σ ε)

theorem primaryKey {keyword : Token} (hkeyword : allowed keyword) :
    Confined allowed (fun _ => True) 0 (Reader.primaryKey meaning keyword) := by
  have hblamed : ∀ blamed ∈ some keyword, allowed blamed :=
    fun blamed h => Option.mem_some.1 h ▸ hkeyword
  apply (report hblamed).bind
  intro _ _
  apply unread_bind
  · intro bound
    apply (keyNames meaning [] bound).bind
    intro names _
    exact report hblamed
  · intro before bound bound' _ h h'
    exact Reader.bind_congr (Reader.keyNames_eq meaning [] before bound bound' h h')
      fun _ _ _ => rfl

theorem knownName (kind : Node.Kind) :
    Confined allowed allowed 0 (Reader.knownName meaning kind) := by
  apply (expect_flat (by decide)).bind
  rintro name ⟨hname, -⟩
  apply (report fun blamed h => Option.mem_some.1 h ▸ hname).bind
  intro _ _
  exact pure hname

theorem branch {keyword : Token} (hkeyword : allowed keyword) :
    Confined allowed (fun _ => True) 0 (Reader.branch meaning keyword) := by
  apply (knownName meaning .entity).bind
  intro entity _
  apply (expect_flat (by decide)).bind
  intro card _
  apply cardinality.bind
  intro cardinality _
  exact report fun blamed h => Option.mem_some.1 h ▸ hkeyword

theorem attributeOf : Confined allowed (fun _ => True) 0 (Reader.attributeOf meaning) := by
  apply (expect_flat (by decide)).bind
  rintro name ⟨hname, -⟩
  apply (knownName meaning .entity).bind
  intro entity _
  exact report fun blamed h => Option.mem_some.1 h ▸ hname

theorem mention (kind : Node.Kind) :
    Confined allowed (fun _ => True) 0 (Reader.mention meaning kind) := by
  apply (knownName meaning kind).bind
  intro name hname
  exact report fun blamed h => Option.mem_some.1 h ▸ hname

section

variable (hspelled : ∀ token, allowed token → token.Spelled)
include hspelled

theorem construct {inside : Reader σ ε Unit} (hinside : Confined allowed (fun _ => True) 0 inside)
    (hprogress : Progresses allowed inside) (kind : Node.Kind) :
    Confined allowed (fun _ => True) 0 (Reader.construct meaning inside kind) := by
  apply (expect_flat (by decide)).bind
  rintro name ⟨hname, -⟩
  apply (report fun blamed h => Option.mem_some.1 h ▸ hname).bind
  intro _ _
  apply (details hspelled meaning kind).bind
  intro _ _
  apply (items hinside hprogress).bind
  intro _ _
  apply Confined.bind (ask (fun before hallowed => ?_) fun _ h more => Reading.next?_extend h more)
  · intro next hnext
    exact report hnext
  · exact fun token htoken => hallowed token (Reading.mem_of_next? htoken)

theorem fieldBody {inside : Node.Kind → Reader σ ε Unit}
    (hinside : ∀ kind, Confined allowed (fun _ => True) 0 (inside kind))
    (hprogress : ∀ kind, Progresses allowed (inside kind)) {keyword : Token}
    (hkeyword : allowed keyword) (field : Field) :
    Confined allowed (fun _ => True) 0 (Reader.fieldBody meaning inside keyword field) := by
  cases field with
  | construct kind => exact construct meaning hspelled (hinside kind) (hprogress kind) kind
  | primaryKey => exact primaryKey meaning hkeyword
  | branch => exact branch meaning hkeyword
  | attributeOf => exact attributeOf meaning
  | mention kind => exact mention meaning kind

end

end Confined

namespace Reader

variable (meaning : Interpretation σ ε)

/-- Reads what stands between the parentheses of a field. -/
def fieldInside (budget : Nat) (owner : Node.Kind) : Reader σ ε Unit :=
  fieldKeyword owner >>= fun found => fieldBody meaning (field meaning budget) found.1 found.2

/-- Reads what stands behind the opening parenthesis of a field. -/
def fieldRest (budget : Nat) (owner : Node.Kind) (paren : Token) : Reader σ ε Unit :=
  ask Reading.depth >>= fun depth =>
    if maxDepth < depth then fail (.malformed .nestedTooDeeply) (some paren)
    else fieldInside meaning budget owner >>= fun _ => expectKind .rightParen >>= fun _ => pure ()

theorem field_succ (budget : Nat) (owner : Node.Kind) :
    field meaning (budget + 1) owner =
      (expectKind .leftParen >>= fun paren => fieldRest meaning budget owner paren) := by
  unfold fieldRest fieldInside
  simp only [bind_assoc]
  rfl

end Reader

namespace Confined

variable {allowed : Token → Prop} (meaning : Interpretation σ ε)
  (hspelled : ∀ token, allowed token → token.Spelled)
include hspelled

theorem fieldInside {budget : Nat}
    (h : ∀ owner, Confined allowed (fun _ => True) 0 (Reader.field meaning budget owner) ∧
      Progresses allowed (Reader.field meaning budget owner)) (owner : Node.Kind) :
    Confined allowed (fun _ => True) 0 (Reader.fieldInside meaning budget owner) := by
  apply (fieldKeyword owner).bind
  intro found hfound
  exact fieldBody meaning hspelled (fun kind => (h kind).1) (fun kind => (h kind).2) hfound found.2

theorem fieldRest {budget : Nat}
    (h : ∀ owner, Confined allowed (fun _ => True) 0 (Reader.field meaning budget owner) ∧
      Progresses allowed (Reader.field meaning budget owner)) (owner : Node.Kind) {paren : Token}
    (hparen : allowed paren) :
    Confined allowed (fun _ => True) (-1) (Reader.fieldRest meaning budget owner paren) := by
  have hdepth : Confined allowed (fun _ => True) 0 (Reader.ask Reading.depth : Reader σ ε Int) :=
    ask (fun _ _ => trivial) fun _ _ _ => rfl
  apply hdepth.bind_deeper (-1) (-1) _ (Int.le_refl 0) rfl
  intro depth _
  split
  · exact fail fun blamed hblamed => Option.mem_some.1 hblamed ▸ hparen
  · apply (fieldInside meaning hspelled h owner).bind_deeper (-1) (-1) _ (Int.le_refl 0) rfl
    intro _ _
    exact (expect (-1) fun _ h => nesting_rightParen h).then_pure _ fun _ _ => trivial

/-- A field is confined, and it reads a token. -/
theorem field (budget : Nat) (owner : Node.Kind) :
    Confined allowed (fun _ => True) 0 (Reader.field meaning budget owner) ∧
      Progresses allowed (Reader.field meaning budget owner) := by
  induction budget generalizing owner with
  | zero =>
      constructor
      · apply fail
        intro blamed hblamed
        cases hblamed
      · intro before after u hallowed hok
        cases hok
  | succ budget ih =>
      have hrest := fun {paren} => @fieldRest _ _ _ meaning hspelled budget ih owner paren
      rw [Reader.field_succ]
      constructor
      · apply bind_deeper (-1) 0 (expect 1 fun _ h => nesting_leftParen h) _ (by decide) rfl
        rintro paren ⟨hparen, -⟩
        exact hrest hparen
      · intro before after u hallowed hok
        obtain ⟨paren, middle, hfirst, hsecond⟩ := Reader.bind_ok.1 hok
        obtain ⟨hreach, -, hparen, -⟩ :=
          (expect 1 fun _ h => nesting_leftParen h).ok hallowed hfirst
        have hsuffix := ((hrest hparen).ok
          (fun token htoken => hallowed token (hreach.suffix.subset htoken)) hsecond).1.suffix
        rw [(Reader.expect_ok_iff.1 hfirst).2.1, List.length_cons]
        exact Nat.lt_succ_of_le hsuffix.length_le

end Confined
end ErDiagram
