import ErDiagram.Proofs.Lookahead

/-!
Properties that the state keeps while a declaration is read. If each action keeps a property, then
so does a reader, wherever it stops. Some actions say something of the construct that is open, and
those may count on one: no reader reports them but right behind a name that it has declared.
-/

namespace ErDiagram

variable {σ ε α β : Type}

/-! ### What readers do to the state -/

/-- A reader does not report anything. -/
structure Silent (reader : Reader σ ε α) : Prop where
  ok : ∀ {before after : Reading σ} {a : α}, reader before = .ok a after →
    after.state = before.state
  error : ∀ {before after : Reading σ} {fault : Fault ε}, reader before = .error fault after →
    after.state = before.state

/-- A reader leads from states with one property to states with another, and stops only in safe
states. -/
structure Keeps (safe pre post : σ → Prop) (reader : Reader σ ε α) : Prop where
  ok : ∀ {before after : Reading σ} {a : α}, pre before.state → reader before = .ok a after →
    post after.state
  error : ∀ {before after : Reading σ} {fault : Fault ε}, pre before.state →
    reader before = .error fault after → safe after.state

namespace Silent

theorem bind {reader : Reader σ ε α} {next : α → Reader σ ε β} (h : Silent reader)
    (hnext : ∀ a, Silent (next a)) : Silent (reader >>= next) where
  ok := by
    intro before after b hok
    obtain ⟨a, middle, hfirst, hsecond⟩ := Reader.bind_ok.1 hok
    rw [(hnext a).ok hsecond, h.ok hfirst]
  error := by
    intro before after fault herror
    rcases Reader.bind_error.1 herror with hfirst | ⟨a, middle, hfirst, hsecond⟩
    · exact h.error hfirst
    · rw [(hnext a).error hsecond, h.ok hfirst]

theorem state_advance (reading : Reading σ) : reading.advance.state = reading.state := by
  unfold Reading.advance
  split <;> rfl

theorem pure (a : α) : Silent (pure a : Reader σ ε α) where
  ok h := by
    cases h
    rfl
  error h := by cases h

theorem fail (cause : Fault.Cause ε) (token : Option Token) :
    Silent (Reader.fail cause token : Reader σ ε α) where
  ok h := by cases h
  error h := by
    cases h
    rfl

theorem ask (question : Reading σ → α) : Silent (Reader.ask question : Reader σ ε α) where
  ok h := by
    cases h
    rfl
  error h := by cases h

theorem peek {reader : Reader σ ε α} {take : Token → Option α} {error : SyntaxError}
    (hread : reader.Peeks take error) : Silent reader where
  ok h := by
    rw [hread] at h
    split at h
    · cases h
      exact state_advance _
    · cases h
  error h := by
    rw [hread] at h
    split at h
    · cases h
    · cases h
      rfl

theorem expect (kind : Token.Kind) (error : SyntaxError) :
    Silent (Reader.expect kind error : Reader σ ε Token) :=
  peek (Reader.expect_peeks kind error)

theorem accept (kind : Token.Kind) : Silent (Reader.accept kind : Reader σ ε Bool) where
  ok h := by
    unfold Reader.accept at h
    split at h
    · cases h
      exact state_advance _
    · cases h
      rfl
  error h := by
    unfold Reader.accept at h
    split at h <;> cases h

theorem decode (value? : String → Option α) (error : SyntaxError) :
    Silent (Reader.decode value? error : Reader σ ε α) :=
  peek (Reader.decode_peeks value? error)

theorem decoded (token : Token) (result : Except InvalidCardinality α) :
    Silent (Reader.decoded token result : Reader σ ε α) := by
  cases result with
  | ok value => exact pure value
  | error error => exact fail _ _

theorem fieldKeyword (owner : Node.Kind) :
    Silent (Reader.fieldKeyword owner : Reader σ ε (Token × Field)) :=
  peek (Reader.fieldKeyword_peeks owner)

theorem cardinality : Silent (Reader.cardinality : Reader σ ε Cardinality) := by
  apply (expect _ _).bind
  intro first
  split
  · exact decoded _ _
  · apply (decoded _ _).bind
    intro min
    apply (expect _ _).bind
    intro second
    apply (decoded _ _).bind
    intro max
    exact pure _

theorem hierarchyType : Silent (Reader.hierarchyType : Reader σ ε HierarchyType) := by
  apply (accept _).bind
  intro _
  apply (accept _).bind
  intro subset
  split
  · exact pure _
  · apply (decode _ _).bind
    intro total
    apply (decode _ _).bind
    intro exclusive
    exact pure _

theorem keeps {reader : Reader σ ε α} (h : Silent reader) {safe pre : σ → Prop}
    (hsafe : ∀ state, pre state → safe state) : Keeps safe pre pre reader where
  ok hpre hok := h.ok hok ▸ hpre
  error hpre herror := hsafe _ (h.error herror ▸ hpre)

end Silent

/-- An action that says something of the construct that began last. -/
def Action.IsDetail : Action → Prop
  | .classify _ => True
  | .bound _ => True
  | _ => False

/-- Actions keep states safe, if details are only reported inside a construct, that is where one has
been declared. -/
structure Interpretation.Guards (meaning : Interpretation σ ε) (safe inside : σ → Prop) : Prop where
  safe_of_inside : ∀ state, inside state → safe state
  declare : ∀ {kind : Node.Kind} {name : String} {state after : σ}, safe state →
    meaning.act (.declare kind name) state = .ok after → inside after
  detail : ∀ {action : Action} {state after : σ}, action.IsDetail → inside state →
    meaning.act action state = .ok after → safe after
  other : ∀ {action : Action} {state after : σ}, ¬action.IsDetail → safe state →
    meaning.act action state = .ok after → safe after

namespace Keeps

theorem bind {safe pre middle post : σ → Prop} {reader : Reader σ ε α} {next : α → Reader σ ε β}
    (h : Keeps safe pre middle reader) (hnext : ∀ a, Keeps safe middle post (next a)) :
    Keeps safe pre post (reader >>= next) where
  ok := by
    intro before after b hpre hok
    obtain ⟨a, middle, hfirst, hsecond⟩ := Reader.bind_ok.1 hok
    exact (hnext a).ok (h.ok hpre hfirst) hsecond
  error := by
    intro before after fault hpre herror
    rcases Reader.bind_error.1 herror with hfirst | ⟨a, middle, hfirst, hsecond⟩
    · exact h.error hpre hfirst
    · exact (hnext a).error (h.ok hpre hfirst) hsecond

theorem report {safe pre post : σ → Prop} {meaning : Interpretation σ ε} {action : Action}
    {token : Option Token} (hsafe : ∀ state, pre state → safe state)
    (hact : ∀ {state after : σ}, pre state → meaning.act action state = .ok after → post after) :
    Keeps safe pre post (Reader.report meaning action token) where
  ok := by
    intro before after u hpre hok
    unfold Reader.report at hok
    split at hok
    · rename_i state hstate
      cases hok
      exact hact hpre hstate
    · cases hok
  error := by
    intro before after fault hpre herror
    unfold Reader.report at herror
    split at herror
    · cases herror
    · cases herror
      exact hsafe _ hpre

theorem items {safe : σ → Prop} {item : Reader σ ε Unit} (hitem : Keeps safe safe safe item) :
    Keeps safe safe safe (Reader.items item) := by
  have hwithin : ∀ bound, Keeps safe safe safe (Reader.itemsWithin item bound) := by
    intro bound
    induction bound with
    | nil => exact (Silent.pure ()).keeps fun _ => id
    | cons token bound ih =>
        rw [Reader.itemsWithin]
        apply ((Silent.ask _).keeps fun _ => id).bind
        intro atEnd
        split
        · exact (Silent.pure ()).keeps fun _ => id
        · exact hitem.bind fun _ => ih
  exact ((Silent.ask _).keeps fun _ => id).bind hwithin

section

variable {meaning : Interpretation σ ε} {safe inside : σ → Prop} (h : meaning.Guards safe inside)
include h

theorem report_other {action : Action} {token : Option Token} (haction : ¬action.IsDetail) :
    Keeps safe safe safe (Reader.report meaning action token) :=
  report (fun _ => id) (h.other haction)

theorem details (kind : Node.Kind) : Keeps safe inside safe (Reader.details meaning kind) := by
  have hnone : Keeps safe inside safe (Pure.pure () : Reader σ ε Unit) :=
    ⟨fun hpre hok => by cases hok; exact h.safe_of_inside _ hpre, fun _ herror => by cases herror⟩
  unfold Reader.details
  split
  · apply (Silent.hierarchyType.keeps h.safe_of_inside).bind
    intro type
    exact report h.safe_of_inside (h.detail trivial)
  · apply ((Silent.accept _).keeps h.safe_of_inside).bind
    intro announced
    split
    · apply (Silent.cardinality.keeps h.safe_of_inside).bind
      intro cardinality
      exact report h.safe_of_inside (h.detail trivial)
    · exact hnone
  · exact hnone

theorem keyNames (names : List String) (bound : List Token) :
    Keeps safe safe safe (Reader.keyNames meaning names bound) := by
  induction bound generalizing names with
  | nil => exact (Silent.pure _).keeps fun _ => id
  | cons token bound ih =>
      rw [Reader.keyNames]
      apply ((Silent.ask _).keeps fun _ => id).bind
      intro atEnd
      split
      · exact (Silent.pure _).keeps fun _ => id
      · apply ((Silent.expect _ _).keeps fun _ => id).bind
        intro name
        exact (report_other h id).bind fun _ => ih _

theorem knownName (kind : Node.Kind) : Keeps safe safe safe (Reader.knownName meaning kind) := by
  apply ((Silent.expect _ _).keeps fun _ => id).bind
  intro name
  exact (report_other h id).bind fun _ => (Silent.pure _).keeps fun _ => id

theorem construct {inner : Reader σ ε Unit} (hinner : Keeps safe safe safe inner)
    (kind : Node.Kind) : Keeps safe safe safe (Reader.construct meaning inner kind) := by
  apply ((Silent.expect _ _).keeps fun _ => id).bind
  intro name
  apply (report (fun _ => id) h.declare).bind
  intro _
  apply (details h kind).bind
  intro _
  apply (items hinner).bind
  intro _
  exact ((Silent.ask _).keeps fun _ => id).bind fun next => report_other h id

theorem fieldBody {inner : Node.Kind → Reader σ ε Unit}
    (hinner : ∀ kind, Keeps safe safe safe (inner kind)) (keyword : Token) (field : Field) :
    Keeps safe safe safe (Reader.fieldBody meaning inner keyword field) := by
  cases field with
  | construct kind => exact construct h (hinner kind) kind
  | primaryKey =>
      apply (report_other h id).bind
      intro _
      apply ((Silent.ask _).keeps fun _ => id).bind
      intro unread
      exact (keyNames h [] unread).bind fun names => report_other h id
  | branch =>
      apply (knownName h .entity).bind
      intro entity
      apply ((Silent.expect _ _).keeps fun _ => id).bind
      intro card
      exact (Silent.cardinality.keeps fun _ => id).bind fun cardinality => report_other h id
  | attributeOf =>
      apply ((Silent.expect _ _).keeps fun _ => id).bind
      intro name
      exact (knownName h .entity).bind fun entity => report_other h id
  | mention kind => exact (knownName h kind).bind fun name => report_other h id

/-- Where a declaration stops, the state is safe. -/
theorem field (budget : Nat) (owner : Node.Kind) :
    Keeps safe safe safe (Reader.field meaning budget owner) := by
  induction budget generalizing owner with
  | zero => exact (Silent.fail _ _).keeps fun _ => id
  | succ budget ih =>
      rw [Reader.field_succ]
      apply ((Silent.expect _ _).keeps fun _ => id).bind
      intro paren
      apply ((Silent.ask _).keeps fun _ => id).bind
      intro depth
      split
      · exact (Silent.fail _ _).keeps fun _ => id
      · have hinside : Keeps safe safe safe (Reader.fieldInside meaning budget owner) :=
          ((Silent.fieldKeyword owner).keeps fun _ => id).bind fun found => fieldBody h ih _ _
        apply hinside.bind
        intro _
        exact ((Silent.expect _ _).keeps fun _ => id).bind fun _ =>
          (Silent.pure ()).keeps fun _ => id

end

end Keeps
end ErDiagram
