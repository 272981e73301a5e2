import ErDiagram.Proofs.Nesting

/-!
What a reader does when it does not stop: it passes over some tokens and reports some actions, all
of which are carried out. Passages are put together end to end, and so are readers; every reader
that parses a construct is characterized by the passages that it makes.
-/

namespace ErDiagram

/-- What some actions, one after another, do to a state. -/
def Interpretation.acts {σ ε : Type} (meaning : Interpretation σ ε) (actions : List Action)
    (state : σ) : Except ε σ :=
  actions.foldlM (fun state action => meaning.act action state) state

/-- One reading leads to another over some tokens, with some actions carried out on the way. -/
structure Passes {σ ε : Type} (meaning : Interpretation σ ε) (actions : List Action)
    (tokens : List Token) (before after : Reading σ) : Prop where
  unread : before.unread = tokens ++ after.unread
  depth : after.depth = before.depth + openedBy tokens
  shallow : Shallow before.depth tokens
  acts : meaning.acts actions before.state = .ok after.state

section

variable {σ ε α β : Type} {meaning : Interpretation σ ε}

theorem Interpretation.acts_append {first second : List Action} {state final : σ} :
    meaning.acts (first ++ second) state = .ok final ↔
      ∃ middle, meaning.acts first state = .ok middle ∧
        meaning.acts second middle = .ok final := by
  unfold Interpretation.acts
  rw [List.foldlM_append]
  cases first.foldlM (fun state action => meaning.act action state) state with
  | error error => simp [bind, Except.bind]
  | ok middle => simp [bind, Except.bind]

@[simp] theorem Interpretation.acts_nil (state : σ) : meaning.acts [] state = .ok state := rfl

@[simp] theorem Interpretation.acts_singleton (action : Action) (state : σ) :
    meaning.acts [action] state = meaning.act action state := by
  simp only [acts, List.foldlM_cons, List.foldlM_nil]
  cases meaning.act action state <;> rfl

theorem Interpretation.acts_cons {action : Action} {rest : List Action} {state final : σ} :
    meaning.acts (action :: rest) state = .ok final ↔
      ∃ middle, meaning.act action state = .ok middle ∧ meaning.acts rest middle = .ok final := by
  rw [← List.singleton_append, acts_append]
  simp only [acts_singleton]

theorem passes_nil {before after : Reading σ} :
    Passes meaning [] [] before after ↔ after = before := by
  constructor
  · rintro ⟨hunread, hdepth, -, hacts⟩
    cases before
    cases after
    simp_all
  · rintro rfl
    exact ⟨rfl, by simp, trivial, rfl⟩

theorem passes_append (first : List Action) (front : List Token) {second : List Action}
    {back : List Token}
    {before after : Reading σ} :
    Passes meaning (first ++ second) (front ++ back) before after ↔
      ∃ middle, Passes meaning first front before middle ∧
        Passes meaning second back middle after := by
  constructor
  · rintro ⟨hunread, hdepth, hshallow, hacts⟩
    obtain ⟨hfront, hback⟩ := shallow_append.1 hshallow
    obtain ⟨state, hfirst, hsecond⟩ := Interpretation.acts_append.1 hacts
    refine ⟨⟨back ++ after.unread, before.depth + openedBy front, state⟩,
      ⟨by rw [hunread, List.append_assoc], rfl, hfront, hfirst⟩, ⟨rfl, ?_, hback, hsecond⟩⟩
    rw [hdepth, openedBy_append, Int.add_assoc]
  · rintro ⟨middle, hfirst, hsecond⟩
    refine ⟨?_, ?_, ?_, ?_⟩
    · rw [hfirst.unread, hsecond.unread, List.append_assoc]
    · rw [hsecond.depth, hfirst.depth, openedBy_append, Int.add_assoc]
    · exact shallow_append.2 ⟨hfirst.shallow, hfirst.depth ▸ hsecond.shallow⟩
    · exact Interpretation.acts_append.2 ⟨middle.state, hfirst.acts, hsecond.acts⟩

/-- A passage over one token. -/
theorem passes_token {token : Token} {before after : Reading σ} :
    Passes meaning [] [token] before after ↔
      (token.kind = .leftParen → before.depth + 1 ≤ maxDepth) ∧ before.unread = token :: after.unread ∧
        after = before.advance := by
  constructor
  · rintro ⟨hunread, hdepth, hshallow, hacts⟩
    refine ⟨hshallow.1, hunread, ?_⟩
    cases before
    cases after
    simp_all [Reading.advance]
  · rintro ⟨hshallow, hunread, rfl⟩
    obtain ⟨unread, depth, state⟩ := before
    cases unread with
    | nil => cases hunread
    | cons first rest =>
        cases hunread
        exact ⟨rfl, by simp, ⟨hshallow, trivial⟩, rfl⟩

theorem passes_token_of_ne {token : Token} {before after : Reading σ}
    (hopen : token.kind ≠ .leftParen) :
    Passes meaning [] [token] before after ↔
      before.unread = token :: after.unread ∧ after = before.advance := by
  rw [passes_token]
  exact ⟨fun h => h.2, fun h => ⟨fun heq => absurd heq hopen, h⟩⟩

theorem passes_cons {actions : List Action} {token : Token} {rest : List Token}
    {before after : Reading σ} :
    Passes meaning actions (token :: rest) before after ↔
      ∃ middle, Passes meaning [] [token] before middle ∧
        Passes meaning actions rest middle after := by
  rw [← passes_append]
  rfl

/-- What is reported last is reported behind the tokens. -/
theorem passes_append_report (first : List Action) {second : List Action} {tokens : List Token}
    {before after : Reading σ} :
    Passes meaning (first ++ second) tokens before after ↔
      ∃ middle, Passes meaning first tokens before middle ∧
        Passes meaning second [] middle after := by
  rw [← passes_append, List.append_nil]

/-! ### Readers that do not stop -/

namespace Reader

theorem pure_ok (meaning : Interpretation σ ε) {a b : α} {before after : Reading σ} :
    (pure a : Reader σ ε α) before = .ok b after ↔ a = b ∧ Passes meaning [] [] before after := by
  rw [passes_nil]
  constructor
  · intro h
    cases h
    exact ⟨rfl, rfl⟩
  · rintro ⟨rfl, rfl⟩
    rfl

theorem bind_ok {reader : Reader σ ε α} {next : α → Reader σ ε β} {b : β}
    {before after : Reading σ} :
    (reader >>= next) before = .ok b after ↔
      ∃ a middle, reader before = .ok a middle ∧ next a middle = .ok b after := by
  change EStateM.bind reader next before = _ ↔ _
  unfold EStateM.bind
  cases reader before with
  | ok a middle =>
      constructor
      · exact fun h => ⟨a, middle, rfl, h⟩
      · rintro ⟨_, _, heq, h⟩
        cases heq
        exact h
  | error fault middle =>
      constructor
      · intro h
        cases h
      · rintro ⟨_, _, heq, -⟩
        cases heq

theorem ask_ok (meaning : Interpretation σ ε) {question : Reading σ → α} {a : α} {before after : Reading σ} :
    (ask question : Reader σ ε α) before = .ok a after ↔
      question before = a ∧ Passes meaning [] [] before after := by
  rw [passes_nil]
  constructor
  · intro h
    cases h
    exact ⟨rfl, rfl⟩
  · rintro ⟨rfl, rfl⟩
    rfl

theorem report_ok {action : Action} {token : Option Token} {u : Unit}
    {before after : Reading σ} :
    report meaning action token before = .ok u after ↔
      Passes meaning [action] [] before after := by
  unfold report
  constructor
  · intro h
    split at h
    · rename_i state hact
      cases h
      exact ⟨rfl, by simp, trivial, by simpa using hact⟩
    · cases h
  · rintro ⟨hunread, hdepth, -, hacts⟩
    rw [Interpretation.acts_singleton] at hacts
    rw [hacts]
    cases before
    cases after
    simp_all

theorem expect_ok_iff {kind : Token.Kind} {error : SyntaxError} {token : Token}
    {before after : Reading σ} :
    (expect kind error : Reader σ ε Token) before = .ok token after ↔
      token.kind = kind ∧ before.unread = token :: after.unread ∧ after = before.advance := by
  unfold expect
  rcases hunread : before.unread with _ | ⟨first, rest⟩
  · simp [Reading.next?, hunread]
  · by_cases hkind : first.kind = kind
    · simp only [Reading.next?, hunread, List.head?_cons, hkind, if_true]
      constructor
      · intro h
        cases h
        exact ⟨hkind, by simp [Reading.advance, hunread], rfl⟩
      · rintro ⟨-, heq, rfl⟩
        cases heq
        rfl
    · simp only [Reading.next?, hunread, List.head?_cons, hkind, if_false]
      constructor
      · intro h
        cases h
      · rintro ⟨hkind', heq, rfl⟩
        cases heq
        exact absurd hkind' hkind

theorem expect_ok (meaning : Interpretation σ ε) {kind : Token.Kind} {error : SyntaxError}
    {token : Token} {before after : Reading σ} (hopen : kind ≠ .leftParen) :
    (expect kind error : Reader σ ε Token) before = .ok token after ↔
      token.kind = kind ∧ Passes meaning [] [token] before after := by
  rw [expect_ok_iff]
  constructor
  · rintro ⟨rfl, h⟩
    exact ⟨rfl, (passes_token_of_ne hopen).2 h⟩
  · rintro ⟨rfl, h⟩
    exact ⟨rfl, (passes_token_of_ne hopen).1 h⟩

theorem expectName_ok (meaning : Interpretation σ ε) {kind : Node.Kind} {token : Token}
    {before after : Reading σ} :
    (expectName kind : Reader σ ε Token) before = .ok token after ↔
      token.kind = .identifier ∧ Passes meaning [] [token] before after :=
  expect_ok meaning (by decide)

theorem accept_true (meaning : Interpretation σ ε) {kind : Token.Kind} {before after : Reading σ}
    (hopen : kind ≠ .leftParen) :
    (accept kind : Reader σ ε Bool) before = .ok true after ↔
      ∃ token, token.kind = kind ∧ Passes meaning [] [token] before after := by
  unfold accept
  rcases hunread : before.unread with _ | ⟨first, rest⟩
  · simp only [Reading.isNext, Reading.next?, hunread, List.head?_nil, Option.any_none,
      Bool.false_eq_true, if_false]
    constructor
    · intro h
      cases h
    · rintro ⟨token, rfl, h⟩
      rw [passes_token_of_ne hopen, hunread] at h
      cases h.1
  · by_cases hkind : first.kind = kind
    · simp only [Reading.isNext, Reading.next?, hunread, List.head?_cons, Option.any_some, hkind,
        decide_true, if_true]
      constructor
      · intro h
        cases h
        refine ⟨first, hkind, (passes_token_of_ne (hkind ▸ hopen)).2 ⟨?_, rfl⟩⟩
        simp [Reading.advance, hunread]
      · rintro ⟨token, rfl, h⟩
        rw [((passes_token_of_ne hopen).1 h).2]
    · simp only [Reading.isNext, Reading.next?, hunread, List.head?_cons, Option.any_some, hkind,
        decide_false, Bool.false_eq_true, if_false]
      constructor
      · intro h
        cases h
      · rintro ⟨token, rfl, h⟩
        have heq := ((passes_token_of_ne hopen).1 h).1
        rw [hunread] at heq
        cases heq
        exact absurd rfl hkind

theorem accept_false (meaning : Interpretation σ ε) {kind : Token.Kind}
    {before after : Reading σ} :
    (accept kind : Reader σ ε Bool) before = .ok false after ↔
      before.isNext kind = false ∧ Passes meaning [] [] before after := by
  rw [passes_nil]
  unfold accept
  split
  · rename_i hnext
    simp [hnext]
  · rename_i hnext
    constructor
    · intro h
      cases h
      exact ⟨by simpa using hnext, rfl⟩
    · rintro ⟨-, rfl⟩
      rfl

theorem decode_ok {value? : String → Option α} {error : SyntaxError} {a : α}
    {before after : Reading σ} :
    (decode value? error : Reader σ ε α) before = .ok a after ↔
      ∃ token, value? token.text = some a ∧ before.unread = token :: after.unread ∧
        after = before.advance := by
  unfold decode
  rcases hunread : before.unread with _ | ⟨first, rest⟩
  · simp [Reading.next?, hunread]
  · simp only [Reading.next?, hunread, List.head?_cons, Option.bind_some]
    cases hvalue : value? first.text with
    | none =>
        constructor
        · intro h
          cases h
        · rintro ⟨token, htoken, heq, rfl⟩
          cases heq
          rw [hvalue] at htoken
          cases htoken
    | some value =>
        constructor
        · intro h
          cases h
          exact ⟨first, hvalue, by simp [Reading.advance, hunread], rfl⟩
        · rintro ⟨token, htoken, heq, rfl⟩
          cases heq
          rw [hvalue] at htoken
          cases htoken
          rfl

theorem decoded_ok (meaning : Interpretation σ ε) {token : Token} {result : Except InvalidCardinality α} {a : α}
    {before after : Reading σ} :
    (decoded token result : Reader σ ε α) before = .ok a after ↔
      result = .ok a ∧ Passes meaning [] [] before after := by
  cases result with
  | ok value =>
      rw [decoded, pure_ok meaning]
      simp
  | error error =>
      constructor
      · intro h
        cases h
      · rintro ⟨h, -⟩
        cases h

end Reader
end
end ErDiagram
