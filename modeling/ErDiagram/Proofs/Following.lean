import ErDiagram.Proofs.Advancing

/-!
Parts of a pass and readers. Every part of a pass follows the reader of the same part of a declaration:
it takes the same tokens, builds on its stacks what the actions of the reader mean, and stops in the
same places with the complaint that the fault of the reader gives.

Where a reader reports a name and looks it up again, a part of a pass looks it up once and keeps the
id. What a part needs to know of the builder at that time is in its precondition.
-/

namespace ErDiagram.Pass

open Builder (Stacks)

variable {source : String} {α β γ δ : Type}

/-- What a fault of a reading is in a pass. -/
def faultShown (source : String) (fault : ErDiagram.Fault Refusal) : Pass.Fault :=
  match Compile.diagnosticOf (utf8Bytes source.toList) fault with
  | .ok diagnostic => .complaint diagnostic
  | .error cause => .internal cause

/-- Complaints about a token of a pass are those about a token of a reading. -/
def Blames (source : String) (token : Token) (token? : Option Token) : Prop :=
  ∀ category message, complaint source token category message =
    Compile.diagnosticAt (utf8Bytes source.toList) token? category message

/-- Two outcomes at the same place: both parts are read, and something holds of their values, or both
stop with the same fault. -/
inductive Ends (source : String) (base : Pass) (post : α → β → Reading Builder → Prop) :
    EStateM.Result Pass.Fault Pass α →
      EStateM.Result (ErDiagram.Fault Refusal) (Reading Builder) β → Prop where
  | ok {a : α} {b : β} {pass : Pass} {reading : Reading Builder}
    (hshows : Shows source base pass reading) (hpost : post a b reading) :
    Ends source base post (.ok a pass) (.ok b reading)
  | error {fault : ErDiagram.Fault Refusal} {pass : Pass} {reading : Reading Builder}
    (hshows : Shows source base pass reading) :
    Ends source base post (.error (faultShown source fault) pass) (.error fault reading)

namespace Shows

variable {base pass : Pass} {reading : Reading Builder} (h : Shows source base pass reading)
include h

theorem blame {token : Token} {token? : Option Token} {cause : ErDiagram.Fault.Cause Refusal}
    {category : Diagnostic.Category} {message : String} {post : α → β → Reading Builder → Prop}
    (hblames : Blames source token token?)
    (hcause : ∀ bytes, Compile.diagnosticOf bytes ⟨cause, token?⟩ =
      .ok (Compile.diagnosticAt bytes token? category message)) :
    Ends source base post (Step.blame token category message pass)
      (Reader.fail cause token? reading) := by
  have hfault : Pass.Fault.complaint (complaint pass.lexer.source token category message) =
      faultShown source ⟨cause, token?⟩ := by
    rw [faultShown, hcause, h.placed.source_eq, hblames]
  change Ends source base post (.error _ pass) (.error ⟨cause, token?⟩ reading)
  rw [hfault]
  exact .error h

theorem malformed {token : Token} {token? : Option Token} {error : SyntaxError}
    {post : α → β → Reading Builder → Prop} (hblames : Blames source token token?) :
    Ends source base post (Step.malformed token error pass)
      (Reader.fail (.malformed error) token? reading) :=
  h.blame hblames fun _ => rfl

theorem blames : Blames source pass.next reading.next? := by
  rw [h.next?_eq]
  exact h.placed.complaint_next

theorem blames_some (hend : pass.next.kind ≠ .endOfInput) :
    Blames source pass.next (some pass.next) :=
  complaint_eq hend h.placed.valid source

theorem isNext_eq {kind : Token.Kind} (hkind : kind ≠ .endOfInput) :
    reading.isNext kind = decide (pass.next.kind = kind) := by
  rw [Reading.isNext, h.next?_eq, next?]
  by_cases hend : pass.next.kind = .endOfInput
  · rw [if_pos hend, hend, decide_eq_false hkind.symm]
    rfl
  · rw [if_neg hend]
    rfl

theorem atBodyEnd_eq : reading.atBodyEnd = pass.atBodyEnd := by
  rw [Reading.atBodyEnd, Pass.atBodyEnd, h.isNext_eq (by decide), Bool.or_comm]
  congr 1
  by_cases hend : pass.next.kind = .endOfInput
  · rw [h.unread_eq_nil hend, decide_eq_true hend]
    rfl
  · rw [h.unread_of_ne hend, decide_eq_false hend]
    rfl

/-- Only what has been built changes. -/
theorem rebuilt (after : Builder) :
    Shows source base { pass with built := Stacks.ofBuilder after }
      { reading with state := after } where
  placed := ⟨h.placed.source_eq, h.placed.endToken_eq, h.placed.valid, h.placed.ended, h.placed.ahead⟩
  passed := h.passed
  unread_eq := h.unread_eq
  depth_eq := h.depth_eq
  depth_le := h.depth_le
  built_eq := rfl

end Shows

/-! ### Parts that follow readers -/

/-- A part of a pass follows a reader, wherever something holds of the reading. -/
def Follows (source : String) (pre : Reading Builder → Prop) (step : Step α)
    (reader : Reader Builder Refusal β) (post : α → β → Reading Builder → Prop) : Prop :=
  ∀ base pass reading, Shows source base pass reading → pre reading →
    Ends source base post (step pass) (reader reading)

/-- A part of a pass follows a reader wherever both are. -/
abbrev Mirrors (source : String) (step : Step α) (reader : Reader Builder Refusal β) : Prop :=
  Follows source (fun _ => True) step reader fun _ _ _ => True

/-- Both values are the same, and something holds of the value. -/
def Same (post : α → Reading Builder → Prop) : α → α → Reading Builder → Prop :=
  fun a b reading => a = b ∧ post a reading

namespace Follows

variable {pre : Reading Builder → Prop}

theorem bind {step : Step α} {next : α → Step γ} {reader : Reader Builder Refusal β}
    {next' : β → Reader Builder Refusal δ} {middle : α → β → Reading Builder → Prop}
    {post : γ → δ → Reading Builder → Prop} (h : Follows source pre step reader middle)
    (hnext : ∀ a b, Follows source (middle a b) (next a) (next' b) post) :
    Follows source pre (step >>= next) (reader >>= next') post := by
  intro base pass reading hshows hpre
  have hfirst := h base pass reading hshows hpre
  change Ends source base post (EStateM.bind step next pass) (EStateM.bind reader next' reading)
  unfold EStateM.bind
  generalize step pass = result, reader reading = result' at hfirst ⊢
  cases hfirst with
  | ok hshows hmiddle => exact hnext _ _ _ _ _ hshows hmiddle
  | error hshows => exact .error hshows

theorem assume {fact : Prop} {step : Step α} {reader : Reader Builder Refusal β}
    {post : α → β → Reading Builder → Prop} (h : fact → Follows source pre step reader post) :
    Follows source (fun reading => fact ∧ pre reading) step reader post :=
  fun base pass reading hshows hpre => h hpre.1 base pass reading hshows hpre.2

theorem bind_same {step : Step α} {next : α → Step γ} {reader : Reader Builder Refusal α}
    {next' : α → Reader Builder Refusal δ} {middle : α → Reading Builder → Prop}
    {post : γ → δ → Reading Builder → Prop} (h : Follows source pre step reader (Same middle))
    (hnext : ∀ a, Follows source (middle a) (next a) (next' a) post) :
    Follows source pre (step >>= next) (reader >>= next') post := by
  refine h.bind fun a b => assume ?_
  rintro rfl
  exact hnext a

theorem weaken {pre' : Reading Builder → Prop} {step : Step α} {reader : Reader Builder Refusal β}
    {post post' : α → β → Reading Builder → Prop} (h : Follows source pre step reader post)
    (hpre : ∀ reading, pre' reading → pre reading)
    (hpost : ∀ a b reading, post a b reading → post' a b reading) :
    Follows source pre' step reader post' := by
  intro base pass reading hshows hpre'
  have hends := h base pass reading hshows (hpre reading hpre')
  generalize step pass = result, reader reading = result' at hends ⊢
  cases hends with
  | ok hshows hafter => exact .ok hshows (hpost _ _ _ hafter)
  | error hshows => exact .error hshows

theorem pure {a : α} {b : β} {post : α → β → Reading Builder → Prop}
    (h : ∀ reading, pre reading → post a b reading) :
    Follows source pre (pure a) (Pure.pure b) post :=
  fun _ _ reading hshows hpre => .ok hshows (h reading hpre)

theorem ask {question : Pass → α} {question' : Reading Builder → β}
    {post : α → β → Reading Builder → Prop}
    (h : ∀ base pass reading, Shows source base pass reading → pre reading →
      post (question pass) (question' reading) reading) :
    Follows source pre (Step.ask question) (Reader.ask question') post :=
  fun base pass reading hshows hpre => .ok hshows (h base pass reading hshows hpre)

/-- The value of the last part of a part does not matter if nothing is to be given. -/
theorem last {step : Step α} {reader : Reader Builder Refusal Unit}
    {post : α → Unit → Reading Builder → Prop} (h : Follows source pre step reader post) :
    Follows source pre (do let _ ← step) reader fun _ _ _ => True := by
  rw [← bind_pure reader]
  exact h.bind fun _ _ => pure fun _ _ => trivial

/-- What a reader alone comes to holds behind both. -/
theorem and_of_reader {step : Step α} {reader : Reader Builder Refusal β}
    {post : α → β → Reading Builder → Prop} {fact : β → Reading Builder → Prop}
    (h : Follows source pre step reader post)
    (hfact : ∀ before after b, (∀ token ∈ before.unread, token.Spelled) → pre before →
      reader before = .ok b after → fact b after) :
    Follows source pre step reader fun a b reading => post a b reading ∧ fact b reading := by
  intro base pass reading hshows hpre
  have hends := h base pass reading hshows hpre
  have hafter := fun after b => hfact reading after b hshows.spelled hpre
  generalize step pass = result, reader reading = result' at hends hafter ⊢
  cases hends with
  | ok hshows hpost => exact .ok hshows ⟨hpost, hafter _ _ rfl⟩
  | error hshows => exact .error hshows

end Follows

/-! ### Looking at the token that comes next -/

/-- A part of a pass goes on behind the token that comes next if it can take something from it, and
otherwise stops at that token. -/
def Step.Peeks (step : Step α) (take : Token → Option α) (error : SyntaxError) : Prop :=
  ∀ pass, step pass =
    match take pass.next with
    | some a => .ok a pass.advance
    | none => malformed pass.next error pass

namespace Step

theorem expect_peeks (kind : Token.Kind) (error : SyntaxError) :
    Peeks (expect kind error) (fun token => if token.kind = kind then some token else none)
      error := by
  intro pass
  unfold expect
  by_cases hkind : pass.next.kind = kind <;> simp [hkind]

theorem decode_peeks (value? : String → Option α) (error : SyntaxError) :
    Peeks (decode value? error) (value? ·.text) error :=
  fun _ => rfl

theorem fieldKeyword_peeks (owner : Node.Kind) :
    Peeks (fieldKeyword owner) (fun token => (Field.find? owner token.kind).map (token, ·))
      (if owner = .start then .expectedDeclaration else .unknownField owner) := by
  intro pass
  unfold fieldKeyword
  dsimp only
  cases Field.find? owner pass.next.kind <;> rfl

end Step

namespace Follows

variable (hbytes : byteLength source < 2 ^ 31) (holds : Builder → Prop)
include hbytes

/-- Both take the same from the token that comes next, or stop at it. -/
theorem peek {step : Step α} {reader : Reader Builder Refusal α} {take : Token → Option α}
    {error : SyntaxError} (hstep : step.Peeks take error) (hreader : reader.Peeks take error)
    (hend : take ⟨.endOfInput, "", byteLength source⟩ = none) :
    Follows source (holds ·.state) step reader
      (Same fun a reading => (∃ token, take token = some a ∧ Blames source token (some token)) ∧
        holds reading.state) := by
  intro base pass reading hshows hholds
  rw [hstep, hreader, hshows.next?_eq]
  by_cases hnext : pass.next.kind = .endOfInput
  · have hblames := hshows.blames
    rw [hshows.next?_eq, next?, if_pos hnext] at hblames
    rw [next?, if_pos hnext, hshows.placed.ended hnext, hend]
    rw [hshows.placed.ended hnext] at hblames
    exact hshows.malformed hblames
  · have hblames := hshows.blames_some hnext
    rw [next?, if_neg hnext, Option.bind_some]
    cases htake : take pass.next with
    | none => exact hshows.malformed hblames
    | some a =>
        have hafter : holds reading.advance.state := by rwa [Silent.state_advance]
        exact .ok (hshows.advance hbytes hnext) ⟨rfl, ⟨_, htake, hblames⟩, hafter⟩

theorem expect {kind : Token.Kind} (error : SyntaxError) (hkind : kind ≠ .endOfInput) :
    Follows source (holds ·.state) (Step.expect kind error) (Reader.expect kind error)
      (Same fun token reading => Blames source token (some token) ∧ holds reading.state) := by
  refine (peek hbytes holds (Step.expect_peeks kind error) (Reader.expect_peeks kind error)
    (if_neg hkind.symm)).weaken (fun _ => id) ?_
  rintro token _ reading ⟨rfl, ⟨taken, htake, hblames⟩, hholds⟩
  split at htake
  · cases htake
    exact ⟨rfl, hblames, hholds⟩
  · cases htake

theorem decode {value? : String → Option α} (error : SyntaxError) (hend : value? "" = none) :
    Follows source (holds ·.state) (Step.decode value? error) (Reader.decode value? error)
      (Same fun _ reading => holds reading.state) := by
  refine (peek hbytes holds (Step.decode_peeks value? error) (Reader.decode_peeks value? error)
    hend).weaken (fun _ => id) ?_
  exact fun _ _ _ h => ⟨h.1, h.2.2⟩

theorem fieldKeyword (owner : Node.Kind) :
    Follows source (holds ·.state) (Step.fieldKeyword owner) (Reader.fieldKeyword owner)
      (Same fun found reading => Blames source found.1 (some found.1) ∧ holds reading.state) := by
  have hend : Field.find? owner .endOfInput = none := by cases owner <;> rfl
  refine (peek hbytes holds (Step.fieldKeyword_peeks owner) (Reader.fieldKeyword_peeks owner)
    (by rw [hend]; rfl)).weaken (fun _ => id) ?_
  rintro found _ reading ⟨rfl, ⟨token, htake, hblames⟩, hholds⟩
  obtain ⟨field, -, rfl⟩ := Option.map_eq_some_iff.1 htake
  exact ⟨rfl, hblames, hholds⟩

theorem accept {kind : Token.Kind} (hkind : kind ≠ .endOfInput) :
    Follows source (holds ·.state) (Step.accept kind) (Reader.accept kind)
      (Same fun _ reading => holds reading.state) := by
  intro base pass reading hshows hholds
  unfold Step.accept Reader.accept
  rw [hshows.isNext_eq hkind]
  by_cases hnext : pass.next.kind = kind
  · have hend : pass.next.kind ≠ .endOfInput := hnext ▸ hkind
    rw [if_pos hnext, if_pos (decide_eq_true hnext)]
    have hafter : holds reading.advance.state := by rwa [Silent.state_advance]
    exact .ok (hshows.advance hbytes hend) ⟨rfl, hafter⟩
  · rw [if_neg hnext, if_neg (by simpa using hnext)]
    exact .ok hshows ⟨rfl, hholds⟩

omit hbytes in
theorem decoded {token : Token} (hblames : Blames source token (some token))
    (result : Except InvalidCardinality α) :
    Follows source (holds ·.state) (Step.decoded token result) (Reader.decoded token result)
      (Same fun _ reading => holds reading.state) := by
  cases result with
  | ok value => exact pure fun _ h => ⟨rfl, h⟩
  | error error => exact fun _ _ _ hshows _ => hshows.malformed hblames

end Follows

/-! ### Building -/

/-- What an action of the stacks comes to and what an action of a reader means are the same, and
something holds of the answer and the builder behind it. -/
inductive Carries (builder : Builder) (gives : α → Builder → Prop) :
    EStateM.Result Stacks.Failure Stacks α → Except Refusal Builder → Prop where
  | ok {a : α} {after : Builder} (h : gives a after) :
    Carries builder gives (.ok a (Stacks.ofBuilder after)) (.ok after)
  | refused (error : ScopeError) :
    Carries builder gives (.error (.refused error) (Stacks.ofBuilder builder)) (.error (.scope error))

theorem faultOf_refused {token : Token} {token? : Option Token} (h : Blames source token token?)
    (error : ScopeError) :
    Step.faultOf source token (.refused error) =
      faultShown source ⟨.refused (.scope error), token?⟩ := by
  unfold Step.faultOf faultShown Compile.diagnosticOf
  dsimp only
  cases (Refusal.scope error).category? with
  | none => rfl
  | some category => exact congrArg _ (h category error.message)

namespace Follows

variable (holds : Builder → Prop)

/-- Work on the stacks follows a report that means the same. -/
theorem build {action : Stacks.Action α} {act : Action} {token : Token} {token? : Option Token}
    {gives : α → Builder → Prop} (hblames : Blames source token token?)
    (h : ∀ builder, holds builder →
      Carries builder gives (action (Stacks.ofBuilder builder)) (Builder.act act builder)) :
    Follows source (holds ·.state) (Step.build action token)
      (Reader.report Builder.meaning act token?) fun a _ reading => gives a reading.state := by
  intro base pass reading hshows hholds
  have hcarries : Carries reading.state gives (action (Stacks.ofBuilder reading.state))
      (Builder.meaning.act act reading.state) := h reading.state hholds
  unfold Step.build Reader.report
  rw [hshows.built_eq, hshows.placed.source_eq]
  generalize action (Stacks.ofBuilder reading.state) = result,
    Builder.meaning.act act reading.state = meant at hcarries ⊢
  cases hcarries with
  | ok hgives => exact .ok (hshows.rebuilt _) hgives
  | refused error =>
      dsimp only
      rw [faultOf_refused hblames]
      exact .error (hshows.rebuilt _)

/-- An operation follows a report that means the operation. -/
theorem operate (result : Builder → Except ScopeError (Nat × Builder)) {action : Stacks.Action Nat}
    {act : Action} {token : Token} {token? : Option Token} (hblames : Blames source token token?)
    (haction : ∀ builder, action (Stacks.ofBuilder builder) =
      Stacks.leftBy builder (result builder))
    (hact : ∀ builder, holds builder → Builder.act act builder = do
      let (_, after) ← Refusal.ofScope (result builder)
      Pure.pure after) :
    Follows source (holds ·.state) (Step.build action token)
      (Reader.report Builder.meaning act token?) fun _ _ _ => True := by
  refine @build _ _ holds _ _ _ _ (fun _ _ => True) hblames fun builder hholds => ?_
  rw [haction, hact builder hholds]
  cases result builder with
  | ok found => exact .ok trivial
  | error error => exact .refused error

/-- A look-up follows a report that means that the name must be there. -/
theorem lookUp (find : Builder → Except ScopeError Nat) {action : Stacks.Action Nat} {act : Action}
    {token : Token} {token? : Option Token} (hblames : Blames source token token?)
    (haction : ∀ builder, action (Stacks.ofBuilder builder) =
      Stacks.answered builder (find builder))
    (hact : ∀ builder, Builder.act act builder = do
      let _ ← Refusal.ofScope (find builder)
      Pure.pure builder) :
    Follows source (holds ·.state) (Step.build action token)
      (Reader.report Builder.meaning act token?) fun id _ reading =>
        holds reading.state ∧ find reading.state = .ok id := by
  refine @build _ _ holds _ _ _ _ (fun id after => holds after ∧ find after = .ok id) hblames ?_
  intro builder hholds
  rw [haction, hact]
  cases hfind : find builder with
  | ok id => exact .ok ⟨hholds, hfind⟩
  | error error => exact .refused error

/-- A look-up and a link to what is found follow a report that means both. -/
theorem linkFound (find : Builder → Except ScopeError Nat) {action : Stacks.Action Nat}
    {act : Action} {token : Token} {token? : Option Token} (hblames : Blames source token token?)
    (haction : ∀ builder, action (Stacks.ofBuilder builder) =
      Stacks.answered builder (find builder))
    (hact : ∀ builder, holds builder → Builder.act act builder =
      (Refusal.ofScope (find builder) >>= fun id => Pure.pure (builder.link id))) :
    Follows source (holds ·.state) (do Step.link (← Step.build action token))
      (Reader.report Builder.meaning act token?) fun _ _ _ => True := by
  intro base pass reading hshows hholds
  have hact' : Builder.meaning.act act reading.state =
      (Refusal.ofScope (find reading.state) >>= fun id => Pure.pure (reading.state.link id)) :=
    hact reading.state hholds
  change Ends source base _ (EStateM.bind (Step.build action token) Step.link pass) _
  unfold EStateM.bind Step.build Reader.report
  rw [hshows.built_eq, hshows.placed.source_eq, haction, hact']
  cases find reading.state with
  | ok id =>
      have hlink : Step.link id { pass with built := Stacks.ofBuilder reading.state } =
          .ok () { pass with built := Stacks.ofBuilder (reading.state.link id) } := by
        unfold Step.link Step.edit
        rw [Stacks.edit_ofBuilder]
        rfl
      change Ends source base _ (Step.link id _) (.ok () _)
      rw [hlink]
      exact .ok (hshows.rebuilt _) trivial
  | error error =>
      change Ends source base _ (.error (Step.faultOf source token (.refused error)) _) (.error _ _)
      rw [faultOf_refused hblames]
      exact .error (hshows.rebuilt _)

theorem edit {change : Node → Node} {act : Action} {token? : Option Token}
    (h : ∀ builder, holds builder →
      Builder.act act builder = .ok (builder.modifyCurrent change)) :
    Follows source (holds ·.state) (Step.edit change) (Reader.report Builder.meaning act token?)
      fun _ _ _ => True := by
  intro base pass reading hshows hholds
  have hact : Builder.meaning.act act reading.state = .ok (reading.state.modifyCurrent change) :=
    h reading.state hholds
  unfold Step.edit Reader.report
  rw [hshows.built_eq, Stacks.edit_ofBuilder, hact]
  exact .ok (hshows.rebuilt _) trivial

end Follows
end ErDiagram.Pass
