import ErDiagram.Proofs.Lookahead

/-!
Readers on states that hold more. If actions do the same to the part of a state that is seen, then so
do all readers, however the rest of the state comes about: they stop in the same places for the same
reasons. Whatever else is known of a reading is kept on the way, if it is kept by the tokens that are
no parentheses and by actions. This goes for what holds fields as well, provided that it goes for the
readers of the fields inside.
-/

namespace ErDiagram

variable {σ τ ε α β : Type}

/-- States seen as others, so that actions and their undoing show as the same. -/
structure View (fine : Interpretation τ ε) (coarse : Interpretation σ ε) where
  see : τ → σ
  act : ∀ action state, coarse.act action (see state) = (fine.act action state).map see
  undo : ∀ before failed, coarse.undo (see before) (see failed) = see (fine.undo before failed)

namespace View

variable {fine : Interpretation τ ε} {coarse : Interpretation σ ε} (view : View fine coarse)

def whole (meaning : Interpretation σ ε) : View meaning meaning where
  see := id
  act action state := (congrFun Except.map_id (meaning.act action state)).symm
  undo _ _ := rfl

def shown (reading : Reading τ) : Reading σ :=
  ⟨reading.unread, reading.depth, view.see reading.state⟩

theorem shown_advance (reading : Reading τ) :
    (view.shown reading).advance = view.shown reading.advance := by
  obtain ⟨unread, depth, state⟩ := reading
  cases unread <;> rfl

/-- Two outcomes that look the same. Where a reader does not stop, more is known; where it stops, the
reading is safe. -/
inductive Ends (safe : Reading τ → Prop) (post : α → Reading τ → Prop) :
    EStateM.Result (Fault ε) (Reading τ) α → EStateM.Result (Fault ε) (Reading σ) α → Prop where
  | ok {a : α} {after : Reading τ} (hpost : post a after) :
    Ends safe post (.ok a after) (.ok a (view.shown after))
  | error {fault : Fault ε} {after : Reading τ} (hsafe : safe after) :
    Ends safe post (.error fault after) (.error fault (view.shown after))

/-- Two readers that look the same, from where the first one may be started. -/
def Follows (safe pre : Reading τ → Prop) (reader : Reader τ ε α) (image : Reader σ ε α)
    (post : α → Reading τ → Prop) : Prop :=
  ∀ before, pre before → view.Ends safe post (reader before) (image (view.shown before))

/-- What holds of a reading is kept by every token that is no parenthesis and by every action. -/
structure Steady (fine : Interpretation τ ε) (safe place : Reading τ → Prop) : Prop where
  safe : ∀ {reading : Reading τ}, place reading → safe reading
  advance : ∀ {reading : Reading τ} {token : Token}, place reading → token ∈ reading.next? →
    (token.Spelled → token.nesting = 0) → place reading.advance
  act : ∀ {reading : Reading τ} {action : Action} {state : τ}, place reading →
    fine.act action reading.state = .ok state → place { reading with state }

variable {view} {safe : Reading τ → Prop}

namespace Follows

variable {pre : Reading τ → Prop}

theorem bind {reader : Reader τ ε α} {image : Reader σ ε α} {next : α → Reader τ ε β}
    {next' : α → Reader σ ε β} {middle : α → Reading τ → Prop} {post : β → Reading τ → Prop}
    (h : view.Follows safe pre reader image middle)
    (hnext : ∀ a, view.Follows safe (middle a) (next a) (next' a) post) :
    view.Follows safe pre (reader >>= next) (image >>= next') post := by
  intro before hpre
  have hfirst := h before hpre
  change view.Ends safe post (EStateM.bind reader next before)
    (EStateM.bind image next' (view.shown before))
  unfold EStateM.bind
  generalize reader before = result, image (view.shown before) = result' at hfirst ⊢
  cases hfirst with
  | ok hmiddle => exact hnext _ _ hmiddle
  | error hsafe => exact .error hsafe

theorem weaken {reader : Reader τ ε α} {image : Reader σ ε α} {post post' : α → Reading τ → Prop}
    (h : view.Follows safe pre reader image post)
    (hpost : ∀ a reading, post a reading → post' a reading) :
    view.Follows safe pre reader image post' := by
  intro before hpre
  have hends := h before hpre
  generalize reader before = result, image (view.shown before) = result' at hends ⊢
  cases hends with
  | ok hafter => exact .ok (hpost _ _ hafter)
  | error hsafe => exact .error hsafe

theorem pure (a : α) {post : α → Reading τ → Prop} (h : ∀ reading, pre reading → post a reading) :
    view.Follows safe pre (pure a : Reader τ ε α) (Pure.pure a) post :=
  fun _ hpre => .ok (h _ hpre)

theorem fail (cause : Fault.Cause ε) (token : Option Token) {post : α → Reading τ → Prop}
    (h : ∀ reading, pre reading → safe reading) :
    view.Follows safe pre (Reader.fail cause token : Reader τ ε α) (Reader.fail cause token) post :=
  fun _ hpre => .error (h _ hpre)

/-- A question about what is seen. -/
theorem ask_eq {question : Reading τ → α} {question' : Reading σ → α}
    (h : ∀ reading, question' (view.shown reading) = question reading) :
    view.Follows safe pre (Reader.ask question) (Reader.ask question')
      fun a reading => pre reading ∧ a = question reading := by
  intro before hpre
  change view.Ends safe _ (.ok (question before) before)
    (.ok (question' (view.shown before)) (view.shown before))
  rw [h]
  exact .ok ⟨hpre, rfl⟩

theorem ask {question : Reading τ → α} {question' : Reading σ → α}
    (h : ∀ reading, question' (view.shown reading) = question reading) :
    view.Follows safe pre (Reader.ask question) (Reader.ask question') fun _ => pre :=
  (ask_eq h).weaken fun _ _ hafter => hafter.1

theorem depth :
    view.Follows safe pre (Reader.ask Reading.depth) (Reader.ask Reading.depth)
      fun depth reading => pre reading ∧ depth = reading.depth :=
  ask_eq fun _ => rfl

theorem unread :
    view.Follows safe pre (Reader.ask Reading.unread) (Reader.ask Reading.unread) fun _ => pre :=
  ask fun _ => rfl

theorem next? :
    view.Follows safe pre (Reader.ask Reading.next?) (Reader.ask Reading.next?) fun _ => pre :=
  ask fun _ => rfl

theorem atBodyEnd :
    view.Follows safe pre (Reader.ask Reading.atBodyEnd) (Reader.ask Reading.atBodyEnd)
      fun _ => pre :=
  ask fun _ => rfl

theorem peek {reader : Reader τ ε α} {image : Reader σ ε α} {take : Token → Option α}
    {error : SyntaxError} {post : α → Reading τ → Prop} (hread : reader.Peeks take error)
    (himage : image.Peeks take error) (hsafe : ∀ reading, pre reading → safe reading)
    (htake : ∀ reading token a, pre reading → token ∈ reading.next? → take token = some a →
      post a reading.advance) : view.Follows safe pre reader image post := by
  intro before hpre
  have hnext : (view.shown before).next? = before.next? := rfl
  rw [hread, himage, hnext, shown_advance]
  cases htaken : before.next?.bind take with
  | none => exact .error (hsafe _ hpre)
  | some a =>
      obtain ⟨token, htoken, ha⟩ := Option.bind_eq_some_iff.1 htaken
      exact .ok (htake before token a hpre htoken ha)

theorem expect {kind : Token.Kind} {error : SyntaxError} {post : Reading τ → Prop}
    (hsafe : ∀ reading, pre reading → safe reading)
    (hpost : ∀ reading token, pre reading → token ∈ reading.next? → token.kind = kind →
      post reading.advance) :
    view.Follows safe pre (Reader.expect kind error) (Reader.expect kind error)
      fun _ => post := by
  apply peek (Reader.expect_peeks kind error) (Reader.expect_peeks kind error) hsafe
  intro reading token a hpre htoken htake
  exact hpost reading token hpre htoken (Option.ite_none_right_eq_some.1 htake).1

theorem items {place : Reading τ → Prop} {item : Reader τ ε Unit} {item' : Reader σ ε Unit}
    (hitem : view.Follows safe place item item' fun _ => place) :
    view.Follows safe place (Reader.items item) (Reader.items item') fun _ => place := by
  apply unread.bind
  intro bound
  induction bound with
  | nil => exact pure _ fun _ => id
  | cons token bound ih =>
      rw [Reader.itemsWithin, Reader.itemsWithin]
      apply atBodyEnd.bind
      intro atEnd
      split
      · exact pure _ fun _ => id
      · exact hitem.bind fun _ => ih

section

variable {place : Reading τ → Prop} (hplace : Steady fine safe place)
include hplace

theorem expect_flat {kind : Token.Kind} {error : SyntaxError}
    (hkind : kind ≠ .leftParen ∧ kind ≠ .rightParen) :
    view.Follows safe place (Reader.expect kind error) (Reader.expect kind error)
      fun _ => place := by
  apply expect fun _ => hplace.safe
  intro reading token hreading htoken htake
  exact hplace.advance hreading htoken fun _ =>
    nesting_of_ne (htake ▸ hkind.1) (htake ▸ hkind.2)

theorem accept {kind : Token.Kind} (hkind : kind ≠ .leftParen ∧ kind ≠ .rightParen) :
    view.Follows safe place (Reader.accept kind) (Reader.accept kind) fun _ => place := by
  intro before hbefore
  have hnext : (view.shown before).isNext kind = before.isNext kind := rfl
  unfold Reader.accept
  rw [hnext, shown_advance]
  split
  · rename_i hfound
    obtain ⟨token, htoken, htake⟩ := (Option.any_eq_true _ _).1 hfound
    have htake : token.kind = kind := of_decide_eq_true htake
    exact .ok (hplace.advance hbefore htoken fun _ =>
      nesting_of_ne (htake ▸ hkind.1) (htake ▸ hkind.2))
  · exact .ok hbefore

theorem decode {value? : String → Option α} (error : SyntaxError)
    (hvalue : ∀ token : Token, token.Spelled → ∀ a, value? token.text = some a → token.nesting = 0) :
    view.Follows safe place (Reader.decode value? error) (Reader.decode value? error)
      fun _ => place := by
  apply peek (Reader.decode_peeks value? error) (Reader.decode_peeks value? error)
    fun _ => hplace.safe
  exact fun reading token a hreading htoken htake =>
    hplace.advance hreading htoken fun hspelled => hvalue token hspelled a htake

theorem fieldKeyword (owner : Node.Kind) :
    view.Follows safe place (Reader.fieldKeyword owner) (Reader.fieldKeyword owner)
      fun _ => place := by
  apply peek (Reader.fieldKeyword_peeks owner) (Reader.fieldKeyword_peeks owner)
    fun _ => hplace.safe
  intro reading token a hreading htoken htake
  obtain ⟨field, hfield, -⟩ := Option.map_eq_some_iff.1 htake
  obtain ⟨word, hkind, -⟩ := Field.find?_eq_some.1 hfield
  exact hplace.advance hreading htoken fun _ => nesting_reserved hkind

theorem decoded (token : Token) (result : Except InvalidCardinality α) :
    view.Follows safe place (Reader.decoded token result) (Reader.decoded token result)
      fun _ => place := by
  cases result with
  | ok value => exact pure value fun _ => id
  | error error => exact fail _ _ fun _ => hplace.safe

theorem report (action : Action) (token : Option Token) :
    view.Follows safe place (Reader.report fine action token) (Reader.report coarse action token)
      fun _ => place := by
  intro before hbefore
  have hact : coarse.act action (view.shown before).state =
      (fine.act action before.state).map view.see := view.act action before.state
  unfold Reader.report
  rw [hact]
  cases hstate : fine.act action before.state with
  | ok state => exact .ok (hplace.act hbefore hstate)
  | error error => exact .error (hplace.safe hbefore)

/-! ### Literals and words -/

theorem cardinality :
    view.Follows safe place Reader.cardinality Reader.cardinality fun _ => place := by
  apply (expect_flat hplace (by decide)).bind
  intro first
  split
  · exact decoded hplace _ _
  · apply (decoded hplace _ _).bind
    intro min
    apply (expect_flat hplace (by decide)).bind
    intro second
    apply (decoded hplace _ _).bind
    intro max
    exact pure _ fun _ => id

theorem hierarchyType :
    view.Follows safe place Reader.hierarchyType Reader.hierarchyType fun _ => place := by
  apply (accept hplace (by decide)).bind
  intro _
  apply (accept hplace (by decide)).bind
  intro subset
  split
  · exact pure _ fun _ => id
  · apply (decode hplace _ fun token htoken total htotal =>
      nesting_reserved ((coverage?_iff htoken).1 htotal)).bind
    intro total
    apply (decode hplace _ fun token htoken exclusive hexclusive =>
      nesting_reserved ((disjointness?_iff htoken).1 hexclusive)).bind
    intro exclusive
    exact pure _ fun _ => id

theorem details (kind : Node.Kind) :
    view.Follows safe place (Reader.details fine kind) (Reader.details coarse kind)
      fun _ => place := by
  unfold Reader.details
  split
  · exact (hierarchyType hplace).bind fun type => report hplace _ _
  · apply (accept hplace (by decide)).bind
    intro announced
    split
    · exact (cardinality hplace).bind fun cardinality => report hplace _ _
    · exact pure _ fun _ => id
  · exact pure _ fun _ => id

/-! ### Fields -/

theorem keyNames (names : List String) (bound : List Token) :
    view.Follows safe place (Reader.keyNames fine names bound) (Reader.keyNames coarse names bound)
      fun _ => place := by
  induction bound generalizing names with
  | nil => exact pure _ fun _ => id
  | cons token bound ih =>
      rw [Reader.keyNames, Reader.keyNames]
      apply atBodyEnd.bind
      intro atEnd
      split
      · exact pure _ fun _ => id
      · apply (expect_flat hplace (by decide)).bind
        intro name
        exact (report hplace _ _).bind fun _ => ih _

theorem knownName (kind : Node.Kind) :
    view.Follows safe place (Reader.knownName fine kind) (Reader.knownName coarse kind)
      fun _ => place := by
  apply (expect_flat hplace (by decide)).bind
  intro name
  exact (report hplace _ _).bind fun _ => pure _ fun _ => id

theorem construct {inside : Reader τ ε Unit} {inside' : Reader σ ε Unit}
    (hinside : view.Follows safe place inside inside' fun _ => place) (kind : Node.Kind) :
    view.Follows safe place (Reader.construct fine inside kind)
      (Reader.construct coarse inside' kind) fun _ => place := by
  apply (expect_flat hplace (by decide)).bind
  intro name
  apply (report hplace _ _).bind
  intro _
  apply (details hplace kind).bind
  intro _
  apply (items hinside).bind
  intro _
  apply next?.bind
  intro next
  exact report hplace _ _

/-- What follows the reserved word of a field is read alike if the fields inside are. -/
theorem fieldBody {inside : Node.Kind → Reader τ ε Unit} {inside' : Node.Kind → Reader σ ε Unit}
    (hinside : ∀ kind, view.Follows safe place (inside kind) (inside' kind) fun _ => place)
    (keyword : Token) (field : Field) :
    view.Follows safe place (Reader.fieldBody fine inside keyword field)
      (Reader.fieldBody coarse inside' keyword field) fun _ => place := by
  cases field with
  | construct kind => exact construct hplace (hinside kind) kind
  | primaryKey =>
      apply (report hplace _ _).bind
      intro _
      apply unread.bind
      intro bound
      exact (keyNames hplace [] bound).bind fun names => report hplace _ _
  | branch =>
      apply (knownName hplace .entity).bind
      intro entity
      apply (expect_flat hplace (by decide)).bind
      intro card
      exact (cardinality hplace).bind fun cardinality => report hplace _ _
  | attributeOf =>
      apply (expect_flat hplace (by decide)).bind
      intro name
      exact (knownName hplace .entity).bind fun entity => report hplace _ _
  | mention kind => exact (knownName hplace kind).bind fun name => report hplace _ _

end

end Follows
end View
end ErDiagram
