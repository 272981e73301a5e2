import ErDiagram.Proofs.Compiling
import ErDiagram.Proofs.Forms

/-!
Readers in lockstep on the two forms. Some pairs behind `card` are split into their bounds, all other
tokens keep their kinds and texts. Every reader then does the same on either side, or stops for the
same cause at the same token, or both stop at a cardinality whose number fits no word. None but the
readers of cardinalities ever goes past `card`, so none finds itself between two bounds.
-/

namespace ErDiagram

variable {σ ε α β : Type}

/-- Some tokens, and the same with some pairs behind `card` split into two literals. The tokens that
are kept may stand elsewhere. -/
inductive SplitsTo : List Token → List Token → Prop where
  | nil : SplitsTo [] []
  | keep {token image : Token} {rest images : List Token} (hsame : image.bare = token.bare)
    (hspelled : token.Spelled) (hrest : SplitsTo rest images) :
    SplitsTo (token :: rest) (image :: images)
  | split {card image joined lower upper : Token} {rest images : List Token}
    (hcard : card.kind = .reserved .cardinality) (hsame : image.bare = card.bare)
    (hspelled : card.Spelled) (hjoins : joined.Joins lower upper) (hrest : SplitsTo rest images) :
    SplitsTo (card :: joined :: rest) (image :: lower :: upper :: images)

namespace SplitsTo

/-- Two readings of such tokens, in one state. -/
structure Shows (reading image : Reading σ) : Prop where
  unread : SplitsTo reading.unread image.unread
  depth : image.depth = reading.depth
  state : image.state = reading.state

/-- Two faults with one cause at the same token, or at the two forms of a cardinality. -/
inductive Blames : Fault ε → Fault ε → Prop where
  | same {cause : Fault.Cause ε} {token image : Option Token}
    (htoken : image.map Token.bare = token.map Token.bare) : Blames ⟨cause, token⟩ ⟨cause, image⟩
  | invalid {joined lower upper literal : Token} {error error' : InvalidCardinality}
    (hjoins : joined.Joins lower upper) (herror : Cardinality.ofString joined.text = .error error)
    (hliteral : literal = lower ∨ literal = upper) :
    Blames ⟨.malformed (.invalidCardinality error), some joined⟩
      ⟨.malformed (.invalidCardinality error'), some literal⟩

/-- Two outcomes that give the same, or that stop in the same way. -/
inductive Ends (gives : α → α → Prop) :
    EStateM.Result (Fault ε) (Reading σ) α → EStateM.Result (Fault ε) (Reading σ) α → Prop where
  | ok {a a' : α} {after after' : Reading σ} (hgives : gives a a') (hafter : Shows after after') :
    Ends gives (.ok a after) (.ok a' after')
  | error {fault fault' : Fault ε} {after after' : Reading σ} (hblames : Blames fault fault') :
    Ends gives (.error fault after) (.error fault' after')

/-- Two readers that do the same on either side. -/
def Reads (gives : α → α → Prop) (reader image : Reader σ ε α) : Prop :=
  ∀ before before', Shows before before' → Ends gives (reader before) (image before')

/-- Two tokens that differ in their place only. -/
def Like (token image : Token) : Prop :=
  image.bare = token.bare

theorem Like.kind {token image : Token} (h : Like token image) : image.kind = token.kind :=
  congrArg Prod.fst h

theorem Like.text {token image : Token} (h : Like token image) : image.text = token.text :=
  congrArg Prod.snd h

theorem Like.blamed {token image : Token} (h : Like token image) :
    (some image).map Token.bare = (some token).map Token.bare :=
  congrArg some h

/-! ### Readings -/

theorem spelled {tokens images : List Token} (h : SplitsTo tokens images) :
    (∀ token ∈ tokens, token.Spelled) ∧ ∀ image ∈ images, image.Spelled := by
  have hliteral {literal : Token} (hkind : literal.kind = .cardinal)
      (hcardinal : IsCardinal literal.text.toList) : literal.Spelled := by
    rw [Token.Spelled, hkind]
    exact hcardinal.isToken
  have himage {token image : Token} (hsame : Like token image) (hspelled : token.Spelled) :
      image.Spelled := by
    rw [Token.Spelled, hsame.kind, hsame.text]
    exact hspelled
  induction h with
  | nil => exact ⟨List.forall_mem_nil _, List.forall_mem_nil _⟩
  | keep hsame hspelled hrest ih =>
      exact ⟨List.forall_mem_cons.2 ⟨hspelled, ih.1⟩,
        List.forall_mem_cons.2 ⟨himage hsame hspelled, ih.2⟩⟩
  | split hcard hsame hspelled hjoins hrest ih =>
      have hjoined : IsCardinal _ := Or.inr ⟨_, _, hjoins.toList_text, hjoins.lower.2, hjoins.upper.2⟩
      refine ⟨List.forall_mem_cons.2 ⟨hspelled, List.forall_mem_cons.2
        ⟨hliteral hjoins.kind hjoined, ih.1⟩⟩, ?_⟩
      exact List.forall_mem_cons.2 ⟨himage hsame hspelled, List.forall_mem_cons.2
        ⟨hliteral hjoins.lower.1 (Or.inl hjoins.lower.2), List.forall_mem_cons.2
          ⟨hliteral hjoins.upper.1 (Or.inl hjoins.upper.2), ih.2⟩⟩⟩

namespace Shows

variable {reading image : Reading σ} (h : Shows reading image)
include h

theorem next? : image.next?.map Token.bare = reading.next?.map Token.bare := by
  obtain ⟨unread, depth, state⟩ := reading
  obtain ⟨unread', depth', state'⟩ := image
  cases h.unread with
  | nil => rfl
  | keep hsame => exact congrArg some hsame
  | split _ hsame => exact congrArg some hsame

theorem isNext (kind : Token.Kind) : image.isNext kind = reading.isNext kind := by
  have hbare (reading : Reading σ) :
      reading.isNext kind = (reading.next?.map Token.bare).any (·.1 = kind) := by
    rw [Reading.isNext, Option.any_map]
    rfl
  rw [hbare, hbare, h.next?]

theorem isEmpty : image.unread.isEmpty = reading.unread.isEmpty := by
  have hunread := h.unread
  generalize reading.unread = unread, image.unread = unread' at hunread ⊢
  cases hunread <;> rfl

theorem atBodyEnd : image.atBodyEnd = reading.atBodyEnd := by
  rw [Reading.atBodyEnd, Reading.atBodyEnd, h.isEmpty, h.isNext]

/-- Either side goes past a token that is not `card`. -/
theorem advance (hnext : ∀ token ∈ reading.next?, token.kind ≠ .reserved .cardinality) :
    Shows reading.advance image.advance := by
  obtain ⟨unread, depth, state⟩ := reading
  obtain ⟨unread', depth', state'⟩ := image
  obtain ⟨hunread, hdepth, hstate⟩ := h
  cases hunread with
  | nil => exact ⟨.nil, hdepth, hstate⟩
  | @keep token token' rest rest' hsame _ hrest =>
      refine ⟨hrest, ?_, hstate⟩
      change depth' + token'.nesting = depth + token.nesting
      rw [Token.nesting, Like.kind hsame, show depth' = depth from hdepth]
      rfl
  | split hcard => exact absurd hcard (hnext _ rfl)

end Shows

/-! ### The readers that the others are made of -/

theorem Ends.bind {gives : α → α → Prop} {gives' : β → β → Prop} {reader image : Reader σ ε α}
    {before before' : Reading σ} (h : Ends gives (reader before) (image before'))
    {next next' : α → Reader σ ε β}
    (hnext : ∀ a a', gives a a' → Reads gives' (next a) (next' a')) :
    Ends gives' ((reader >>= next) before) ((image >>= next') before') := by
  change Ends gives' (EStateM.bind reader next before) (EStateM.bind image next' before')
  unfold EStateM.bind
  generalize reader before = result, image before' = result' at h ⊢
  cases h with
  | ok hgives hafter => exact hnext _ _ hgives _ _ hafter
  | error hblames => exact .error hblames

namespace Reads

variable {gives : α → α → Prop} {gives' : β → β → Prop}

theorem bind {reader image : Reader σ ε α} {next next' : α → Reader σ ε β}
    (h : Reads gives reader image)
    (hnext : ∀ a a', gives a a' → Reads gives' (next a) (next' a')) :
    Reads gives' (reader >>= next) (image >>= next') :=
  fun before before' hbefore => (h before before' hbefore).bind hnext

theorem pure {a a' : α} (h : gives a a') :
    Reads gives (pure a : Reader σ ε α) (pure a') :=
  fun _ _ hbefore => .ok h hbefore

theorem fail {cause : Fault.Cause ε} {token image : Option Token}
    (htoken : image.map Token.bare = token.map Token.bare) :
    Reads gives (Reader.fail (σ := σ) cause token) (Reader.fail cause image) :=
  fun _ _ _ => .error (.same htoken)

theorem ask {question : Reading σ → α}
    (h : ∀ reading image, Shows reading image → gives (question reading) (question image)) :
    Reads gives (Reader.ask question : Reader σ ε α) (Reader.ask question) :=
  fun _ _ hbefore => .ok (h _ _ hbefore) hbefore

theorem peek {reader : Reader σ ε α} {take : Token → Option α} {error : SyntaxError}
    (hread : reader.Peeks take error)
    (htake : ∀ token image, Like token image → Option.Rel gives (take token) (take image))
    (hcard : ∀ card : Token, card.kind = .reserved .cardinality → card.Spelled →
      take card = none) :
    Reads gives reader reader := by
  intro before before' hbefore
  have hnext := hbefore.next?
  rw [hread, hread]
  cases htoken : before.next? with
  | none =>
      rw [htoken, Option.map_none, Option.map_eq_none_iff] at hnext
      rw [hnext]
      exact .error (.same rfl)
  | some token =>
      rw [htoken, Option.map_some, Option.map_eq_some_iff] at hnext
      obtain ⟨image, himage, hsame⟩ := hnext
      have hspelled : token.Spelled :=
        hbefore.unread.spelled.1 token (Reading.mem_of_next? htoken)
      have htaken := htake token image hsame
      rw [himage, Option.bind_some, Option.bind_some]
      generalize htake' : take token = taken, take image = taken' at htaken ⊢
      cases htaken with
      | none => exact .error (.same (congrArg some hsame))
      | some hgives =>
          refine .ok hgives (hbefore.advance fun next hnext hkind => ?_)
          rw [htoken, Option.mem_some_iff] at hnext
          subst hnext
          rw [hcard _ hkind hspelled] at htake'
          cases htake'

theorem expect {kind : Token.Kind} (hkind : kind ≠ .reserved .cardinality) (error : SyntaxError) :
    Reads (fun token image => Like token image ∧ token.kind = kind)
      (Reader.expect kind error : Reader σ ε Token) (Reader.expect kind error) := by
  refine peek (Reader.expect_peeks kind error) (fun token image hlike => ?_) fun card hcard _ => ?_
  · rw [hlike.kind]
    split
    · exact .some ⟨hlike, ‹_›⟩
    · exact .none
  · exact if_neg (hcard ▸ hkind.symm)

theorem accept {kind : Token.Kind} (hkind : kind ≠ .reserved .cardinality) :
    Reads Eq (Reader.accept kind : Reader σ ε Bool) (Reader.accept kind) := by
  intro before before' hbefore
  unfold Reader.accept
  rw [hbefore.isNext]
  split
  · rename_i hnext
    refine .ok rfl (hbefore.advance fun token htoken hcard => hkind ?_)
    rw [Reading.isNext, Option.mem_def.1 htoken, Option.any_some, decide_eq_true_eq] at hnext
    rw [← hnext, hcard]
  · exact .ok rfl hbefore

theorem decode {value? : String → Option α} (error : SyntaxError)
    (hcard : ∀ card : Token, card.kind = .reserved .cardinality → card.Spelled →
      value? card.text = none) :
    Reads Eq (Reader.decode value? error : Reader σ ε α) (Reader.decode value? error) := by
  refine peek (Reader.decode_peeks value? error) (fun token image hlike => ?_) hcard
  rw [hlike.text]
  cases value? token.text with
  | none => exact .none
  | some a => exact .some rfl

theorem decoded {token image : Token} (hlike : Like token image)
    (result : Except InvalidCardinality α) :
    Reads Eq (Reader.decoded token result : Reader σ ε α) (Reader.decoded image result) := by
  cases result with
  | ok a => exact pure rfl
  | error error => exact fail hlike.blamed

variable {meaning : Interpretation σ ε}

theorem report (action : Action) {token image : Option Token}
    (htoken : image.map Token.bare = token.map Token.bare) :
    Reads (fun _ _ => True) (Reader.report meaning action token)
      (Reader.report meaning action image) := by
  intro before before' hbefore
  unfold Reader.report
  rw [hbefore.state]
  cases meaning.act action before.state with
  | ok state => exact .ok trivial ⟨hbefore.unread, hbefore.depth, rfl⟩
  | error error => exact .error (.same htoken)

/-! ### Literals and words -/

theorem cardinality :
    Reads Eq (Reader.cardinality : Reader σ ε Cardinality) Reader.cardinality := by
  apply (expect (by decide) _).bind
  rintro first first' ⟨hlike, hkind⟩
  rw [hlike.text]
  split
  · exact decoded hlike _
  · apply (decoded hlike _).bind
    rintro min _ rfl
    apply (expect (by decide) _).bind
    rintro second second' ⟨hsecond, hkind'⟩
    rw [hsecond.text]
    apply (decoded hsecond _).bind
    rintro max _ rfl
    exact pure rfl

/-- Behind `card`, the two forms are read alike. -/
theorem cardinality_split {joined lower upper : Token} (hjoins : joined.Joins lower upper)
    {rest images : List Token} (hrest : SplitsTo rest images) (depth : Int) (state : σ) :
    Ends Eq ((Reader.cardinality : Reader σ ε Cardinality) ⟨joined :: rest, depth, state⟩)
      ((Reader.cardinality : Reader σ ε Cardinality) ⟨lower :: upper :: images, depth, state⟩) := by
  have halike := hjoins.cardinality_alike (ε := ε) rest images depth state
  generalize (Reader.cardinality : Reader σ ε Cardinality) ⟨joined :: rest, depth, state⟩ = result,
    (Reader.cardinality : Reader σ ε Cardinality) ⟨lower :: upper :: images, depth, state⟩ = result'
    at halike ⊢
  cases halike with
  | value => exact .ok rfl ⟨hrest, rfl, rfl⟩
  | invalid herror hliteral => exact .error (.invalid hjoins herror hliteral)

/-- Behind `card`, cardinalities are read alike, kept or split. -/
theorem after_card {card image : Token} {rest images : List Token}
    (h : SplitsTo (card :: rest) (image :: images))
    {next next' : Cardinality → Reader σ ε α}
    (hnext : ∀ cardinality, Reads gives (next cardinality) (next' cardinality)) (depth : Int)
    (state : σ) :
    Ends gives ((Reader.cardinality >>= next) ⟨rest, depth, state⟩)
      ((Reader.cardinality >>= next') ⟨images, depth, state⟩) := by
  have heach : ∀ a a', a = a' → Reads gives (next a) (next' a') := by
    rintro cardinality _ rfl
    exact hnext cardinality
  cases h with
  | keep hsame hspelled hrest => exact cardinality.bind heach _ _ ⟨hrest, rfl, rfl⟩
  | split _ hsame hspelled hjoins hrest =>
      exact (cardinality_split hjoins hrest depth state).bind heach

/-- `card` stands next on both sides, or on none. -/
theorem card_cases {before before' : Reading σ} (h : Shows before before') :
    ((∀ token ∈ before.next?, token.kind ≠ .reserved .cardinality) ∧
        ∀ token ∈ before'.next?, token.kind ≠ .reserved .cardinality) ∨
      ∃ card image rest images depth state, card.kind = .reserved .cardinality ∧
        image.kind = .reserved .cardinality ∧ SplitsTo (card :: rest) (image :: images) ∧
          before = ⟨card :: rest, depth, state⟩ ∧ before' = ⟨image :: images, depth, state⟩ := by
  obtain ⟨unread, depth, state⟩ := before
  obtain ⟨unread', depth', state'⟩ := before'
  obtain ⟨hunread, hdepth, hstate⟩ := h
  dsimp only at hunread hdepth hstate
  subst hdepth hstate
  cases hunread with
  | nil => exact Or.inl ⟨nofun, nofun⟩
  | @keep token image rest images hsame hspelled hrest =>
      by_cases hcard : token.kind = .reserved .cardinality
      · exact Or.inr ⟨_, _, _, _, _, _, hcard, (Like.kind hsame).trans hcard,
          .keep hsame hspelled hrest, rfl, rfl⟩
      · refine Or.inl ⟨?_, ?_⟩
        · simpa [Reading.next?] using hcard
        · simpa [Reading.next?, Like.kind hsame] using hcard
  | split hcard hsame hspelled hjoins hrest =>
      exact Or.inr ⟨_, _, _, _, _, _, hcard, (Like.kind hsame).trans hcard,
        .split hcard hsame hspelled hjoins hrest, rfl, rfl⟩

variable {next : Cardinality → Reader σ ε α}

/-- The reader of a cardinality that `card` may announce. -/
theorem accept_card (hnext : ∀ cardinality, Reads gives (next cardinality) (next cardinality))
    {other : Reader σ ε α} (hother : Reads gives other other) {reader : Reader σ ε α}
    (hreader : reader = (Reader.accept (.reserved .cardinality) >>= fun announced =>
      if announced then Reader.cardinality >>= next else other)) :
    Reads gives reader reader := by
  intro before before' hbefore
  have hnone : ∀ {before : Reading σ}, (∀ token ∈ before.next?,
      token.kind ≠ .reserved .cardinality) → reader before = other before := by
    intro before hfree
    have hnext : before.isNext (.reserved .cardinality) = false := by
      rw [Reading.isNext, Option.any_eq_false]
      intro token htoken
      simpa using hfree token htoken
    have haccept : (Reader.accept (.reserved .cardinality) : Reader σ ε Bool) before =
        .ok false before := by
      rw [Reader.accept, if_neg (by simp [hnext])]
    rw [hreader, Reader.bind_of_ok haccept]
    rfl
  rcases card_cases hbefore with ⟨hfree, hfree'⟩ |
    ⟨card, image, rest, images, depth, state, hcard, himage, hunread, rfl, rfl⟩
  · rw [hnone hfree, hnone hfree']
    exact hother _ _ hbefore
  · rw [hreader, Reader.bind_of_ok (Reader.accept_reserved hcard rest depth state),
      Reader.bind_of_ok (Reader.accept_reserved himage images depth state)]
    exact after_card hunread hnext depth state

/-- The reader of a cardinality that `card` must announce. -/
theorem expect_card {next' : Cardinality → Reader σ ε α}
    (hnext : ∀ cardinality, Reads gives (next cardinality) (next' cardinality)) :
    Reads gives
      (Reader.expectKind (.reserved .cardinality) >>= fun _ => Reader.cardinality >>= next)
      (Reader.expectKind (.reserved .cardinality) >>= fun _ => Reader.cardinality >>= next') := by
  intro before before' hbefore
  rcases card_cases hbefore with ⟨hfree, hfree'⟩ |
    ⟨card, image, rest, images, depth, state, hcard, himage, hunread, rfl, rfl⟩
  · have hnone : ∀ {before : Reading σ}, (∀ token ∈ before.next?,
        token.kind ≠ .reserved .cardinality) →
        (Reader.expectKind (.reserved .cardinality) : Reader σ ε Token) before =
          .error ⟨.malformed (.expectedToken (.reserved .cardinality)), before.next?⟩ before := by
      intro before hfree
      rw [Reader.expectKind, Reader.expect_peeks]
      cases hnext : before.next? with
      | none => rfl
      | some token => simp [hfree token hnext]
    rw [Reader.bind_of_error (hnone hfree), Reader.bind_of_error (hnone hfree')]
    exact .error (.same hbefore.next?)
  · rw [Reader.bind_of_ok (Reader.expect_card hcard depth rest state),
      Reader.bind_of_ok (Reader.expect_card himage depth images state)]
    exact after_card hunread hnext depth state

theorem hierarchyType :
    Reads Eq (Reader.hierarchyType : Reader σ ε HierarchyType) Reader.hierarchyType := by
  -- `card` is no word of a classification.
  have hcoverage : ∀ card : Token, card.kind = .reserved .cardinality → card.Spelled →
      HierarchyType.coverage? card.text = none := by
    intro card hcard hspelled
    rw [Option.eq_none_iff_forall_ne_some]
    intro total htotal
    rw [coverage?_iff hspelled, hcard] at htotal
    cases total <;> cases htotal
  have hdisjointness : ∀ card : Token, card.kind = .reserved .cardinality → card.Spelled →
      HierarchyType.disjointness? card.text = none := by
    intro card hcard hspelled
    rw [Option.eq_none_iff_forall_ne_some]
    intro exclusive hexclusive
    rw [disjointness?_iff hspelled, hcard] at hexclusive
    cases exclusive <;> cases hexclusive
  apply (accept (by decide)).bind
  intro _ _ _
  apply (accept (by decide)).bind
  rintro subset _ rfl
  split
  · exact pure rfl
  · apply (decode _ hcoverage).bind
    rintro total _ rfl
    apply (decode _ hdisjointness).bind
    rintro exclusive _ rfl
    exact pure rfl

theorem details (kind : Node.Kind) :
    Reads (fun _ _ => True) (Reader.details meaning kind) (Reader.details meaning kind) := by
  unfold Reader.details
  split
  · apply hierarchyType.bind
    rintro type _ rfl
    exact report (.classify type) rfl
  · exact accept_card (fun cardinality => report (.bound cardinality) rfl) (pure trivial) rfl
  · exact pure trivial

/-! ### Loops -/

/-- A loop that is bounded by the tokens that are left does the same on either side, for a longer
bound changes nothing. -/
theorem unread_bind {loop : List Token → Reader σ ε α}
    (hloop : ∀ bound, Reads gives (loop bound) (loop bound))
    (hbound : ∀ (before : Reading σ) (bound bound' : List Token),
      (∀ token ∈ before.unread, token.Spelled) → before.unread.length ≤ bound.length →
        before.unread.length ≤ bound'.length → loop bound before = loop bound' before) :
    Reads gives (Reader.ask Reading.unread >>= loop) (Reader.ask Reading.unread >>= loop) := by
  intro before before' hbefore
  obtain ⟨hspelled, hspelled'⟩ := hbefore.unread.spelled
  change Ends gives (loop before.unread before) (loop before'.unread before')
  rw [hbound before before.unread (before.unread ++ before'.unread) hspelled (Nat.le_refl _) (by simp),
    hbound before' before'.unread (before.unread ++ before'.unread) hspelled' (Nat.le_refl _)
      (by simp)]
  exact hloop _ before before' hbefore

theorem itemsWithin {item : Reader σ ε Unit} (h : Reads (fun _ _ => True) item item)
    (bound : List Token) :
    Reads (fun _ _ => True) (Reader.itemsWithin item bound) (Reader.itemsWithin item bound) := by
  induction bound with
  | nil => exact pure trivial
  | cons token bound ih =>
      rw [Reader.itemsWithin]
      apply (ask fun _ _ hshows => hshows.atBodyEnd.symm).bind
      rintro atEnd _ rfl
      split
      · exact pure trivial
      · exact h.bind fun _ _ _ => ih

theorem items {item : Reader σ ε Unit} (h : Reads (fun _ _ => True) item item)
    (hconfined : Confined Token.Spelled (fun _ => True) 0 item)
    (hprogress : Progresses Token.Spelled item) :
    Reads (fun _ _ => True) (Reader.items item) (Reader.items item) :=
  unread_bind (itemsWithin h) (Reader.itemsWithin_eq hconfined hprogress)

theorem keyNames (names : List String) (bound : List Token) :
    Reads Eq (Reader.keyNames meaning names bound) (Reader.keyNames meaning names bound) := by
  induction bound generalizing names with
  | nil => exact pure rfl
  | cons token bound ih =>
      rw [Reader.keyNames]
      apply (ask fun _ _ hshows => hshows.atBodyEnd.symm).bind
      rintro atEnd _ rfl
      split
      · exact pure rfl
      · apply (expect (by decide) _).bind
        rintro name name' ⟨hlike, -⟩
        rw [hlike.text]
        exact (report (.ownsAttribute name.text) hlike.blamed).bind fun _ _ _ =>
          ih (name.text :: names)

/-! ### Fields -/

theorem knownName (kind : Node.Kind) :
    Reads Like (Reader.knownName meaning kind) (Reader.knownName meaning kind) := by
  apply (expect (by decide) _).bind
  rintro name name' ⟨hlike, -⟩
  rw [hlike.text]
  exact (report (.knows kind name.text) hlike.blamed).bind fun _ _ _ => pure hlike

theorem construct {inside : Reader σ ε Unit} (h : Reads (fun _ _ => True) inside inside)
    (hconfined : Confined Token.Spelled (fun _ => True) 0 inside)
    (hprogress : Progresses Token.Spelled inside) (kind : Node.Kind) :
    Reads (fun _ _ => True) (Reader.construct meaning inside kind)
      (Reader.construct meaning inside kind) := by
  apply (expect (by decide) _).bind
  rintro name name' ⟨hlike, -⟩
  rw [hlike.text]
  apply (report (.declare kind name.text) hlike.blamed).bind
  intro _ _ _
  apply (details kind).bind
  intro _ _ _
  apply (items h hconfined hprogress).bind
  intro _ _ _
  exact (ask fun _ _ hshows => hshows.next?).bind fun _ _ hnext => report .close hnext

theorem primaryKey {keyword keyword' : Token} (hlike : Like keyword keyword') :
    Reads (fun _ _ => True) (Reader.primaryKey meaning keyword)
      (Reader.primaryKey meaning keyword') := by
  have hnames : Reads Eq (Reader.ask Reading.unread >>= Reader.keyNames meaning [])
      (Reader.ask Reading.unread >>= Reader.keyNames meaning []) :=
    unread_bind (keyNames []) fun before bound bound' _ =>
      Reader.keyNames_eq meaning [] before bound bound'
  apply (report .lacksKey hlike.blamed).bind
  intro _ _ _
  apply hnames.bind
  rintro names _ rfl
  exact report (.primaryKey names) hlike.blamed

theorem branch {keyword keyword' : Token} (hlike : Like keyword keyword') :
    Reads (fun _ _ => True) (Reader.branch meaning keyword)
      (Reader.branch meaning keyword') := by
  apply (knownName .entity).bind
  intro entity entity' hentity
  rw [hentity.text]
  exact expect_card fun cardinality => report (.branch entity.text cardinality) hlike.blamed

theorem attributeOf :
    Reads (fun _ _ => True) (Reader.attributeOf meaning) (Reader.attributeOf meaning) := by
  apply (expect (by decide) _).bind
  rintro name name' ⟨hlike, -⟩
  apply (knownName .entity).bind
  intro entity entity' hentity
  rw [hlike.text, hentity.text]
  exact report (.attributeOf name.text entity.text) hlike.blamed

theorem mention (kind : Node.Kind) :
    Reads (fun _ _ => True) (Reader.mention meaning kind) (Reader.mention meaning kind) := by
  apply (knownName kind).bind
  intro name name' hlike
  rw [hlike.text]
  exact report (.mention kind name.text) hlike.blamed

theorem fieldBody {inside : Node.Kind → Reader σ ε Unit}
    (h : ∀ kind, Reads (fun _ _ => True) (inside kind) (inside kind))
    (hinside : ∀ kind, Confined Token.Spelled (fun _ => True) 0 (inside kind) ∧
      Progresses Token.Spelled (inside kind))
    {keyword keyword' : Token} (hlike : Like keyword keyword') (field : Field) :
    Reads (fun _ _ => True) (Reader.fieldBody meaning inside keyword field)
      (Reader.fieldBody meaning inside keyword' field) := by
  cases field with
  | construct kind => exact construct (h kind) (hinside kind).1 (hinside kind).2 kind
  | primaryKey => exact primaryKey hlike
  | branch => exact branch hlike
  | attributeOf => exact attributeOf
  | mention kind => exact mention kind

theorem fieldKeyword (owner : Node.Kind) :
    Reads (fun found image => Like found.1 image.1 ∧ image.2 = found.2)
      (Reader.fieldKeyword owner : Reader σ ε (Token × Field)) (Reader.fieldKeyword owner) := by
  refine peek (Reader.fieldKeyword_peeks owner) (fun token image hlike => ?_) fun card hcard _ => ?_
  · rw [hlike.kind]
    cases Field.find? owner token.kind with
    | none => exact .none
    | some field => exact .some ⟨hlike, rfl⟩
  · rw [hcard]
    cases owner <;> rfl

theorem field (budget : Nat) (owner : Node.Kind) :
    Reads (fun _ _ => True) (Reader.field meaning budget owner)
      (Reader.field meaning budget owner) := by
  induction budget generalizing owner with
  | zero => exact fail rfl
  | succ budget ih =>
      have hinside : Reads (fun _ _ => True) (Reader.fieldInside meaning budget owner)
          (Reader.fieldInside meaning budget owner) := by
        apply (fieldKeyword owner).bind
        rintro ⟨keyword, _⟩ ⟨keyword', found⟩ ⟨hkeyword, rfl⟩
        exact fieldBody ih (Confined.field meaning (fun _ => id) budget) hkeyword found
      rw [Reader.field_succ]
      apply (expect (by decide) _).bind
      rintro paren paren' ⟨hlike, -⟩
      apply (ask fun _ _ hshows => hshows.depth.symm).bind
      rintro depth _ rfl
      split
      · exact fail hlike.blamed
      · exact hinside.bind fun _ _ _ => (expect (by decide) _).bind fun _ _ _ => pure trivial

end Reads

/-! ### Declarations -/

variable (meaning : Interpretation σ ε)

/-- A declaration is read without a stop from both sides, to one state, or from none. -/
theorem declaration_none (budget : Nat) {before before' : Reading σ} (h : Shows before before') :
    ((before.declaration meaning budget).1 = none ↔ (before'.declaration meaning budget).1 = none) ∧
      ((before.declaration meaning budget).1 = none →
        Shows (before.declaration meaning budget).2 (before'.declaration meaning budget).2) := by
  have hfield : Ends (fun _ _ => True) (Reader.field meaning budget .start before)
      (Reader.field meaning budget .start before') := Reads.field budget .start before before' h
  unfold Reading.declaration
  generalize Reader.field meaning budget .start before = result,
    Reader.field meaning budget .start before' = result' at hfield ⊢
  cases hfield with
  | ok _ hafter => exact ⟨Iff.rfl, fun _ => hafter⟩
  | error hblames => simp

/-- Declarations are read to the end of input without a stop from both sides, to one state, or from
none. -/
theorem declarations_nil (budget : Nat) {before before' : Reading σ} (h : Shows before before') :
    ((before.declarations meaning budget).1 = [] ↔
        (before'.declarations meaning budget).1 = []) ∧
      ((before.declarations meaning budget).1 = [] →
        (before'.declarations meaning budget).2.state =
          (before.declarations meaning budget).2.state) := by
  induction hlength : before.unread.length using Nat.strong_induction_on
    generalizing before before' with
  | _ length ih =>
  subst hlength
  obtain ⟨hspelled, hspelled'⟩ := h.unread.spelled
  have hempty : before'.unread = [] ↔ before.unread = [] := by
    rw [← List.isEmpty_iff, h.isEmpty, List.isEmpty_iff]
  by_cases hnil : before.unread = []
  · rw [Reading.declarations, Reading.declarations,
      Reading.declarationsWithin_of_unread meaning budget hnil,
      Reading.declarationsWithin_of_unread meaning budget (hempty.2 hnil)]
    exact ⟨Iff.rfl, fun _ => h.state⟩
  · rw [Reading.declarations_step meaning budget hspelled hnil,
      Reading.declarations_step meaning budget hspelled' (mt hempty.1 hnil)]
    dsimp only
    rw [List.append_eq_nil_iff, List.append_eq_nil_iff, Option.toList_eq_nil_iff,
      Option.toList_eq_nil_iff]
    obtain ⟨hnone, hafter⟩ := declaration_none meaning budget h
    have hlt := (Reading.declaration_spec meaning (fun _ => id) budget hspelled hnil).2.1
    constructor
    · constructor
      · rintro ⟨hfirst, hrest⟩
        exact ⟨hnone.1 hfirst, (ih _ hlt (hafter hfirst) rfl).1.1 hrest⟩
      · rintro ⟨hfirst, hrest⟩
        have hfirst := hnone.2 hfirst
        exact ⟨hfirst, (ih _ hlt (hafter hfirst) rfl).1.2 hrest⟩
    · rintro ⟨hfirst, hrest⟩
      exact (ih _ hlt (hafter hfirst) rfl).2 hrest

/-! ### Source texts -/

/-- Splitting changes no kinds, so it makes no token invalid, nor the end of input of another. -/
theorem forall_kind {p : Token.Kind → Prop} (hcardinal : p .cardinal) {tokens images : List Token}
    (h : SplitsTo tokens images) :
    (∀ token ∈ tokens, p token.kind) ↔ ∀ image ∈ images, p image.kind := by
  induction h with
  | nil => simp
  | keep hsame hspelled hrest ih => simp [ih, Like.kind hsame]
  | split hcard hsame hspelled hjoins hrest ih =>
      simp [ih, Like.kind hsame, hjoins.kind, hjoins.lower.1, hjoins.upper.1, hcardinal]

/-- Two source texts whose tokens differ in the forms of cardinalities compile to the same graphs. -/
theorem compile_split {source image : String}
    (h : SplitsTo (scan 0 source.toList) (scan 0 image.toList)) (graph : Graph) :
    compile source = .ok graph ↔ compile image = .ok graph := by
  have hinvalid : (∀ token ∈ Lexer.tokens source, token.kind ≠ .invalid) ↔
      ∀ token ∈ Lexer.tokens image, token.kind ≠ .invalid := by
    rw [tokens_eq, tokens_eq, List.forall_mem_append, List.forall_mem_append,
      h.forall_kind (p := (· ≠ .invalid)) (by decide), List.forall_mem_singleton,
      List.forall_mem_singleton]
  rw [compile_ok_iff_declarations, compile_ok_iff_declarations, hinvalid]
  refine and_congr_right fun hvalid => ?_
  have hshows : Shows (⟨scan 0 source.toList, 0, Builder.empty⟩ : Reading Builder)
      ⟨scan 0 image.toList, 0, Builder.empty⟩ := ⟨h, rfl, rfl⟩
  rw [start_eq (hinvalid.2 hvalid), start_eq hvalid, dropLast_tokens, dropLast_tokens]
  obtain ⟨hnil, hstate⟩ := declarations_nil Builder.meaning (maxDepth + 1) hshows
  generalize Reading.declarations Builder.meaning (maxDepth + 1)
      ⟨scan 0 source.toList, 0, Builder.empty⟩ = result,
    Reading.declarations Builder.meaning (maxDepth + 1)
      ⟨scan 0 image.toList, 0, Builder.empty⟩ = result' at hnil hstate ⊢
  obtain ⟨stops, after⟩ := result
  obtain ⟨stops', after'⟩ := result'
  dsimp only at hnil hstate
  constructor
  · rintro ⟨_, hresult, hfinish⟩
    cases hresult
    exact ⟨after', by rw [hnil.1 rfl], hstate rfl ▸ hfinish⟩
  · rintro ⟨_, hresult, hfinish⟩
    cases hresult
    have hsource := hnil.2 rfl
    exact ⟨after, by rw [hsource], hstate hsource ▸ hfinish⟩

end SplitsTo

end ErDiagram
