import ErDiagram.Proofs.Acting
import ErDiagram.Proofs.Literals
import ErDiagram.Proofs.Loops
import ErDiagram.Proofs.Lookahead
import ErDiagram.Proofs.Spacing
import Mathlib.Data.Option.Basic

/-!
The two forms of a cardinality. Behind `card`, a pair does what its two bounds do one behind the
other: either form is read as the cardinality that the pair decodes to, or neither is, and then both
stop at a literal that is no cardinality. So the readers are in lockstep on tokens that differ in
such forms, and texts that differ so compile to one graph or are both rejected.
-/

namespace ErDiagram

variable {σ ε α β : Type}

/-- A literal joins the bounds that two literals write. -/
structure Token.Joins (joined lower upper : Token) : Prop where
  text : joined.text = lower.text ++ ":" ++ upper.text
  kind : joined.kind = .cardinal
  lower : lower.kind = .cardinal ∧ IsBound lower.text.toList
  upper : upper.kind = .cardinal ∧ IsBound upper.text.toList

/-- Two outcomes of reading a cardinality in its two forms: either form has the value that the pair
decodes to, or neither has a value, and a literal of each is to blame. -/
inductive TakenAlike (joined lower upper : Token)
    (taken taken' : Cardinality → EStateM.Result (Fault ε) (Reading σ) α) :
    EStateM.Result (Fault ε) (Reading σ) α → EStateM.Result (Fault ε) (Reading σ) α → Prop where
  | value {cardinality : Cardinality} (hvalue : Cardinality.ofString joined.text = .ok cardinality) :
    TakenAlike joined lower upper taken taken' (taken cardinality) (taken' cardinality)
  | invalid {error error' : InvalidCardinality} {literal : Token} {after after' : Reading σ}
    (herror : Cardinality.ofString joined.text = .error error)
    (hliteral : literal = lower ∨ literal = upper) :
    TakenAlike joined lower upper taken taken'
      (.error ⟨.malformed (.invalidCardinality error), some joined⟩ after)
      (.error ⟨.malformed (.invalidCardinality error'), some literal⟩ after')

/-! ### One cardinality -/

namespace Reader

theorem expect_cons {kind : Token.Kind} {token : Token} (hkind : token.kind = kind)
    (error : SyntaxError) (rest : List Token) (depth : Int) (state : σ) :
    (expect kind error : Reader σ ε Token) ⟨token :: rest, depth, state⟩ =
      .ok token ⟨rest, depth + token.nesting, state⟩ := by
  simp [expect, Reading.next?, hkind]

/-- A literal nests nothing. -/
theorem expect_cardinal {literal : Token} (hkind : literal.kind = .cardinal)
    (rest : List Token) (depth : Int) (state : σ) :
    (expectKind .cardinal : Reader σ ε Token) ⟨literal :: rest, depth, state⟩ =
      .ok literal ⟨rest, depth, state⟩ := by
  rw [expectKind, expect_cons hkind, nesting_of_ne (by simp [hkind]) (by simp [hkind]), Int.add_zero]

/-- Neither does a name. -/
theorem expectName_cons {name : Token} (hname : name.kind = .identifier) (kind : Node.Kind)
    (rest : List Token) (depth : Int) (state : σ) :
    (expectName kind : Reader σ ε Token) ⟨name :: rest, depth, state⟩ =
      .ok name ⟨rest, depth, state⟩ := by
  rw [expectName, expect_cons hname, nesting_of_ne (by simp [hname]) (by simp [hname]), Int.add_zero]

/-- Neither does a reserved word. -/
theorem accept_reserved {token : Token} {keyword : Keyword}
    (hkind : token.kind = .reserved keyword) (rest : List Token) (depth : Int) (state : σ) :
    (accept (.reserved keyword) : Reader σ ε Bool) ⟨token :: rest, depth, state⟩ =
      .ok true ⟨rest, depth, state⟩ := by
  simp [accept, Reading.isNext, Reading.next?, hkind, nesting_reserved hkind]

theorem bind_of_error {reader : Reader σ ε α} {next : α → Reader σ ε β} {fault : Fault ε}
    {before after : Reading σ} (h : reader before = .error fault after) :
    (reader >>= next) before = .error fault after :=
  bind_error.2 (Or.inl h)

theorem report_of_act {meaning : Interpretation σ ε} {action : Action} {reading : Reading σ}
    {state : σ} (h : meaning.act action reading.state = .ok state) (token : Option Token) :
    report meaning action token reading = .ok () { reading with state } := by
  simp only [report, h]

/-- What a literal decodes to is given, or the literal is blamed. -/
theorem decoded_eq (literal : Token) (result : Except InvalidCardinality α) (before : Reading σ) :
    (decoded literal result : Reader σ ε α) before =
      match result with
      | .ok a => .ok a before
      | .error error => .error ⟨.malformed (.invalidCardinality error), some literal⟩ before := by
  cases result <;> rfl

/-- A cardinality is read from a pair. -/
theorem cardinality_pair {joined : Token} (hkind : joined.kind = .cardinal)
    (hcolon : ':' ∈ joined.text.toList) (rest : List Token) (depth : Int) (state : σ) :
    (cardinality : Reader σ ε Cardinality) ⟨joined :: rest, depth, state⟩ =
      match Cardinality.ofString joined.text with
      | .ok cardinality => .ok cardinality ⟨rest, depth, state⟩
      | .error error =>
        .error ⟨.malformed (.invalidCardinality error), some joined⟩ ⟨rest, depth, state⟩ := by
  rw [cardinality, bind_of_ok (expect_cardinal hkind rest depth state), if_pos hcolon, decoded_eq]
  cases Cardinality.ofString joined.text <;> rfl

/-- A cardinality is read from two bounds. -/
theorem cardinality_bounds {lower upper : Token} (hlower : lower.kind = .cardinal)
    (hupper : upper.kind = .cardinal) (hcolon : ':' ∉ lower.text.toList) (rest : List Token)
    (depth : Int) (state : σ) :
    (cardinality : Reader σ ε Cardinality) ⟨lower :: upper :: rest, depth, state⟩ =
      match Bound.ofString lower.text, Bound.ofString upper.text with
      | .ok min, .ok max => .ok ⟨min, max⟩ ⟨rest, depth, state⟩
      | .ok _, .error error =>
        .error ⟨.malformed (.invalidCardinality error), some upper⟩ ⟨rest, depth, state⟩
      | .error error, _ =>
        .error ⟨.malformed (.invalidCardinality error), some lower⟩ ⟨upper :: rest, depth, state⟩ := by
  rw [cardinality, bind_of_ok (expect_cardinal hlower (upper :: rest) depth state), if_neg hcolon]
  cases hmin : Bound.ofString lower.text with
  | error error => exact bind_of_error (decoded_eq lower _ _)
  | ok min =>
      rw [bind_of_ok (decoded_eq lower _ _), bind_of_ok (expect_cardinal hupper rest depth state)]
      cases hmax : Bound.ofString upper.text with
      | error error => exact bind_of_error (decoded_eq upper _ _)
      | ok max => exact bind_of_ok (decoded_eq upper _ _)

theorem details_attribute (meaning : Interpretation σ ε) :
    details meaning .attribute = (accept (.reserved .cardinality) >>= fun announced =>
      if announced then
        cardinality >>= fun cardinality => report meaning (.bound cardinality) none
      else pure ()) := rfl

end Reader

/-- What follows is done with the value. -/
theorem TakenAlike.bind {joined lower upper : Token}
    {taken taken' : Cardinality → Reading σ} {reader reader' : Reader σ ε Cardinality}
    {before before' : Reading σ}
    (h : TakenAlike joined lower upper (fun cardinality => .ok cardinality (taken cardinality))
      (fun cardinality => .ok cardinality (taken' cardinality)) (reader before) (reader' before'))
    (next : Cardinality → Reader σ ε α) :
    TakenAlike joined lower upper (fun cardinality => next cardinality (taken cardinality))
      (fun cardinality => next cardinality (taken' cardinality)) ((reader >>= next) before)
      ((reader' >>= next) before') := by
  change TakenAlike _ _ _ _ _ (EStateM.bind reader next before) (EStateM.bind reader' next before')
  unfold EStateM.bind
  generalize reader before = result, reader' before' = result' at h ⊢
  cases h with
  | value hvalue => exact .value hvalue
  | invalid herror hliteral => exact .invalid herror hliteral

namespace Token.Joins

variable {joined lower upper : Token} (h : joined.Joins lower upper)
include h

theorem toList_text : joined.text.toList = lower.text.toList ++ ':' :: upper.text.toList := by
  simp [h.text]

theorem colon_mem : ':' ∈ joined.text.toList := by
  simp [h.toList_text]

theorem ofString_eq_ok {cardinality : Cardinality} :
    Cardinality.ofString joined.text = .ok cardinality ↔
      Bound.ofString lower.text = .ok cardinality.min ∧
        Bound.ofString upper.text = .ok cardinality.max := by
  rw [Cardinality.ofString_pair h.lower.2 h.toList_text, Bound.ofString_iff, Bound.ofString_iff]

/-- If one of the bounds is none, the pair is no cardinality. -/
theorem exists_error (hbound : ∀ cardinality : Cardinality,
      ¬(Bound.ofString lower.text = .ok cardinality.min ∧
        Bound.ofString upper.text = .ok cardinality.max)) :
    ∃ error, Cardinality.ofString joined.text = .error error := by
  cases hresult : Cardinality.ofString joined.text with
  | ok cardinality => exact absurd (h.ofString_eq_ok.1 hresult) (hbound cardinality)
  | error error => exact ⟨error, rfl⟩

/-- A cardinality is read from the two forms alike. -/
theorem cardinality_alike (rest rest' : List Token) (depth : Int) (state : σ) :
    TakenAlike joined lower upper (fun cardinality => .ok cardinality ⟨rest, depth, state⟩)
      (fun cardinality => .ok cardinality ⟨rest', depth, state⟩)
      ((Reader.cardinality : Reader σ ε Cardinality) ⟨joined :: rest, depth, state⟩)
      ((Reader.cardinality : Reader σ ε Cardinality) ⟨lower :: upper :: rest', depth, state⟩) := by
  rw [Reader.cardinality_pair h.kind h.colon_mem,
    Reader.cardinality_bounds h.lower.1 h.upper.1 h.lower.2.not_mem_colon]
  cases hmin : Bound.ofString lower.text with
  | error error =>
      obtain ⟨error', herror⟩ := h.exists_error fun _ hboth => by simp [hmin] at hboth
      rw [herror]
      exact .invalid herror (Or.inl rfl)
  | ok min =>
      cases hmax : Bound.ofString upper.text with
      | error error =>
          obtain ⟨error', herror⟩ := h.exists_error fun _ hboth => by simp [hmax] at hboth
          rw [herror]
          exact .invalid herror (Or.inr rfl)
      | ok max =>
          have hvalue : Cardinality.ofString joined.text = .ok ⟨min, max⟩ :=
            h.ofString_eq_ok.2 ⟨hmin, hmax⟩
          rw [hvalue]
          exact .value hvalue

end Token.Joins

/-! ### Attributes and branches -/

/-- The branch that a builder gets for an entity. -/
def Builder.branched (builder : Builder) (entity : Nat) (cardinality : Cardinality) : Builder :=
  builder.grown ⟨.cardinality, builder.nextId, builder.nextId.repr ++ "_" ++ "card", [entity],
    some cardinality, none⟩

section

variable {joined lower upper card : Token} (h : joined.Joins lower upper)
  (hcard : card.kind = .reserved .cardinality) (rest rest' : List Token) (depth : Int)

include hcard in
theorem Reader.expect_card (tokens : List Token) (state : σ) :
    (expectKind (.reserved .cardinality) : Reader σ ε Token) ⟨card :: tokens, depth, state⟩ =
      .ok card ⟨tokens, depth, state⟩ := by
  rw [expectKind, expect_cons hcard, nesting_reserved hcard, Int.add_zero]

/-- A name that is in reach is passed over. -/
theorem Reader.knownName_of_visible {builder : Builder} {name : Token} {kind : Node.Kind} {id : Nat}
    (hname : name.kind = .identifier) (hid : builder.findVisible kind name.text = .ok id)
    (tokens : List Token) :
    knownName Builder.meaning kind ⟨name :: tokens, depth, builder⟩ =
      .ok name ⟨tokens, depth, builder⟩ := by
  have hknows : Builder.meaning.act (.knows kind name.text) builder = .ok builder :=
    Builder.act_knows.2 ⟨⟨id, Builder.findVisible_ok.1 hid⟩, rfl⟩
  rw [knownName, bind_of_ok (expectName_cons hname kind tokens depth builder),
    bind_of_ok (report_of_act hknows (some name))]
  rfl

include h hcard

/-- The cardinality of an attribute is read from the two forms alike. -/
theorem details_alike (builder : Builder) :
    TakenAlike joined lower upper
      (fun cardinality => .ok () ⟨rest, depth, builder.setCardinality cardinality⟩)
      (fun cardinality => .ok () ⟨rest', depth, builder.setCardinality cardinality⟩)
      (Reader.details Builder.meaning .attribute ⟨card :: joined :: rest, depth, builder⟩)
      (Reader.details Builder.meaning .attribute
        ⟨card :: lower :: upper :: rest', depth, builder⟩) := by
  rw [Reader.details_attribute, Reader.bind_of_ok (Reader.accept_reserved hcard _ depth _),
    Reader.bind_of_ok (Reader.accept_reserved hcard _ depth _)]
  exact (h.cardinality_alike rest rest' depth builder).bind fun cardinality =>
    Reader.report Builder.meaning (.bound cardinality) none

/-- The cardinality of a branch to an entity in reach is read from the two forms alike. -/
theorem branch_alike {builder : Builder} {entity : Token} (hentity : entity.kind = .identifier)
    {id : Nat} (hid : builder.findVisible .entity entity.text = .ok id) (keyword : Token) :
    TakenAlike joined lower upper
      (fun cardinality => .ok () ⟨rest, depth, builder.branched id cardinality⟩)
      (fun cardinality => .ok () ⟨rest', depth, builder.branched id cardinality⟩)
      (Reader.branch Builder.meaning keyword ⟨entity :: card :: joined :: rest, depth, builder⟩)
      (Reader.branch Builder.meaning keyword
        ⟨entity :: card :: lower :: upper :: rest', depth, builder⟩) := by
  have hknown := Reader.knownName_of_visible depth hentity hid
  have hact (cardinality : Cardinality) :
      Builder.meaning.act (.branch entity.text cardinality) builder =
        .ok (builder.branched id cardinality) :=
    Builder.act_branch.2 ⟨id, Builder.findVisible_ok.1 hid, rfl⟩
  have hreport (tokens : List Token) (cardinality : Cardinality) :
      Reader.report Builder.meaning (.branch entity.text cardinality) (some keyword)
        ⟨tokens, depth, builder⟩ = .ok () ⟨tokens, depth, builder.branched id cardinality⟩ :=
    Reader.report_of_act (hact cardinality) _
  have halike := (h.cardinality_alike rest rest' depth builder).bind fun cardinality =>
    Reader.report Builder.meaning (.branch entity.text cardinality) (some keyword)
  unfold Reader.branch
  rw [Reader.bind_of_ok (hknown _), Reader.bind_of_ok (hknown _),
    Reader.bind_of_ok (Reader.expect_card hcard depth _ _),
    Reader.bind_of_ok (Reader.expect_card hcard depth _ _)]
  simpa only [hreport] using halike

end

end ErDiagram
