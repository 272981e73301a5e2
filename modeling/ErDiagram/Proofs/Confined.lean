import ErDiagram.Proofs.Parsing

/-!
How far readers look. Whether a reader stops or not, it goes on over tokens only, blames none but
those that it was given, and does not come out at a smaller depth when it stops. And as long as it
leaves a token unread, it does the same when more tokens follow: it never looks beyond the token
that comes next.
-/

namespace ErDiagram

variable {σ ε α β : Type}

namespace Reading

/-- The reading with more tokens behind those not read yet. -/
def extend (reading : Reading σ) (more : List Token) : Reading σ :=
  { reading with unread := reading.unread ++ more }

/-- A reading goes on over some tokens, and the depth keeps count of their parentheses. -/
structure Reaches (before after : Reading σ) : Prop where
  suffix : after.unread <:+ before.unread
  balance : after.depth + openedBy after.unread = before.depth + openedBy before.unread

theorem Reaches.refl (reading : Reading σ) : reading.Reaches reading :=
  ⟨List.suffix_refl _, rfl⟩

theorem Reaches.trans {before middle after : Reading σ} (h : before.Reaches middle)
    (h' : middle.Reaches after) : before.Reaches after :=
  ⟨h'.suffix.trans h.suffix, h'.balance.trans h.balance⟩

theorem Reaches.unread_ne_nil {before after : Reading σ} (h : before.Reaches after)
    (hafter : after.unread ≠ []) : before.unread ≠ [] := by
  intro hbefore
  have hsuffix := h.suffix
  rw [hbefore, List.suffix_nil] at hsuffix
  exact hafter hsuffix

theorem reaches_advance (reading : Reading σ) : reading.Reaches reading.advance := by
  obtain ⟨unread, depth, state⟩ := reading
  cases unread with
  | nil => exact Reaches.refl _
  | cons token rest =>
      refine ⟨List.suffix_cons token rest, ?_⟩
      change depth + token.nesting + openedBy rest = depth + openedBy (token :: rest)
      rw [openedBy_cons, Int.add_assoc]

theorem extend_advance {reading : Reading σ} (h : reading.unread ≠ []) (more : List Token) :
    (reading.extend more).advance = reading.advance.extend more := by
  obtain ⟨unread, depth, state⟩ := reading
  obtain ⟨token, rest, rfl⟩ := List.exists_cons_of_ne_nil h
  rfl

theorem next?_extend {reading : Reading σ} (h : reading.unread ≠ []) (more : List Token) :
    (reading.extend more).next? = reading.next? := by
  obtain ⟨unread, depth, state⟩ := reading
  obtain ⟨token, rest, rfl⟩ := List.exists_cons_of_ne_nil h
  rfl

theorem isNext_extend {reading : Reading σ} (h : reading.unread ≠ []) (more : List Token)
    (kind : Token.Kind) : (reading.extend more).isNext kind = reading.isNext kind := by
  rw [isNext, isNext, next?_extend h]

theorem atBodyEnd_extend {reading : Reading σ} (h : reading.unread ≠ []) (more : List Token) :
    (reading.extend more).atBodyEnd = reading.atBodyEnd := by
  obtain ⟨unread, depth, state⟩ := reading
  obtain ⟨token, rest, rfl⟩ := List.exists_cons_of_ne_nil h
  rfl

theorem mem_of_next? {reading : Reading σ} {token : Token} (h : token ∈ reading.next?) :
    token ∈ reading.unread :=
  List.mem_of_mem_head? h

end Reading

/-- A reader that is given allowed tokens gives such things, that many parentheses deeper, or else
blames an allowed token; and it does the same when more tokens follow, as long as it leaves one. -/
structure Confined (allowed : Token → Prop) (gives : α → Prop) (deeper : Int)
    (reader : Reader σ ε α) : Prop where
  ok : ∀ {before after : Reading σ} {a : α}, (∀ token ∈ before.unread, allowed token) →
    reader before = .ok a after →
      before.Reaches after ∧ after.depth = before.depth + deeper ∧ gives a
  error : ∀ {before after : Reading σ} {fault : Fault ε},
    (∀ token ∈ before.unread, allowed token) → reader before = .error fault after →
      before.Reaches after ∧ before.depth ≤ after.depth ∧ ∀ token ∈ fault.token, allowed token
  extend_ok : ∀ {before after : Reading σ} {a : α} (more : List Token),
    (∀ token ∈ before.unread, allowed token) → reader before = .ok a after → after.unread ≠ [] →
      reader (before.extend more) = .ok a (after.extend more)
  extend_error : ∀ {before after : Reading σ} {fault : Fault ε} (more : List Token),
    (∀ token ∈ before.unread, allowed token) → reader before = .error fault after →
      after.unread ≠ [] → reader (before.extend more) = .error fault (after.extend more)

namespace Reader

theorem bind_error {reader : Reader σ ε α} {next : α → Reader σ ε β} {fault : Fault ε}
    {before after : Reading σ} :
    (reader >>= next) before = .error fault after ↔
      reader before = .error fault after ∨
        ∃ a middle, reader before = .ok a middle ∧ next a middle = .error fault after := by
  change EStateM.bind reader next before = _ ↔ _
  unfold EStateM.bind
  cases reader before with
  | ok a middle =>
      constructor
      · exact fun h => Or.inr ⟨a, middle, rfl, h⟩
      · rintro (h | ⟨_, _, heq, h⟩)
        · cases h
        · cases heq
          exact h
  | error fault middle =>
      constructor
      · intro h
        cases h
        exact Or.inl rfl
      · rintro (h | ⟨_, _, heq, -⟩)
        · cases h
          rfl
        · cases heq

/-- A reader goes on behind the next token if it can take something from it, and otherwise stops at
that token. -/
def Peeks (reader : Reader σ ε α) (take : Token → Option α) (error : SyntaxError) : Prop :=
  ∀ reading, reader reading =
    match reading.next?.bind take with
    | some a => .ok a reading.advance
    | none => .error ⟨.malformed error, reading.next?⟩ reading

theorem expect_peeks (kind : Token.Kind) (error : SyntaxError) :
    Peeks (expect kind error : Reader σ ε Token)
      (fun token => if token.kind = kind then some token else none) error := by
  intro reading
  unfold expect
  cases reading.next? with
  | none => rfl
  | some token => by_cases hkind : token.kind = kind <;> simp [hkind]

theorem decode_peeks (value? : String → Option α) (error : SyntaxError) :
    Peeks (decode value? error : Reader σ ε α) (value? ·.text) error :=
  fun _ => rfl

theorem fieldKeyword_peeks (owner : Node.Kind) :
    Peeks (fieldKeyword owner : Reader σ ε (Token × Field))
      (fun token => (Field.find? owner token.kind).map (token, ·))
      (if owner = .start then .expectedDeclaration else .unknownField owner) := by
  intro reading
  unfold fieldKeyword
  cases reading.next? with
  | none => rfl
  | some token =>
      dsimp only [Option.bind_some]
      cases Field.find? owner token.kind <;> rfl

end Reader

namespace Confined

variable {allowed : Token → Prop} {gives : α → Prop} {gives' : β → Prop}

/-! ### The readers that the others are made of -/

theorem bind_deeper {reader : Reader σ ε α} {next : α → Reader σ ε β} {deeper : Int}
    (further total : Int) (h : Confined allowed gives deeper reader)
    (hnext : ∀ a, gives a → Confined allowed gives' further (next a)) (hdeeper : 0 ≤ deeper)
    (htotal : deeper + further = total) : Confined allowed gives' total (reader >>= next) where
  ok := by
    intro before after b hallowed hok
    obtain ⟨a, middle, hfirst, hsecond⟩ := Reader.bind_ok.1 hok
    obtain ⟨hreach, hdepth, ha⟩ := h.ok hallowed hfirst
    obtain ⟨hreach', hdepth', hb⟩ :=
      (hnext a ha).ok (fun token htoken => hallowed token (hreach.suffix.subset htoken)) hsecond
    exact ⟨hreach.trans hreach', by omega, hb⟩
  error := by
    intro before after fault hallowed herror
    rcases Reader.bind_error.1 herror with hfirst | ⟨a, middle, hfirst, hsecond⟩
    · exact h.error hallowed hfirst
    · obtain ⟨hreach, hdepth, ha⟩ := h.ok hallowed hfirst
      obtain ⟨hreach', hdepth', hblame⟩ :=
        (hnext a ha).error (fun token htoken => hallowed token (hreach.suffix.subset htoken)) hsecond
      exact ⟨hreach.trans hreach', by omega, hblame⟩
  extend_ok := by
    intro before after b more hallowed hok hunread
    obtain ⟨a, middle, hfirst, hsecond⟩ := Reader.bind_ok.1 hok
    obtain ⟨hreach, -, ha⟩ := h.ok hallowed hfirst
    have hallowed' : ∀ token ∈ middle.unread, allowed token :=
      fun token htoken => hallowed token (hreach.suffix.subset htoken)
    have hmiddle := ((hnext a ha).ok hallowed' hsecond).1.unread_ne_nil hunread
    exact Reader.bind_ok.2 ⟨a, middle.extend more, h.extend_ok more hallowed hfirst hmiddle,
      (hnext a ha).extend_ok more hallowed' hsecond hunread⟩
  extend_error := by
    intro before after fault more hallowed herror hunread
    rcases Reader.bind_error.1 herror with hfirst | ⟨a, middle, hfirst, hsecond⟩
    · exact Reader.bind_error.2 (Or.inl (h.extend_error more hallowed hfirst hunread))
    · obtain ⟨hreach, -, ha⟩ := h.ok hallowed hfirst
      have hallowed' : ∀ token ∈ middle.unread, allowed token :=
        fun token htoken => hallowed token (hreach.suffix.subset htoken)
      have hmiddle := ((hnext a ha).error hallowed' hsecond).1.unread_ne_nil hunread
      exact Reader.bind_error.2 (Or.inr ⟨a, middle.extend more,
        h.extend_ok more hallowed hfirst hmiddle,
        (hnext a ha).extend_error more hallowed' hsecond hunread⟩)

theorem bind {reader : Reader σ ε α} {next : α → Reader σ ε β}
    (h : Confined allowed gives 0 reader)
    (hnext : ∀ a, gives a → Confined allowed gives' 0 (next a)) :
    Confined allowed gives' 0 (reader >>= next) :=
  h.bind_deeper 0 0 hnext (Int.le_refl 0) (Int.add_zero 0)

theorem pure {a : α} (h : gives a) : Confined allowed gives 0 (pure a : Reader σ ε α) where
  ok := by
    intro before after b hallowed hok
    cases hok
    exact ⟨Reading.Reaches.refl _, (Int.add_zero _).symm, h⟩
  error := by
    intro before after fault hallowed herror
    cases herror
  extend_ok := by
    intro before after b more hallowed hok hunread
    cases hok
    rfl
  extend_error := by
    intro before after fault more hallowed herror hunread
    cases herror

theorem fail {cause : Fault.Cause ε} {token : Option Token} {deeper : Int}
    (h : ∀ blamed ∈ token, allowed blamed) :
    Confined allowed gives deeper (Reader.fail cause token : Reader σ ε α) where
  ok := by
    intro before after a hallowed hok
    cases hok
  error := by
    intro before after fault hallowed herror
    cases herror
    exact ⟨Reading.Reaches.refl _, Int.le_refl _, h⟩
  extend_ok := by
    intro before after a more hallowed hok hunread
    cases hok
  extend_error := by
    intro before after fault more hallowed herror hunread
    cases herror
    rfl

/-- A question may look at the next token, but not beyond. -/
theorem ask {question : Reading σ → α}
    (hgives : ∀ before : Reading σ, (∀ token ∈ before.unread, allowed token) → gives (question before))
    (hextend : ∀ before : Reading σ, before.unread ≠ [] →
      ∀ more, question (before.extend more) = question before) :
    Confined allowed gives 0 (Reader.ask question : Reader σ ε α) where
  ok := by
    intro before after a hallowed hok
    cases hok
    exact ⟨Reading.Reaches.refl _, (Int.add_zero _).symm, hgives before hallowed⟩
  error := by
    intro before after fault hallowed herror
    cases herror
  extend_ok := by
    intro before after a more hallowed hok hunread
    cases hok
    rw [← hextend before hunread more]
    rfl
  extend_error := by
    intro before after fault more hallowed herror hunread
    cases herror

theorem peek {reader : Reader σ ε α} {take : Token → Option α} {error : SyntaxError} (deeper : Int)
    (hread : reader.Peeks take error)
    (htake : ∀ token, allowed token → ∀ a, take token = some a → token.nesting = deeper ∧ gives a) :
    Confined allowed gives deeper reader where
  ok := by
    intro before after a hallowed hok
    rw [hread] at hok
    split at hok
    · rename_i b htaken
      cases hok
      obtain ⟨token, hnext, htaken⟩ := Option.bind_eq_some_iff.1 htaken
      obtain ⟨hnesting, ha⟩ := htake token (hallowed token (Reading.mem_of_next? hnext)) a htaken
      refine ⟨Reading.reaches_advance before, ?_, ha⟩
      obtain ⟨unread, depth, state⟩ := before
      cases unread with
      | nil => cases hnext
      | cons first rest =>
          cases hnext
          exact congrArg (depth + ·) hnesting
    · cases hok
  error := by
    intro before after fault hallowed herror
    rw [hread] at herror
    split at herror
    · cases herror
    · cases herror
      exact ⟨Reading.Reaches.refl _, Int.le_refl _,
        fun token htoken => hallowed token (Reading.mem_of_next? htoken)⟩
  extend_ok := by
    intro before after a more hallowed hok hunread
    rw [hread] at hok
    split at hok
    · rename_i b htaken
      cases hok
      have hne := (Reading.reaches_advance before).unread_ne_nil hunread
      rw [hread, Reading.next?_extend hne, htaken]
      exact congrArg _ (Reading.extend_advance hne more)
    · cases hok
  extend_error := by
    intro before after fault more hallowed herror hunread
    rw [hread] at herror
    split at herror
    · cases herror
    · rename_i htaken
      cases herror
      rw [hread, Reading.next?_extend hunread, htaken]

theorem expect {kind : Token.Kind} {error : SyntaxError} (deeper : Int)
    (hdeeper : ∀ token : Token, token.kind = kind → token.nesting = deeper) :
    Confined allowed (fun token => allowed token ∧ token.kind = kind) deeper
      (Reader.expect kind error : Reader σ ε Token) := by
  apply peek deeper (Reader.expect_peeks kind error)
  intro token htoken a htake
  split at htake
  · rename_i hkind
    cases htake
    exact ⟨hdeeper token hkind, htoken, hkind⟩
  · cases htake

/-- A token that is no parenthesis does not change the depth. -/
theorem expect_flat {kind : Token.Kind} {error : SyntaxError}
    (hkind : kind ≠ .leftParen ∧ kind ≠ .rightParen) :
    Confined allowed (fun token => allowed token ∧ token.kind = kind) 0
      (Reader.expect kind error : Reader σ ε Token) :=
  expect 0 fun _ h => nesting_of_ne (h ▸ hkind.1) (h ▸ hkind.2)

theorem decode {value? : String → Option α} {error : SyntaxError}
    (hvalue : ∀ token, allowed token → ∀ a, value? token.text = some a → token.nesting = 0) :
    Confined allowed (fun _ => True) 0 (Reader.decode value? error : Reader σ ε α) := by
  apply peek 0 (Reader.decode_peeks value? error)
  exact fun token htoken a htake => ⟨hvalue token htoken a htake, trivial⟩

theorem fieldKeyword (owner : Node.Kind) :
    Confined allowed (fun found : Token × Field => allowed found.1) 0
      (Reader.fieldKeyword owner : Reader σ ε (Token × Field)) := by
  apply peek 0 (Reader.fieldKeyword_peeks owner)
  intro token htoken a htake
  obtain ⟨field, hfield, rfl⟩ := Option.map_eq_some_iff.1 htake
  obtain ⟨word, hkind, -⟩ := Field.find?_eq_some.1 hfield
  exact ⟨nesting_reserved hkind, htoken⟩

theorem accept {kind : Token.Kind} (hkind : kind ≠ .leftParen ∧ kind ≠ .rightParen) :
    Confined allowed (fun _ => True) 0 (Reader.accept kind : Reader σ ε Bool) where
  ok := by
    intro before after found hallowed hok
    unfold Reader.accept at hok
    split at hok
    · rename_i hnext
      cases hok
      refine ⟨Reading.reaches_advance before, ?_, trivial⟩
      obtain ⟨unread, depth, state⟩ := before
      cases unread with
      | nil => cases hnext
      | cons first rest =>
          have hfirst : first.kind = kind := by simpa [Reading.isNext, Reading.next?] using hnext
          exact congrArg (depth + ·) (nesting_of_ne (hfirst ▸ hkind.1) (hfirst ▸ hkind.2))
    · cases hok
      exact ⟨Reading.Reaches.refl _, (Int.add_zero _).symm, trivial⟩
  error := by
    intro before after fault hallowed herror
    unfold Reader.accept at herror
    split at herror <;> cases herror
  extend_ok := by
    intro before after found more hallowed hok hunread
    unfold Reader.accept at hok ⊢
    split at hok
    · rename_i hnext
      cases hok
      have hne := (Reading.reaches_advance before).unread_ne_nil hunread
      rw [Reading.isNext_extend hne, if_pos hnext, Reading.extend_advance hne]
    · rename_i hnext
      cases hok
      rw [Reading.isNext_extend hunread, if_neg hnext]
  extend_error := by
    intro before after fault more hallowed herror hunread
    unfold Reader.accept at herror
    split at herror <;> cases herror

theorem decoded {token : Token} (htoken : allowed token) (result : Except InvalidCardinality α) :
    Confined allowed (fun _ => True) 0 (Reader.decoded token result : Reader σ ε α) := by
  cases result with
  | ok value => exact pure trivial
  | error error =>
      apply fail
      intro blamed hblamed
      cases hblamed
      exact htoken

theorem report {meaning : Interpretation σ ε} {action : Action} {token : Option Token}
    (htoken : ∀ blamed ∈ token, allowed blamed) :
    Confined allowed (fun _ => True) 0 (Reader.report meaning action token : Reader σ ε Unit) where
  ok := by
    intro before after u hallowed hok
    unfold Reader.report at hok
    split at hok
    · cases hok
      exact ⟨⟨List.suffix_refl _, rfl⟩, (Int.add_zero _).symm, trivial⟩
    · cases hok
  error := by
    intro before after fault hallowed herror
    unfold Reader.report at herror
    split at herror
    · cases herror
    · cases herror
      exact ⟨Reading.Reaches.refl _, Int.le_refl _, htoken⟩
  extend_ok := by
    intro before after u more hallowed hok hunread
    unfold Reader.report at hok ⊢
    split at hok
    · rename_i state hact
      cases hok
      have hact' : meaning.act action (before.extend more).state = .ok state := hact
      rw [hact']
      rfl
    · cases hok
  extend_error := by
    intro before after fault more hallowed herror hunread
    unfold Reader.report at herror ⊢
    split at herror
    · cases herror
    · rename_i refusal hact
      cases herror
      have hact' : meaning.act action (before.extend more).state = .error refusal := hact
      rw [hact']

/-! ### Details -/

theorem cardinality :
    Confined allowed (fun _ => True) 0 (Reader.cardinality : Reader σ ε Cardinality) := by
  apply (expect_flat (by decide)).bind
  rintro first ⟨hfirst, -⟩
  split
  · exact decoded hfirst _
  · apply (decoded hfirst _).bind
    intro min _
    apply (expect_flat (by decide)).bind
    rintro second ⟨hsecond, -⟩
    apply (decoded hsecond _).bind
    intro max _
    exact pure trivial

section

variable (hspelled : ∀ token, allowed token → token.Spelled)
include hspelled

theorem hierarchyType :
    Confined allowed (fun _ => True) 0 (Reader.hierarchyType : Reader σ ε HierarchyType) := by
  apply (accept (by decide)).bind
  intro _ _
  apply (accept (by decide)).bind
  intro subset _
  split
  · exact pure trivial
  · apply Confined.bind
    · apply decode
      intro token htoken total htotal
      exact nesting_reserved ((coverage?_iff (hspelled token htoken)).1 htotal)
    intro total _
    apply Confined.bind
    · apply decode
      intro token htoken exclusive hexclusive
      exact nesting_reserved ((disjointness?_iff (hspelled token htoken)).1 hexclusive)
    intro exclusive _
    exact pure trivial

theorem details (meaning : Interpretation σ ε) (kind : Node.Kind) :
    Confined allowed (fun _ => True) 0 (Reader.details meaning kind) := by
  have hnone : ∀ blamed ∈ (none : Option Token), allowed blamed := fun blamed h => by cases h
  unfold Reader.details
  split
  · apply (hierarchyType hspelled).bind
    intro type _
    exact report hnone
  · apply (accept (by decide)).bind
    intro announced _
    split
    · apply cardinality.bind
      intro cardinality _
      exact report hnone
    · exact pure trivial
  · exact pure trivial

end

end Confined
end ErDiagram
