import ErDiagram.Proofs.Lookahead
import ErDiagram.Proofs.Renaming
import Mathlib.Data.List.Forall2

/-!
Readers in lockstep. Two readings show the same if their tokens correspond one by one and their
states do; then every reader does the same on both. It gives what corresponds, or it stops for the
same cause at corresponding tokens, also where a declaration is left in its middle. So nothing about
a token counts but its kind, and its text if it is a name, a literal or a character that starts no
token.
-/

namespace ErDiagram

variable {σ ε α β : Type}

/-- A token of the same kind, with the same text up to the replacement of names. The text of a
reserved word, and that of a parenthesis, may be any. -/
structure Token.Renamed (ρ : String → String) (token renamed : Token) : Prop where
  kind_eq : renamed.kind = token.kind
  name : token.kind = .identifier → renamed.text = ρ token.text
  literal : token.kind = .cardinal ∨ token.kind = .invalid → renamed.text = token.text

/-- Whether the names that a field gives or mentions are chosen by the source text. -/
def Field.isNamed : Field → Bool
  | .construct kind => kind.isNamed
  | .mention kind => kind.isNamed
  | .primaryKey => true
  | .branch => true
  | .attributeOf => true

theorem Field.isNamed_of_find? {owner : Node.Kind} {kind : Token.Kind} {field : Field}
    (h : Field.find? owner kind = some field) : field.isNamed := by
  obtain ⟨word, -, hlookup⟩ := find?_eq_some.1 h
  have hall : (table owner).all (·.2.isNamed) := by
    cases owner <;> rfl
  exact List.all_eq_true.1 hall _ (mem_table hlookup)

/-- What a stop is blamed on, with the reason for a refusal replaced. -/
def Fault.Cause.map {δ : Type} (blame : ε → δ) : Fault.Cause ε → Fault.Cause δ
  | .malformed error => .malformed error
  | .refused error => .refused (blame error)
  | .exhausted => .exhausted

/-- A correspondence of tokens and of states that actions respect. -/
structure Mirror (meaning : Interpretation σ ε) where
  names : String → String
  like : Token → Token → Prop
  move : σ → σ
  blame : ε → ε
  renamed : ∀ {token image : Token}, like token image → token.Renamed names image
  spelled : ∀ {token image : Token}, like token image → token.Spelled ∧ image.Spelled
  act : ∀ action state, meaning.act (action.rename names) (move state) =
    ((meaning.act action state).map move).mapError blame
  undo : ∀ before failed, meaning.undo (move before) (move failed) =
    move (meaning.undo before failed)

namespace Mirror

variable {meaning : Interpretation σ ε} (mirror : Mirror meaning)

/-- Two readings at corresponding tokens and in corresponding states. -/
structure Shows (reading image : Reading σ) : Prop where
  unread : List.Forall₂ mirror.like reading.unread image.unread
  depth : image.depth = reading.depth
  state : image.state = mirror.move reading.state

/-- Two faults with the same cause at corresponding tokens. -/
structure Blames (fault image : Fault ε) : Prop where
  cause : image.cause = fault.cause.map mirror.blame
  token : Option.Rel mirror.like fault.token image.token

/-- Two outcomes that give what corresponds, or that stop in the same way. -/
inductive Ends (gives : α → α → Prop) :
    EStateM.Result (Fault ε) (Reading σ) α → EStateM.Result (Fault ε) (Reading σ) α → Prop where
  | ok {a a' : α} {after after' : Reading σ} (hgives : gives a a')
    (hafter : mirror.Shows after after') : Ends gives (.ok a after) (.ok a' after')
  | error {fault fault' : Fault ε} {after after' : Reading σ} (hfault : mirror.Blames fault fault')
    (hafter : mirror.Shows after after') : Ends gives (.error fault after) (.error fault' after')

/-- Two readers that do the same on all readings that show the same. -/
def Reads (gives : α → α → Prop) (reader image : Reader σ ε α) : Prop :=
  ∀ before before', mirror.Shows before before' → mirror.Ends gives (reader before) (image before')

variable {mirror}

/-! ### Readings -/

namespace Shows

variable {reading image : Reading σ} (h : mirror.Shows reading image)
include h

theorem next? : Option.Rel mirror.like reading.next? image.next? := by
  obtain ⟨unread, depth, state⟩ := reading
  obtain ⟨unread', depth', state'⟩ := image
  cases h.unread with
  | nil => exact .none
  | cons hlike _ => exact .some hlike

theorem advance : mirror.Shows reading.advance image.advance := by
  obtain ⟨unread, depth, state⟩ := reading
  obtain ⟨unread', depth', state'⟩ := image
  obtain ⟨hunread, hdepth, hstate⟩ := h
  cases hunread with
  | nil => exact ⟨.nil, hdepth, hstate⟩
  | @cons token token' rest rest' hlike hrest =>
      have hnesting : token'.nesting = token.nesting := by
        rw [Token.nesting, (mirror.renamed hlike).kind_eq, Token.nesting]
      refine ⟨hrest, ?_, hstate⟩
      change depth' + token'.nesting = depth + token.nesting
      rw [hnesting, show depth' = depth from hdepth]

theorem isNext (kind : Token.Kind) : image.isNext kind = reading.isNext kind := by
  have hnext := h.next?
  unfold Reading.isNext
  generalize reading.next? = next, image.next? = next' at hnext ⊢
  cases hnext with
  | none => rfl
  | some hlike => simp [(mirror.renamed hlike).kind_eq]

theorem isEmpty : image.unread.isEmpty = reading.unread.isEmpty := by
  have hunread := h.unread
  generalize reading.unread = unread, image.unread = unread' at hunread ⊢
  cases hunread <;> rfl

theorem atBodyEnd : image.atBodyEnd = reading.atBodyEnd := by
  rw [Reading.atBodyEnd, Reading.atBodyEnd, h.isEmpty, h.isNext]

end Shows

theorem afterGroup (depth : Int) {tokens images : List Token}
    (h : List.Forall₂ mirror.like tokens images) :
    List.Forall₂ mirror.like (Reading.afterGroup depth tokens) (Reading.afterGroup depth images) := by
  induction h generalizing depth with
  | nil => exact .nil
  | @cons token token' _ _ hlike hrest ih =>
      have hnesting : token'.nesting = token.nesting := by
        rw [Token.nesting, (mirror.renamed hlike).kind_eq, Token.nesting]
      rw [Reading.afterGroup, Reading.afterGroup, hnesting]
      split
      · exact hrest
      · exact ih _

/-! ### The readers that the others are made of -/

namespace Reads

variable {gives : α → α → Prop} {gives' : β → β → Prop}

theorem bind {reader image : Reader σ ε α} {next next' : α → Reader σ ε β}
    (h : mirror.Reads gives reader image)
    (hnext : ∀ a a', gives a a' → mirror.Reads gives' (next a) (next' a')) :
    mirror.Reads gives' (reader >>= next) (image >>= next') := by
  intro before before' hbefore
  have hfirst := h before before' hbefore
  change mirror.Ends gives' (EStateM.bind reader next before) (EStateM.bind image next' before')
  unfold EStateM.bind
  generalize reader before = result, image before' = result' at hfirst ⊢
  cases hfirst with
  | ok hgives hafter => exact hnext _ _ hgives _ _ hafter
  | error hfault hafter => exact .error hfault hafter

theorem pure {a a' : α} (h : gives a a') :
    mirror.Reads gives (pure a : Reader σ ε α) (pure a') :=
  fun _ _ hbefore => .ok h hbefore

theorem fail {cause cause' : Fault.Cause ε} {token token' : Option Token}
    (hcause : cause' = cause.map mirror.blame) (htoken : Option.Rel mirror.like token token') :
    mirror.Reads gives (Reader.fail cause token) (Reader.fail cause' token') :=
  fun _ _ hbefore => .error ⟨hcause, htoken⟩ hbefore

theorem ask {question : Reading σ → α}
    (h : ∀ reading image, mirror.Shows reading image → gives (question reading) (question image)) :
    mirror.Reads gives (Reader.ask question) (Reader.ask question) :=
  fun _ _ hbefore => .ok (h _ _ hbefore) hbefore

theorem peek {reader : Reader σ ε α} {take : Token → Option α} {error : SyntaxError}
    (hread : reader.Peeks take error)
    (htake : ∀ token image, mirror.like token image → Option.Rel gives (take token) (take image)) :
    mirror.Reads gives reader reader := by
  intro before before' hbefore
  have hnext := hbefore.next?
  rw [hread, hread]
  generalize before.next? = next, before'.next? = next' at hnext ⊢
  cases hnext with
  | none => exact .error ⟨rfl, .none⟩ hbefore
  | @some token token' hlike =>
      have htaken := htake token token' hlike
      rw [Option.bind_some, Option.bind_some]
      generalize take token = taken, take token' = taken' at htaken ⊢
      cases htaken with
      | none => exact .error ⟨rfl, .some hlike⟩ hbefore
      | some hgives => exact .ok hgives hbefore.advance

theorem expect (kind : Token.Kind) (error : SyntaxError) :
    mirror.Reads (fun token image => mirror.like token image ∧ token.kind = kind)
      (Reader.expect kind error) (Reader.expect kind error) := by
  refine peek (Reader.expect_peeks kind error) fun token image hlike => ?_
  rw [(mirror.renamed hlike).kind_eq]
  split
  · exact .some ⟨hlike, ‹_›⟩
  · exact .none

theorem accept (kind : Token.Kind) :
    mirror.Reads Eq (Reader.accept kind) (Reader.accept kind) := by
  intro before before' hbefore
  unfold Reader.accept
  rw [hbefore.isNext]
  split
  · exact .ok rfl hbefore.advance
  · exact .ok rfl hbefore

theorem decode {value? : String → Option α} (error : SyntaxError)
    (h : ∀ token image, mirror.like token image → value? image.text = value? token.text) :
    mirror.Reads Eq (Reader.decode value? error) (Reader.decode value? error) := by
  refine peek (Reader.decode_peeks value? error) fun token image hlike => ?_
  rw [h token image hlike]
  cases value? token.text with
  | none => exact .none
  | some a => exact .some rfl

theorem decoded {token image : Token} (hlike : mirror.like token image)
    (result : Except InvalidCardinality α) :
    mirror.Reads Eq (Reader.decoded token result) (Reader.decoded image result) := by
  cases result with
  | ok a => exact pure rfl
  | error error => exact fail rfl (.some hlike)

theorem report (action : Action) {token image : Option Token}
    (htoken : Option.Rel mirror.like token image) :
    mirror.Reads (fun _ _ => True) (Reader.report meaning action token)
      (Reader.report meaning (action.rename mirror.names) image) := by
  intro before before' hbefore
  unfold Reader.report
  rw [hbefore.state, mirror.act]
  cases meaning.act action before.state with
  | ok state => exact .ok trivial ⟨hbefore.unread, hbefore.depth, rfl⟩
  | error error => exact .error ⟨rfl, htoken⟩ hbefore

/-! ### Literals and words -/

theorem cardinality : mirror.Reads Eq Reader.cardinality Reader.cardinality := by
  apply (expect _ _).bind
  rintro first first' ⟨hlike, hkind⟩
  rw [(mirror.renamed hlike).literal (Or.inl hkind)]
  split
  · exact decoded hlike _
  · apply (decoded hlike _).bind
    rintro min _ rfl
    apply (expect _ _).bind
    rintro second second' ⟨hsecond, hkind'⟩
    rw [(mirror.renamed hsecond).literal (Or.inl hkind')]
    apply (decoded hsecond _).bind
    rintro max _ rfl
    exact pure rfl

theorem hierarchyType : mirror.Reads Eq Reader.hierarchyType Reader.hierarchyType := by
  apply (accept _).bind
  intro _ _ _
  apply (accept _).bind
  rintro subset _ rfl
  split
  · exact pure rfl
  · -- A word of a classification is decoded from its text, but the text tells its kind.
    apply (decode _ fun token image hlike => ?_).bind
    · rintro total _ rfl
      apply (decode _ fun token image hlike => ?_).bind
      · rintro exclusive _ rfl
        exact pure rfl
      · obtain ⟨htoken, himage⟩ := mirror.spelled hlike
        ext exclusive
        rw [disjointness?_iff himage, disjointness?_iff htoken, (mirror.renamed hlike).kind_eq]
    · obtain ⟨htoken, himage⟩ := mirror.spelled hlike
      ext total
      rw [coverage?_iff himage, coverage?_iff htoken, (mirror.renamed hlike).kind_eq]

theorem details (kind : Node.Kind) :
    mirror.Reads (fun _ _ => True) (Reader.details meaning kind) (Reader.details meaning kind) := by
  unfold Reader.details
  split
  · apply hierarchyType.bind
    rintro type _ rfl
    exact report (.classify type) .none
  · apply (accept _).bind
    rintro announced _ rfl
    split
    · apply cardinality.bind
      rintro cardinality _ rfl
      exact report (.bound cardinality) .none
    · exact pure trivial
  · exact pure trivial

/-! ### Loops -/

/-- As many tokens are left on either side. -/
theorem unread :
    mirror.Reads (fun tokens images => images.length = tokens.length)
      (Reader.ask Reading.unread) (Reader.ask Reading.unread) :=
  ask fun _ _ hshows => hshows.unread.length_eq.symm

theorem itemsWithin {item : Reader σ ε Unit} (h : mirror.Reads (fun _ _ => True) item item)
    {bound bound' : List Token} (hbound : bound'.length = bound.length) :
    mirror.Reads (fun _ _ => True) (Reader.itemsWithin item bound)
      (Reader.itemsWithin item bound') := by
  induction bound generalizing bound' with
  | nil =>
      rw [List.eq_nil_of_length_eq_zero hbound]
      exact pure trivial
  | cons token bound ih =>
      obtain ⟨token', rest, rfl⟩ := List.exists_cons_of_length_eq_add_one hbound
      rw [Reader.itemsWithin, Reader.itemsWithin]
      apply (ask fun _ _ hshows => hshows.atBodyEnd.symm).bind
      rintro atEnd _ rfl
      split
      · exact pure trivial
      · exact h.bind fun _ _ _ => ih (Nat.succ.inj hbound)

theorem items {item : Reader σ ε Unit} (h : mirror.Reads (fun _ _ => True) item item) :
    mirror.Reads (fun _ _ => True) (Reader.items item) (Reader.items item) :=
  unread.bind fun _ _ hlength => itemsWithin h hlength

theorem keyNames (names : List String) {bound bound' : List Token}
    (hbound : bound'.length = bound.length) :
    mirror.Reads (fun names images => images = names.map mirror.names)
      (Reader.keyNames meaning names bound)
      (Reader.keyNames meaning (names.map mirror.names) bound') := by
  induction bound generalizing names bound' with
  | nil =>
      rw [List.eq_nil_of_length_eq_zero hbound]
      exact pure List.map_reverse.symm
  | cons token bound ih =>
      obtain ⟨token', rest, rfl⟩ := List.exists_cons_of_length_eq_add_one hbound
      rw [Reader.keyNames, Reader.keyNames]
      apply (ask fun _ _ hshows => hshows.atBodyEnd.symm).bind
      rintro atEnd _ rfl
      split
      · exact pure List.map_reverse.symm
      · apply (expect _ _).bind
        rintro name name' ⟨hlike, hkind⟩
        have htext := (mirror.renamed hlike).name hkind
        rw [htext]
        exact (report (.ownsAttribute name.text) (.some hlike)).bind fun _ _ _ =>
          ih (name.text :: names) (Nat.succ.inj hbound)

/-! ### Fields -/

/-- Reads a name of a kind whose names are chosen by the source text. -/
theorem knownName {kind : Node.Kind} (hnamed : kind.isNamed) :
    mirror.Reads (fun token image => mirror.like token image ∧ image.text = mirror.names token.text)
      (Reader.knownName meaning kind) (Reader.knownName meaning kind) := by
  apply (expect _ _).bind
  rintro name name' ⟨hlike, hkind⟩
  have htext := (mirror.renamed hlike).name hkind
  have hreport : mirror.Reads _ _ _ := report (.knows kind name.text) (.some hlike)
  rw [Action.rename, Node.Kind.rename_of_isNamed hnamed, ← htext] at hreport
  exact hreport.bind fun _ _ _ => pure ⟨hlike, htext⟩

theorem construct {inside : Reader σ ε Unit} (h : mirror.Reads (fun _ _ => True) inside inside)
    {kind : Node.Kind} (hnamed : kind.isNamed) :
    mirror.Reads (fun _ _ => True) (Reader.construct meaning inside kind)
      (Reader.construct meaning inside kind) := by
  apply (expect _ _).bind
  rintro name name' ⟨hlike, hkind⟩
  have hreport : mirror.Reads _ _ _ := report (.declare kind name.text) (.some hlike)
  rw [Action.rename, Node.Kind.rename_of_isNamed hnamed,
    ← (mirror.renamed hlike).name hkind] at hreport
  apply hreport.bind
  intro _ _ _
  apply (details kind).bind
  intro _ _ _
  apply (items h).bind
  intro _ _ _
  exact (ask fun _ _ hshows => hshows.next?).bind fun _ _ hnext => report .close hnext

theorem primaryKey {keyword keyword' : Token} (hlike : mirror.like keyword keyword') :
    mirror.Reads (fun _ _ => True) (Reader.primaryKey meaning keyword)
      (Reader.primaryKey meaning keyword') := by
  apply (report .lacksKey (.some hlike)).bind
  intro _ _ _
  apply unread.bind
  intro _ _ hlength
  apply (keyNames [] hlength).bind
  rintro names _ rfl
  exact report (.primaryKey names) (.some hlike)

theorem branch {keyword keyword' : Token} (hlike : mirror.like keyword keyword') :
    mirror.Reads (fun _ _ => True) (Reader.branch meaning keyword)
      (Reader.branch meaning keyword') := by
  apply (knownName rfl).bind
  rintro entity entity' ⟨-, htext⟩
  rw [htext]
  apply (expect _ _).bind
  intro _ _ _
  apply cardinality.bind
  rintro cardinality _ rfl
  exact report (.branch entity.text cardinality) (.some hlike)

theorem attributeOf :
    mirror.Reads (fun _ _ => True) (Reader.attributeOf meaning) (Reader.attributeOf meaning) := by
  apply (expect _ _).bind
  rintro name name' ⟨hlike, hkind⟩
  apply (knownName rfl).bind
  rintro entity entity' ⟨-, htext⟩
  rw [(mirror.renamed hlike).name hkind, htext]
  exact report (.attributeOf name.text entity.text) (.some hlike)

theorem mention {kind : Node.Kind} (hnamed : kind.isNamed) :
    mirror.Reads (fun _ _ => True) (Reader.mention meaning kind) (Reader.mention meaning kind) := by
  apply (knownName hnamed).bind
  rintro name name' ⟨hlike, htext⟩
  have hreport : mirror.Reads _ _ _ := report (.mention kind name.text) (.some hlike)
  rwa [Action.rename, Node.Kind.rename_of_isNamed hnamed, ← htext] at hreport

theorem fieldBody {inside : Node.Kind → Reader σ ε Unit}
    (h : ∀ kind, mirror.Reads (fun _ _ => True) (inside kind) (inside kind))
    {keyword keyword' : Token} (hlike : mirror.like keyword keyword') {field : Field}
    (hnamed : field.isNamed) :
    mirror.Reads (fun _ _ => True) (Reader.fieldBody meaning inside keyword field)
      (Reader.fieldBody meaning inside keyword' field) := by
  cases field with
  | construct kind => exact construct (h kind) hnamed
  | primaryKey => exact primaryKey hlike
  | branch => exact branch hlike
  | attributeOf => exact attributeOf
  | mention kind => exact mention hnamed

theorem fieldKeyword (owner : Node.Kind) :
    mirror.Reads (fun found image => mirror.like found.1 image.1 ∧ image.2 = found.2 ∧
        found.2.isNamed)
      (Reader.fieldKeyword owner) (Reader.fieldKeyword owner) := by
  refine peek (Reader.fieldKeyword_peeks owner) fun token image hlike => ?_
  rw [(mirror.renamed hlike).kind_eq]
  cases hfound : Field.find? owner token.kind with
  | none => exact .none
  | some field => exact .some ⟨hlike, rfl, Field.isNamed_of_find? hfound⟩

theorem field (budget : Nat) (owner : Node.Kind) :
    mirror.Reads (fun _ _ => True) (Reader.field meaning budget owner)
      (Reader.field meaning budget owner) := by
  induction budget generalizing owner with
  | zero => exact fail rfl .none
  | succ budget ih =>
      rw [Reader.field_succ]
      apply (expect _ _).bind
      rintro paren paren' ⟨hlike, -⟩
      apply (ask fun _ _ hshows => hshows.depth.symm).bind
      rintro depth _ rfl
      split
      · exact fail rfl (.some hlike)
      · have hinside : mirror.Reads (fun _ _ => True) (Reader.fieldInside meaning budget owner)
            (Reader.fieldInside meaning budget owner) := by
          apply (fieldKeyword owner).bind
          rintro ⟨keyword, field⟩ ⟨keyword', _⟩ ⟨hkeyword, rfl, hnamed⟩
          exact fieldBody ih hkeyword hnamed
        exact hinside.bind fun _ _ _ => (expect _ _).bind fun _ _ _ => pure trivial

end Reads

/-! ### Declarations -/

/-- Two stops with the same cause at corresponding tokens, before corresponding tokens. -/
structure Stops (stop image : Stop ε) : Prop where
  fault : mirror.Blames stop.fault image.fault
  next : Option.Rel mirror.like stop.next image.next

theorem declaration (budget : Nat) {before before' : Reading σ} (h : mirror.Shows before before') :
    Option.Rel mirror.Stops (before.declaration meaning budget).1
        (before'.declaration meaning budget).1 ∧
      mirror.Shows (before.declaration meaning budget).2 (before'.declaration meaning budget).2 := by
  have hfield := Reads.field budget .start before before' h
  unfold Reading.declaration
  generalize Reader.field meaning budget .start before = result,
    Reader.field meaning budget .start before' = result' at hfield ⊢
  cases hfield with
  | ok _ hafter => exact ⟨.none, hafter⟩
  | @error fault fault' after after' hfault hafter =>
      refine ⟨.some ⟨hfault, hafter.next?⟩, ?_, rfl, ?_⟩
      · change List.Forall₂ mirror.like (Reading.afterGroup after.depth after.unread)
          (Reading.afterGroup after'.depth after'.unread)
        rw [hafter.depth]
        exact afterGroup after.depth hafter.unread
      · change meaning.undo before'.state after'.state = mirror.move (meaning.undo _ _)
        rw [h.state, hafter.state, mirror.undo]

theorem declarationsWithin (budget : Nat) {stops stops' : List (Stop ε)}
    (hstops : List.Forall₂ mirror.Stops stops stops') {bound bound' : List Token}
    (hbound : bound'.length = bound.length) {before before' : Reading σ}
    (h : mirror.Shows before before') :
    List.Forall₂ mirror.Stops (before.declarationsWithin meaning budget stops bound).1
        (before'.declarationsWithin meaning budget stops' bound').1 ∧
      mirror.Shows (before.declarationsWithin meaning budget stops bound).2
        (before'.declarationsWithin meaning budget stops' bound').2 := by
  induction bound generalizing stops stops' bound' before before' with
  | nil =>
      rw [List.eq_nil_of_length_eq_zero hbound]
      exact ⟨List.rel_reverse hstops, h⟩
  | cons token bound ih =>
      obtain ⟨token', rest, rfl⟩ := List.exists_cons_of_length_eq_add_one hbound
      obtain ⟨hstop, hafter⟩ := declaration budget h
      rw [Reading.declarationsWithin, Reading.declarationsWithin, h.isEmpty]
      split
      · exact ⟨List.rel_reverse hstops, h⟩
      · generalize before.declaration meaning budget = result,
          before'.declaration meaning budget = result' at hstop hafter ⊢
        obtain ⟨stop, after⟩ := result
        obtain ⟨stop', after'⟩ := result'
        cases hstop with
        | none => exact ih hstops (Nat.succ.inj hbound) hafter
        | some hstop => exact ih (.cons hstop hstops) (Nat.succ.inj hbound) hafter

/-- Declarations stop in the same places for the same causes, and lead to corresponding states. -/
theorem declarations (budget : Nat) {before before' : Reading σ} (h : mirror.Shows before before') :
    List.Forall₂ mirror.Stops (before.declarations meaning budget).1
        (before'.declarations meaning budget).1 ∧
      mirror.Shows (before.declarations meaning budget).2 (before'.declarations meaning budget).2 :=
  declarationsWithin budget .nil h.unread.length_eq.symm h

end Mirror
end ErDiagram
