import ErDiagram.Proofs.Declarations
import ErDiagram.Proofs.Refusals

/-!
What stops a declaration. However the tokens come, a reader that runs through leaves as many
constructs and parentheses open as it should, so constructs are closed only where one is open, and
the budget for nested fields is never used up: parentheses nested too deeply are refused before.
Where a reader stops, the source text is to blame, at the token that comes next or at one before it,
or at the end of input if nothing is left.
-/

namespace ErDiagram

/-- The fault is one of the source text, not of the compiler. -/
def Fault.Reportable (fault : Fault Refusal) : Prop :=
  match fault.cause with
  | .malformed _ => True
  | .refused refusal => refusal.Reportable
  | .exhausted => False

/-- Where a reading stands: so many parentheses and so many constructs are open, and some tokens
have been read already. Those left are in the order of the source text. -/
structure Reading.Stands (depth : Int) (constructs : Nat) (behind : List Token)
    (reading : Reading Builder) : Prop where
  depth_eq : reading.depth = depth
  constructs_eq : reading.state.inner.length = constructs
  spelled : ∀ token ∈ reading.unread, token.Spelled
  ordered : reading.unread.Pairwise (·.offset < ·.offset)
  behind_le : ∀ token ∈ behind, ∀ next ∈ reading.unread, token.offset ≤ next.offset

/-- A fault that stops a reading is reported at the token that comes next or at one before it, or
at the end of input if nothing is left. -/
structure Fault.Placed (fault : Fault Refusal) (after : Reading Builder) : Prop where
  reportable : fault.Reportable
  unread_eq_nil : fault.token = none → after.unread = []
  behind_le : ∀ token ∈ fault.token, ∀ next ∈ after.unread, token.offset ≤ next.offset

/-- A reader leads from where it should be started to where it should end, and stops only with
faults that are reported. -/
structure Sound {α : Type} (pre : Reading Builder → Prop) (reader : Reader Builder Refusal α)
    (post : α → Reading Builder → Prop) : Prop where
  ok : ∀ {before after : Reading Builder} {a : α}, pre before → reader before = .ok a after →
    post a after
  error : ∀ {before after : Reading Builder} {fault : Fault Refusal}, pre before →
    reader before = .error fault after → fault.Placed after

/-! ### Readers, from the primitive ones up -/

namespace Reading.Stands

variable {depth : Int} {constructs : Nat} {behind : List Token} {reading : Reading Builder}

theorem mono (h : reading.Stands depth constructs behind) {behind' : List Token}
    (hsub : behind' ⊆ behind) : reading.Stands depth constructs behind' :=
  ⟨h.depth_eq, h.constructs_eq, h.spelled, h.ordered, fun token htoken =>
    h.behind_le token (hsub htoken)⟩

/-- Behind the next token. -/
theorem advance (h : reading.Stands depth constructs behind) {token : Token}
    (hnext : token ∈ reading.next?) :
    reading.advance.Stands (depth + token.nesting) constructs (token :: behind) := by
  obtain ⟨unread, _, state⟩ := reading
  obtain ⟨rfl, hconstructs, hspelled, hordered, hbehind⟩ := h
  cases unread with
  | nil => cases hnext
  | cons first rest =>
      obtain rfl : first = token := Option.some.inj hnext
      obtain ⟨hfirst, hrest⟩ := List.pairwise_cons.1 hordered
      refine ⟨rfl, hconstructs, fun token htoken => hspelled token (List.mem_cons_of_mem _ htoken),
        hrest, fun token htoken next hmem => ?_⟩
      rcases List.mem_cons.1 htoken with rfl | htoken
      · exact Nat.le_of_lt (hfirst next hmem)
      · exact hbehind token htoken next (List.mem_cons_of_mem _ hmem)

/-- A fault at the token that comes next, or at the end of input. -/
theorem placed_next (h : reading.Stands depth constructs behind) {cause : Fault.Cause Refusal}
    (hcause : (Fault.mk cause reading.next?).Reportable) :
    (Fault.mk cause reading.next?).Placed reading := by
  obtain ⟨unread, _, state⟩ := reading
  refine ⟨hcause, fun hnone => List.head?_eq_none_iff.1 hnone, fun token htoken next hnext => ?_⟩
  cases unread with
  | nil => cases htoken
  | cons first rest =>
      obtain rfl : first = token := Option.some.inj htoken
      rcases List.mem_cons.1 hnext with rfl | hnext
      · exact Nat.le_refl _
      · exact Nat.le_of_lt ((List.pairwise_cons.1 h.ordered).1 next hnext)

/-- A fault at a token that has been read already. -/
theorem placed_behind (h : reading.Stands depth constructs behind) {cause : Fault.Cause Refusal}
    {token : Token} (htoken : token ∈ behind) (hcause : (Fault.mk cause (some token)).Reportable) :
    (Fault.mk cause (some token)).Placed reading where
  reportable := hcause
  unread_eq_nil hnone := by cases hnone
  behind_le := by
    intro blamed hblamed
    obtain rfl : token = blamed := Option.some.inj hblamed
    exact h.behind_le token htoken

end Reading.Stands

namespace Sound

variable {α β : Type} {pre : Reading Builder → Prop} {depth : Int} {constructs : Nat}
  {behind : List Token}

theorem bind {reader : Reader Builder Refusal α} {next : α → Reader Builder Refusal β}
    {middle : α → Reading Builder → Prop} {post : β → Reading Builder → Prop}
    (h : Sound pre reader middle) (hnext : ∀ a, Sound (middle a) (next a) post) :
    Sound pre (reader >>= next) post where
  ok := by
    intro before after b hpre hok
    obtain ⟨a, reading, hfirst, hsecond⟩ := Reader.bind_ok.1 hok
    exact (hnext a).ok (h.ok hpre hfirst) hsecond
  error := by
    intro before after fault hpre herror
    rcases Reader.bind_error.1 herror with hfirst | ⟨a, reading, hfirst, hsecond⟩
    · exact h.error hpre hfirst
    · exact (hnext a).error (h.ok hpre hfirst) hsecond

/-- What is known before a reader is started may be used to choose how it goes on. -/
theorem assume {p : Prop} {reader : Reader Builder Refusal α} {post : α → Reading Builder → Prop}
    (h : p → Sound pre reader post) : Sound (fun reading => p ∧ pre reading) reader post :=
  ⟨fun hpre hok => (h hpre.1).ok hpre.2 hok, fun hpre herror => (h hpre.1).error hpre.2 herror⟩

theorem weaken {reader : Reader Builder Refusal α} {post post' : α → Reading Builder → Prop}
    (h : Sound pre reader post) (hpost : ∀ a reading, post a reading → post' a reading) :
    Sound pre reader post' :=
  ⟨fun hpre hok => hpost _ _ (h.ok hpre hok), h.error⟩

theorem pure {post : α → Reading Builder → Prop} {a : α} (h : ∀ reading, pre reading → post a reading) :
    Sound pre (pure a : Reader Builder Refusal α) post where
  ok := by
    intro before after b hpre hok
    cases hok
    exact h before hpre
  error := by
    intro before after fault hpre herror
    cases herror

theorem fail {post : α → Reading Builder → Prop} {cause : Fault.Cause Refusal} {token : Token}
    (htoken : token ∈ behind) (hcause : (Fault.mk cause (some token)).Reportable) :
    Sound (Reading.Stands depth constructs behind)
      (Reader.fail cause (some token) : Reader Builder Refusal α) post where
  ok := by
    intro before after a hpre hok
    cases hok
  error := by
    intro before after fault hpre herror
    cases herror
    exact hpre.placed_behind htoken hcause

theorem ask_of {question : Reading Builder → α} {post : α → Reading Builder → Prop}
    (h : ∀ reading, pre reading → post (question reading) reading) :
    Sound pre (Reader.ask question) post where
  ok := by
    intro before after a hpre hok
    cases hok
    exact h before hpre
  error := by
    intro before after fault hpre herror
    cases herror

theorem ask (question : Reading Builder → α) : Sound pre (Reader.ask question) fun _ => pre :=
  ask_of fun _ => id

theorem peek {reader : Reader Builder Refusal α} {take : Token → Option α} {error : SyntaxError}
    {post : α → Reading Builder → Prop} (hread : reader.Peeks take error)
    (htake : ∀ token a, token.Spelled → take token = some a → ∀ reading,
      reading.Stands (depth + token.nesting) constructs (token :: behind) → post a reading) :
    Sound (Reading.Stands depth constructs behind) reader post where
  ok := by
    intro before after a hpre hok
    rw [hread] at hok
    split at hok
    · rename_i b htaken
      cases hok
      obtain ⟨token, hnext, htaken⟩ := Option.bind_eq_some_iff.1 htaken
      have hspelled := hpre.spelled token (Reading.mem_of_next? hnext)
      exact htake token a hspelled htaken _ (hpre.advance hnext)
    · cases hok
  error := by
    intro before after fault hpre herror
    rw [hread] at herror
    split at herror
    · cases herror
    · cases herror
      exact hpre.placed_next trivial

theorem expect {kind : Token.Kind} {error : SyntaxError} (deeper : Int)
    (hdeeper : ∀ token : Token, token.kind = kind → token.nesting = deeper) :
    Sound (Reading.Stands depth constructs behind) (Reader.expect kind error)
      fun token => Reading.Stands (depth + deeper) constructs (token :: behind) := by
  apply peek (Reader.expect_peeks kind error)
  intro token a _ htake reading hreading
  split at htake
  · rename_i hkind
    cases htake
    rwa [hdeeper token hkind] at hreading
  · cases htake

theorem expect_flat {kind : Token.Kind} {error : SyntaxError}
    (hkind : kind ≠ .leftParen ∧ kind ≠ .rightParen) :
    Sound (Reading.Stands depth constructs behind) (Reader.expect kind error)
      fun token => Reading.Stands depth constructs (token :: behind) := by
  have h := @expect depth constructs behind kind error 0 fun token heq =>
    nesting_of_ne (heq ▸ hkind.1) (heq ▸ hkind.2)
  rwa [Int.add_zero] at h

theorem decode {value? : String → Option α} {error : SyntaxError}
    (hvalue : ∀ token : Token, token.Spelled → ∀ a, value? token.text = some a → token.nesting = 0) :
    Sound (Reading.Stands depth constructs behind) (Reader.decode value? error)
      fun _ => Reading.Stands depth constructs behind := by
  apply peek (Reader.decode_peeks value? error)
  intro token a hspelled htake reading hreading
  rw [hvalue token hspelled a htake, Int.add_zero] at hreading
  exact hreading.mono (List.subset_cons_self _ _)

theorem fieldKeyword (owner : Node.Kind) :
    Sound (Reading.Stands depth constructs behind) (Reader.fieldKeyword owner)
      fun found => Reading.Stands depth constructs (found.1 :: behind) := by
  apply peek (Reader.fieldKeyword_peeks owner)
  intro token a _ htake reading hreading
  obtain ⟨field, hfield, rfl⟩ := Option.map_eq_some_iff.1 htake
  obtain ⟨word, hkind, -⟩ := Field.find?_eq_some.1 hfield
  rwa [nesting_reserved hkind, Int.add_zero] at hreading

theorem accept {kind : Token.Kind} (hkind : kind ≠ .leftParen ∧ kind ≠ .rightParen) :
    Sound (Reading.Stands depth constructs behind) (Reader.accept kind)
      fun _ => Reading.Stands depth constructs behind where
  ok := by
    intro before after found hpre hok
    unfold Reader.accept at hok
    split at hok
    · rename_i hnext
      cases hok
      obtain ⟨token, hfirst, heq⟩ := (Option.any_eq_true _ _).1 hnext
      have hkind' : token.kind = kind := of_decide_eq_true heq
      have hreading := hpre.advance hfirst
      rw [nesting_of_ne (hkind' ▸ hkind.1) (hkind' ▸ hkind.2), Int.add_zero] at hreading
      exact hreading.mono (List.subset_cons_self _ _)
    · cases hok
      exact hpre
  error := by
    intro before after fault hpre herror
    unfold Reader.accept at herror
    split at herror <;> cases herror

theorem decoded {token : Token} (htoken : token ∈ behind) (result : Except InvalidCardinality α) :
    Sound (Reading.Stands depth constructs behind) (Reader.decoded token result)
      fun _ => Reading.Stands depth constructs behind := by
  cases result with
  | ok value => exact pure fun _ => id
  | error error => exact fail htoken trivial

/-- A report about a token that has been read already. -/
theorem report {action : Action} {token : Token} {constructs' : Nat} (htoken : token ∈ behind)
    (hclose : action ≠ .close)
    (hact : ∀ {builder after : Builder}, Builder.meaning.act action builder = .ok after →
      builder.inner.length = constructs → after.inner.length = constructs') :
    Sound (Reading.Stands depth constructs behind) (Reader.report Builder.meaning action (some token))
      fun _ => Reading.Stands depth constructs' behind where
  ok := by
    intro before after u hpre hok
    unfold Reader.report at hok
    split at hok
    · rename_i state hstate
      cases hok
      exact ⟨hpre.depth_eq, hact hstate hpre.constructs_eq, hpre.spelled, hpre.ordered,
        hpre.behind_le⟩
    · cases hok
  error := by
    intro before after fault hpre herror
    unfold Reader.report at herror
    split at herror
    · cases herror
    · rename_i refusal hrefusal
      cases herror
      have hreportable : refusal.Reportable := Builder.reportable_of_act hclose hrefusal
      exact hpre.placed_behind htoken hreportable

/-- A report that is never refused. -/
theorem report_accepted {action : Action} {token : Option Token} {constructs' : Nat}
    (hact : ∀ builder : Builder, builder.inner.length = constructs →
      ∃ after, Builder.meaning.act action builder = .ok after ∧ after.inner.length = constructs') :
    Sound (Reading.Stands depth constructs behind) (Reader.report Builder.meaning action token)
      fun _ => Reading.Stands depth constructs' behind where
  ok := by
    intro before after u hpre hok
    obtain ⟨state, hstate, hlength⟩ := hact before.state hpre.constructs_eq
    unfold Reader.report at hok
    rw [hstate] at hok
    cases hok
    exact ⟨hpre.depth_eq, hlength, hpre.spelled, hpre.ordered, hpre.behind_le⟩
  error := by
    intro before after fault hpre herror
    obtain ⟨state, hstate, -⟩ := hact before.state hpre.constructs_eq
    unfold Reader.report at herror
    rw [hstate] at herror
    cases herror

/-- A report that neither begins nor ends a construct. -/
theorem report_flat {action : Action} {token : Token} (htoken : token ∈ behind)
    (hkeeps : action.KeepsOpen) :
    Sound (Reading.Stands depth constructs behind) (Reader.report Builder.meaning action (some token))
      fun _ => Reading.Stands depth constructs behind :=
  report htoken hkeeps.ne_close fun h hlength =>
    (Builder.length_inner_act hkeeps h).trans hlength

theorem forget {reader : Reader Builder Refusal α} {token : Token} {constructs' : Nat}
    (h : Sound pre reader fun _ => Reading.Stands depth constructs' (token :: behind)) :
    Sound pre reader fun _ => Reading.Stands depth constructs' behind :=
  h.weaken fun _ _ hstands => hstands.mono (List.subset_cons_self _ _)

/-! ### The readers of constructs -/

theorem cardinality :
    Sound (Reading.Stands depth constructs behind) Reader.cardinality
      fun _ => Reading.Stands depth constructs behind := by
  apply (expect_flat (by decide)).bind
  intro first
  apply forget
  split
  · exact decoded List.mem_cons_self _
  · apply (decoded List.mem_cons_self _).bind
    intro min
    apply (expect_flat (by decide)).bind
    intro second
    apply forget
    apply (decoded List.mem_cons_self _).bind
    intro max
    exact pure fun _ => id

theorem hierarchyType :
    Sound (Reading.Stands depth constructs behind) Reader.hierarchyType
      fun _ => Reading.Stands depth constructs behind := by
  apply (accept (by decide)).bind
  intro _
  apply (accept (by decide)).bind
  intro subset
  split
  · exact pure fun _ => id
  · apply Sound.bind
    · apply decode
      intro token htoken total htotal
      exact nesting_reserved ((coverage?_iff htoken).1 htotal)
    intro total
    apply Sound.bind
    · apply decode
      intro token htoken exclusive hexclusive
      exact nesting_reserved ((disjointness?_iff htoken).1 hexclusive)
    intro exclusive
    exact pure fun _ => id

theorem details (kind : Node.Kind) :
    Sound (Reading.Stands depth constructs behind) (Reader.details Builder.meaning kind)
      fun _ => Reading.Stands depth constructs behind := by
  unfold Reader.details
  split
  · apply hierarchyType.bind
    intro type
    exact report_accepted fun builder hlength =>
      ⟨_, Builder.act_classify, (Builder.length_inner_modifyTop builder _).trans hlength⟩
  · apply (accept (by decide)).bind
    intro announced
    split
    · apply cardinality.bind
      intro cardinality
      exact report_accepted fun builder hlength =>
        ⟨_, Builder.act_bound, (Builder.length_inner_modifyTop builder _).trans hlength⟩
    · exact pure fun _ => id
  · exact pure fun _ => id

theorem items {item : Reader Builder Refusal Unit}
    (hitem : Sound (Reading.Stands depth constructs behind) item
      fun _ => Reading.Stands depth constructs behind) :
    Sound (Reading.Stands depth constructs behind) (Reader.items item)
      fun _ => Reading.Stands depth constructs behind := by
  have hwithin : ∀ bound, Sound (Reading.Stands depth constructs behind)
      (Reader.itemsWithin item bound) fun _ => Reading.Stands depth constructs behind := by
    intro bound
    induction bound with
    | nil => exact pure fun _ => id
    | cons token bound ih =>
        rw [Reader.itemsWithin]
        apply (ask _).bind
        intro atEnd
        split
        · exact pure fun _ => id
        · exact hitem.bind fun _ => ih
  exact (ask _).bind hwithin

/-- A construct that begins ends as well, so no end is refused. -/
theorem construct {inside : Reader Builder Refusal Unit}
    (hinside : ∀ behind, Sound (Reading.Stands depth (constructs + 1) behind) inside
      fun _ => Reading.Stands depth (constructs + 1) behind) (kind : Node.Kind) :
    Sound (Reading.Stands depth constructs behind) (Reader.construct Builder.meaning inside kind)
      fun _ => Reading.Stands depth constructs behind := by
  apply (expect_flat (by decide)).bind
  intro name
  apply forget
  have hdeclare : ∀ {builder after : Builder},
      Builder.meaning.act (.declare kind name.text) builder = .ok after →
        builder.inner.length = constructs → after.inner.length = constructs + 1 :=
    fun h hlength => by rw [Builder.length_inner_declare h, hlength]
  apply (report List.mem_cons_self (fun h => by cases h) hdeclare).bind
  intro _
  apply (details kind).bind
  intro _
  apply (items (hinside _)).bind
  intro _
  apply (ask _).bind
  intro next
  apply report_accepted
  intro builder hlength
  obtain ⟨frame, outer, hinner⟩ := List.exists_cons_of_length_eq_add_one hlength
  refine ⟨_, Builder.act_close hinner, ?_⟩
  rw [hinner] at hlength
  exact Nat.succ.inj hlength

theorem keyNames (names : List String) (bound : List Token) :
    Sound (Reading.Stands depth constructs behind) (Reader.keyNames Builder.meaning names bound)
      fun _ => Reading.Stands depth constructs behind := by
  induction bound generalizing names behind with
  | nil => exact pure fun _ => id
  | cons token bound ih =>
      rw [Reader.keyNames]
      apply (ask _).bind
      intro atEnd
      split
      · exact pure fun _ => id
      · apply (expect_flat (by decide)).bind
        intro name
        apply forget
        exact (report_flat List.mem_cons_self (by trivial)).bind fun _ => ih _

theorem primaryKey {keyword : Token} (hkeyword : keyword ∈ behind) :
    Sound (Reading.Stands depth constructs behind) (Reader.primaryKey Builder.meaning keyword)
      fun _ => Reading.Stands depth constructs behind := by
  apply (report_flat hkeyword (by trivial)).bind
  intro _
  apply (ask _).bind
  intro unread
  apply (keyNames [] unread).bind
  intro names
  exact report_flat hkeyword (by trivial)

theorem knownName (kind : Node.Kind) :
    Sound (Reading.Stands depth constructs behind) (Reader.knownName Builder.meaning kind)
      fun name => Reading.Stands depth constructs (name :: behind) := by
  apply (expect_flat (by decide)).bind
  intro name
  exact (report_flat List.mem_cons_self (by trivial)).bind fun _ => pure fun _ => id

theorem branch {keyword : Token} (hkeyword : keyword ∈ behind) :
    Sound (Reading.Stands depth constructs behind) (Reader.branch Builder.meaning keyword)
      fun _ => Reading.Stands depth constructs behind := by
  apply (knownName .entity).bind
  intro entity
  apply forget
  apply (expect_flat (by decide)).bind
  intro card
  apply forget
  apply cardinality.bind
  intro cardinality
  have hbehind := List.mem_cons_of_mem card (List.mem_cons_of_mem entity hkeyword)
  exact report_flat hbehind (by trivial)

theorem attributeOf :
    Sound (Reading.Stands depth constructs behind) (Reader.attributeOf Builder.meaning)
      fun _ => Reading.Stands depth constructs behind := by
  apply (expect_flat (by decide)).bind
  intro name
  apply forget
  apply (knownName .entity).bind
  intro entity
  apply forget
  exact report_flat (List.mem_cons_of_mem entity List.mem_cons_self) (by trivial)

theorem mention (kind : Node.Kind) :
    Sound (Reading.Stands depth constructs behind) (Reader.mention Builder.meaning kind)
      fun _ => Reading.Stands depth constructs behind := by
  apply (knownName kind).bind
  intro name
  apply forget
  exact report_flat List.mem_cons_self (by trivial)

theorem fieldBody {inside : Node.Kind → Reader Builder Refusal Unit}
    (hinside : ∀ kind constructs behind, Sound (Reading.Stands depth constructs behind) (inside kind)
      fun _ => Reading.Stands depth constructs behind)
    {keyword : Token} (hkeyword : keyword ∈ behind) (field : Field) :
    Sound (Reading.Stands depth constructs behind)
      (Reader.fieldBody Builder.meaning inside keyword field)
      fun _ => Reading.Stands depth constructs behind := by
  cases field with
  | construct kind => exact construct (hinside kind _) kind
  | primaryKey => exact primaryKey hkeyword
  | branch => exact branch hkeyword
  | attributeOf => exact attributeOf
  | mention kind => exact mention kind

/-- With a budget for what may nest yet, a field never uses it up. -/
theorem field (budget : Nat) (owner : Node.Kind) (hdepth : depth ≤ maxDepth)
    (hbudget : maxDepth < budget + depth) :
    Sound (Reading.Stands depth constructs behind) (Reader.field Builder.meaning budget owner)
      fun _ => Reading.Stands depth constructs behind := by
  induction budget generalizing depth constructs behind owner with
  | zero => omega
  | succ budget ih =>
      rw [Reader.field_succ]
      apply (expect 1 fun _ => nesting_leftParen).bind
      intro paren
      have hask : Sound (Reading.Stands (depth + 1) constructs (paren :: behind))
          (Reader.ask Reading.depth) fun found reading =>
            found = depth + 1 ∧ reading.Stands (depth + 1) constructs (paren :: behind) :=
        ask_of fun reading h => ⟨h.depth_eq, h⟩
      apply hask.bind
      intro found
      apply assume
      rintro rfl
      split
      · exact fail List.mem_cons_self trivial
      · rename_i hdeeper
        have hinside : Sound (Reading.Stands (depth + 1) constructs (paren :: behind))
            (Reader.fieldInside Builder.meaning budget owner)
            fun _ => Reading.Stands (depth + 1) constructs (paren :: behind) := by
          apply (fieldKeyword owner).bind
          intro found
          apply forget
          refine fieldBody ?_ List.mem_cons_self found.2
          exact fun kind constructs behind => ih kind (by omega) (by omega)
        apply hinside.bind
        intro _
        apply (expect (-1) fun _ => nesting_rightParen).bind
        intro closing
        rw [Int.add_neg_cancel_right]
        exact pure fun _ h => (h.mono (List.subset_cons_self _ _)).mono (List.subset_cons_self _ _)

/-- A declaration is read from the outermost level to the outermost level. -/
theorem declaration :
    Sound (Reading.Stands 0 0 []) (Reader.field Builder.meaning (maxDepth + 1) .start)
      fun _ => Reading.Stands 0 0 [] :=
  field (maxDepth + 1) .start (by decide) (by decide)

end Sound
end ErDiagram
