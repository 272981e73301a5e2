import ErDiagram.Proofs.Recursion
import ErDiagram.Proofs.Resynchronizing

/-!
The parentheses that are open count the fields that are being read. To count those, every reading of a
field is noted as it begins, with the number of those around it; this is watching alone, for nothing is
read differently. However a declaration goes on, by fields inside that end well, by tokens looked at
or taken, up to a fault and from there to the next declaration: where a reading of a field begins, as
many parentheses are open as readings of fields are going on.
-/

namespace ErDiagram

variable {σ ε : Type}

/-! ### Watching -/

/-- The reading of a field as it begins: inside how many others, in what, and where. -/
structure Activation (σ : Type) where
  enclosing : Nat
  owner : Node.Kind
  reading : Reading σ

/-- A state and what was noted on the way to it, which comes last first. -/
structure Watched (σ : Type) where
  state : σ
  seen : List (Activation σ)

/-- Actions on the state alone. What was noted is never undone. -/
def Interpretation.watched (meaning : Interpretation σ ε) : Interpretation (Watched σ) ε where
  act action noted := (meaning.act action noted.state).map fun state => { noted with state }
  undo before failed := { failed with state := meaning.undo before.state failed.state }

theorem Interpretation.watched_act_ok {meaning : Interpretation σ ε} {action : Action}
    {before after : Watched σ} (h : meaning.watched.act action before = .ok after) :
    after.seen = before.seen := by
  change (meaning.act action before.state).map _ = _ at h
  cases hact : meaning.act action before.state with
  | error error =>
      rw [hact] at h
      cases h
  | ok state =>
      rw [hact] at h
      cases h
      rfl

/-- The state without what was noted. -/
def Interpretation.unwatched (meaning : Interpretation σ ε) : View meaning.watched meaning where
  see := Watched.state
  act action noted := by
    change _ = ((meaning.act action noted.state).map _).map _
    cases meaning.act action noted.state <;> rfl
  undo _ _ := rfl

/-- The reading with a note that the reading of a field begins there. -/
def Reading.noted (enclosing : Nat) (owner : Node.Kind) (reading : Reading (Watched σ)) :
    Reading (Watched σ) :=
  { reading with state :=
    { reading.state with
      seen := ⟨enclosing, owner, { reading with state := reading.state.state }⟩ ::
        reading.state.seen } }

namespace Reader

def note (enclosing : Nat) (owner : Node.Kind) : Reader (Watched σ) ε Unit :=
  fun reading => .ok () (reading.noted enclosing owner)

/-- Notes that the reading of a field of a construct begins, and reads it with the fields inside read
by other readers. -/
def watchedFieldWith (meaning : Interpretation σ ε)
    (inside : Nat × Node.Kind → Reader (Watched σ) ε Unit) :
    Nat × Node.Kind → Reader (Watched σ) ε Unit
  | (enclosing, owner) => do
    note enclosing owner
    fieldWith meaning.watched (fun kind => inside (enclosing + 1, kind)) owner

/-- Reads a field of a construct inside so many others, however deep fields are nested in it, and
notes all of them. -/
def watchedField (meaning : Interpretation σ ε) : Nat × Node.Kind → Reader (Watched σ) ε Unit :=
  unlimited (watchedFieldWith meaning)

theorem descends_watchedFieldWith (meaning : Interpretation σ ε) :
    Descends meaning.watched (watchedFieldWith meaning) := by
  rintro count readers others hagree ⟨enclosing, owner⟩
  have hnote : (View.whole meaning.watched).Follows (fun _ => True)
      (Reading.ShorterThan (count + 1)) (note enclosing owner) (note enclosing owner)
      fun _ => Reading.ShorterThan (count + 1) :=
    fun _ hbefore => .ok hbefore
  apply hnote.bind
  intro _
  exact descends_fieldWith meaning.watched count _ _ (fun kind => hagree (enclosing + 1, kind)) owner

theorem watchedField_apply (meaning : Interpretation σ ε) (enclosing : Nat) (owner : Node.Kind)
    (reading : Reading (Watched σ)) :
    watchedField meaning (enclosing, owner) reading =
      fieldWith meaning.watched (fun kind => watchedField meaning (enclosing + 1, kind)) owner
        (reading.noted enclosing owner) :=
  congrFun ((descends_watchedFieldWith meaning).unlimited_eq (enclosing, owner)) reading

end Reader

/-! ### Levels -/

/-- As many parentheses are open as readings of fields are going on, no more of these than may be
open, and no more than there are tokens before what is left. -/
structure Activation.Leveled (total : Nat) (activation : Activation σ) : Prop where
  atDepth : activation.reading.AtDepth activation.enclosing
  allowed : activation.enclosing ≤ maxDepth
  length_le : activation.enclosing + activation.reading.unread.length ≤ total

namespace Reading

/-- Wherever a reading is that was led to through levels. -/
structure Watching (total : Nat) (reading : Reading (Watched σ)) : Prop where
  spelled : ∀ token ∈ reading.unread, token.Spelled
  length_le : reading.unread.length ≤ total
  seen : ∀ activation ∈ reading.state.seen, activation.Leveled total

structure AtLevel (total level : Nat) (reading : Reading (Watched σ)) : Prop where
  atDepth : reading.AtDepth level
  length_le : level + reading.unread.length ≤ total
  seen : ∀ activation ∈ reading.state.seen, activation.Leveled total

namespace AtLevel

variable {total level : Nat} {reading : Reading (Watched σ)}

theorem watching (h : reading.AtLevel total level) : reading.Watching total :=
  ⟨h.atDepth.spelled, Nat.le_of_add_left_le h.length_le, h.seen⟩

theorem advance (h : reading.AtLevel total level) {token : Token} (hnext : token ∈ reading.next?)
    {level' : Nat} (hlevel : (level' : Int) = level + token.nesting) :
    reading.advance.AtLevel total level' := by
  have hatDepth := h.atDepth.advance hnext
  obtain ⟨unread, depth, state⟩ := reading
  obtain ⟨-, hlength, hseen⟩ := h
  cases unread with
  | nil => cases hnext
  | cons first rest =>
      have hnesting := (openedBy_bounds [token]).2
      rw [openedBy_cons, openedBy_nil, List.length_singleton] at hnesting
      refine ⟨hlevel ▸ hatDepth, ?_, hseen⟩
      simp only [List.length_cons] at hlength
      change level' + rest.length ≤ total
      omega

theorem steady (meaning : Interpretation σ ε) (total level : Nat) :
    View.Steady meaning.watched (Watching total) (AtLevel total level) where
  safe hreading := hreading.watching
  advance {_ token} hreading hnext hflat := by
    have hspelled := hreading.atDepth.spelled token (mem_of_next? hnext)
    exact hreading.advance hnext (by rw [hflat hspelled, Int.add_zero])
  act hreading hact := by
    refine ⟨⟨hreading.atDepth.depth_eq, hreading.atDepth.spelled⟩, hreading.length_le, ?_⟩
    rw [Interpretation.watched_act_ok hact]
    exact hreading.seen

/-- Where a field begins there are as many parentheses as is noted. -/
theorem noted (h : reading.AtLevel total level) (hlevel : level ≤ maxDepth) (owner : Node.Kind) :
    (reading.noted level owner).AtLevel total level := by
  refine ⟨⟨h.atDepth.depth_eq, h.atDepth.spelled⟩, h.length_le, ?_⟩
  intro activation hmem
  rcases List.mem_cons.1 hmem with rfl | hmem
  · exact ⟨⟨h.atDepth.depth_eq, h.atDepth.spelled⟩, hlevel, h.length_le⟩
  · exact h.seen activation hmem

end AtLevel

/-- A group that is left leads to the outermost level. -/
theorem Watching.leaveGroup {total : Nat} {reading : Reading (Watched σ)}
    (h : reading.Watching total) (state : σ) :
    ({ reading with state := { reading.state with state } }.leaveGroup).AtLevel total 0 := by
  have hsuffix := afterGroup_suffix reading.depth reading.unread
  refine ⟨⟨rfl, fun token htoken => h.spelled token (hsuffix.subset htoken)⟩, ?_, h.seen⟩
  rw [Nat.zero_add]
  exact hsuffix.length_le.trans h.length_le

end Reading

/-- At each level a field is read as if no one watched and with a budget for all levels that are left,
and leads back to that level. -/
theorem Reader.follows_watchedField (meaning : Interpretation σ ε) {total budget level : Nat}
    (hlevel : level ≤ maxDepth) (hbudget : maxDepth < budget + level) (owner : Node.Kind) :
    meaning.unwatched.Follows (Reading.Watching total) (Reading.AtLevel total level)
      (watchedField meaning (level, owner)) (field meaning budget owner)
      fun _ => Reading.AtLevel total level := by
  induction budget generalizing level owner with
  | zero => omega
  | succ budget ih =>
      intro before hbefore
      rw [watchedField_apply, field_add_one]
      have hsteady := Reading.AtLevel.steady meaning total (level + 1)
      refine View.Follows.fieldWith hsteady
        (fun _ hreading => hreading.watching) ?_ ?_ ?_ owner _ (hbefore.noted hlevel owner)
      · intro reading token hreading hnext hkind
        exact hreading.advance hnext (by rw [nesting_leftParen hkind, Nat.cast_succ])
      · intro reading token hreading hnext hkind
        exact hreading.advance hnext (by rw [nesting_rightParen hkind]; omega)
      · intro reading hreading hdepth kind
        rw [hreading.atDepth.depth_eq] at hdepth
        exact ih (by omega) (by omega) kind

/-! ### Where no field is read -/

namespace Reader

variable (meaning : Interpretation σ ε) (inside : Node.Kind → Reader σ ε Unit) (owner : Node.Kind)
  {reading : Reading σ}

theorem fieldWith_of_no_paren (hnext : ∀ token ∈ reading.next?, token.kind ≠ .leftParen) :
    fieldWith meaning inside owner reading =
      .error ⟨.malformed (.expectedToken .leftParen), reading.next?⟩ reading := by
  refine bind_error.2 (Or.inl ?_)
  have hnone : (reading.next?.bind fun token =>
      if token.kind = .leftParen then some token else none) = none :=
    Option.bind_eq_none_iff.2 fun token htoken => if_neg (hnext token htoken)
  rw [expectKind, expect_peeks, hnone]

theorem fieldWith_of_paren {paren : Token} (hnext : paren ∈ reading.next?)
    (hkind : paren.kind = .leftParen) (hdepth : maxDepth ≤ reading.depth) :
    fieldWith meaning inside owner reading =
      .error ⟨.malformed .nestedTooDeeply, some paren⟩ reading.advance := by
  obtain ⟨unread, depth, state⟩ := reading
  cases unread with
  | nil => cases hnext
  | cons first rest =>
      obtain rfl : first = paren := Option.some.inj hnext
      refine bind_error.2 (Or.inr ⟨first, _, expect_ok_iff.2 ⟨hkind, rfl, rfl⟩, ?_⟩)
      have hnested : (maxDepth : Int) < depth + first.nesting := by
        rw [nesting_leftParen hkind]
        exact Int.lt_add_one_of_le hdepth
      change (if (maxDepth : Int) < depth + first.nesting then _ else _ : Reader σ ε Unit) _ = _
      rw [if_pos hnested]
      rfl

end Reader

/-! ### A source text -/

/-- How the declarations of a source text are read by a reader that notes the fields. -/
def watchedDeclarationsOf (source : String) : List (Stop Refusal) × Reading (Watched Builder) :=
  Reading.declarationsBy Builder.meaning.watched (Reader.watchedField Builder.meaning (0, .start))
    ⟨Compile.significant (Lexer.tokens source), 0, ⟨Builder.empty, []⟩⟩

/-- The readings of fields in a source text, in the order in which they begin. -/
def activationsOf (source : String) : List (Activation Builder) :=
  (watchedDeclarationsOf source).2.state.seen.reverse

theorem watchedDeclarationsOf_spec (source : String) :
    declarationsOf source = ((watchedDeclarationsOf source).1,
        Builder.meaning.unwatched.shown (watchedDeclarationsOf source).2) ∧
      (watchedDeclarationsOf source).2.AtLevel
        (Compile.significant (Lexer.tokens source)).length 0 := by
  have hstart : (Reading.mk (Compile.significant (Lexer.tokens source)) 0
      (Watched.mk Builder.empty [])).AtLevel (Compile.significant (Lexer.tokens source)).length 0 := by
    refine ⟨⟨rfl, (Compile.stands_start source).spelled⟩, (Nat.zero_add _).le, ?_⟩
    intro activation hmem
    cases hmem
  have hfield : Builder.meaning.unwatched.Follows _
      (Reading.AtLevel (Compile.significant (Lexer.tokens source)).length 0) _ _ _ :=
    Reader.follows_watchedField Builder.meaning (Nat.zero_le _) (Nat.lt_succ_self _) .start
  rw [declarationsOf, Reading.declarations_eq]
  exact hfield.declarationsBy (fun _ _ _ hwatching => hwatching.leaveGroup _) hstart

theorem leveled_of_mem_activationsOf {source : String} {activation : Activation Builder}
    (h : activation ∈ activationsOf source) :
    activation.Leveled (Compile.significant (Lexer.tokens source)).length :=
  (watchedDeclarationsOf_spec source).2.seen activation (List.mem_reverse.1 h)

/-- Two declarations, the first of them with an attribute in an attribute. -/
example : (activationsOf "(entity e (attr a (attr b))) (entity f)").map
    (fun activation => (activation.enclosing, activation.reading.depth)) =
      [(0, 0), (1, 1), (2, 2), (0, 0)] := by
  decide +kernel

/-- The depth counts the readings of fields. -/
structure Activation.Counted (activation : Activation Builder) : Prop where
  /-- Where it begins, the depth is the number of those around it. -/
  entered : activation.reading.depth = activation.enclosing
  /-- Behind its parenthesis, the depth is the number of those that are going on. -/
  opened : ∀ paren after, (Reader.expectKind .leftParen : Reader Builder Refusal Token)
    activation.reading = .ok paren after → after.depth = activation.enclosing + 1
  /-- With this one, there are no more than parentheses may be open, and one more. -/
  atMost : activation.enclosing + 1 ≤ maxDepth + 1
  /-- Inside as many as parentheses may be open it only stops: at its parenthesis, or where there is
  none. -/
  deepest : activation.enclosing = maxDepth → ∀ readers : Node.Kind → Reader Builder Refusal Unit,
    (∃ paren ∈ activation.reading.next?, paren.kind = .leftParen ∧
      Reader.fieldWith Builder.meaning readers activation.owner activation.reading =
        .error ⟨.malformed .nestedTooDeeply, some paren⟩ activation.reading.advance) ∨
    (∀ token ∈ activation.reading.next?, token.kind ≠ .leftParen) ∧
      Reader.fieldWith Builder.meaning readers activation.owner activation.reading =
        .error ⟨.malformed (.expectedToken .leftParen), activation.reading.next?⟩ activation.reading

theorem Activation.Leveled.counted {total : Nat} {activation : Activation Builder}
    (h : activation.Leveled total) : activation.Counted where
  entered := h.atDepth.depth_eq
  opened paren after hopen := by
    obtain ⟨hkind, hunread, rfl⟩ := Reader.expect_ok_iff.1 hopen
    have hnext : paren ∈ activation.reading.next? := by
      rw [Reading.next?, hunread]
      rfl
    rw [(h.atDepth.advance hnext).depth_eq, nesting_leftParen hkind]
  atMost := Nat.succ_le_succ h.allowed
  deepest henclosing readers := by
    by_cases hnext : ∀ token ∈ activation.reading.next?, token.kind ≠ .leftParen
    · exact Or.inr ⟨hnext, Reader.fieldWith_of_no_paren _ _ _ hnext⟩
    · push Not at hnext
      obtain ⟨paren, hparen, hkind⟩ := hnext
      have hdepth : (maxDepth : Int) ≤ activation.reading.depth :=
        Int.le_of_eq (henclosing ▸ h.atDepth.depth_eq).symm
      exact Or.inl ⟨paren, hparen, hkind, Reader.fieldWith_of_paren _ _ _ hparen hkind hdepth⟩

/-- While the depth starts from where the reading of a field begins, it fits a word. -/
theorem Activation.Leveled.fitsWord {total : Nat} {activation : Activation Builder}
    (h : activation.Leveled total) (htotal : total < 2 ^ 31) {count : Nat}
    (hcount : count ≤ activation.reading.unread.length) :
    (Reading.advance^[count] activation.reading).FitsWord := by
  have hlength := h.length_le
  have hbounds := openedBy_bounds (activation.reading.unread.take count)
  rw [List.length_take_of_le hcount] at hbounds
  rw [Reading.iterate_advance, h.atDepth.depth_eq]
  constructor <;> simp only <;> omega

end ErDiagram
