import ErDiagram.Proofs.Activations
import ErDiagram.Proofs.Classifying
import ErDiagram.Proofs.Termination

/-!
How deep fields are nested. No more readings of fields go on at once than parentheses may be open, and
one more, which gets no further: its parenthesis is refused, or there is none. So a reader with a budget
for as many is never short of it, and does what a reader without one does.
-/

namespace ErDiagram

variable {σ ε : Type}

/-! ### As deep as it goes -/

theorem Reading.noted_mk (enclosing : Nat) (owner : Node.Kind) (unread : List Token) (depth : Int)
    (state : σ) (seen : List (Activation σ)) :
    (Reading.mk unread depth (Watched.mk state seen)).noted enclosing owner =
      ⟨unread, depth, ⟨state, ⟨enclosing, owner, ⟨unread, depth, state⟩⟩ :: seen⟩⟩ := rfl

namespace Reader

variable {meaning : Interpretation σ ε} {kind : Node.Kind} {name next : Token} {rest : List Token}
  {depth : Int} {state state' : σ} (hname : name.kind = .identifier)
  (hact : meaning.act (.declare kind name.text) state = .ok state')
  (hdetails : details meaning kind ⟨next :: rest, depth, state'⟩ = .ok () ⟨next :: rest, depth, state'⟩)
  (hnext : next.kind ≠ .rightParen) {fault : Fault ε} {after : Reading σ}
include hname hact hdetails hnext

/-- A fault in the first field inside a construct is a fault of the construct. -/
theorem construct_of_inside {inside : Reader σ ε Unit}
    (hinside : inside ⟨next :: rest, depth, state'⟩ = .error fault after) :
    construct meaning inside kind ⟨name :: next :: rest, depth, state⟩ = .error fault after := by
  have hbody : ¬(Reading.mk (next :: rest) depth state').atBodyEnd = true :=
    fun hend => hnext (Reading.atBodyEnd_iff.1 hend next rfl)
  have hitems : items inside ⟨next :: rest, depth, state'⟩ = .error fault after := by
    have hask : (ask Reading.unread : Reader σ ε (List Token)) ⟨next :: rest, depth, state'⟩ =
        .ok (next :: rest) ⟨next :: rest, depth, state'⟩ := rfl
    rw [items, bind_of_ok hask, itemsWithin_of_item hbody]
    exact bind_of_error hinside
  rw [construct, bind_of_ok (expectName_cons hname kind (next :: rest) depth state),
    bind_of_ok (report_of_act hact (some name)), bind_of_ok hdetails]
  exact bind_of_error hitems

theorem fieldWith_of_inside {inside : Node.Kind → Reader σ ε Unit} {owner : Node.Kind}
    {paren keyword : Token} (hparen : paren.kind = .leftParen)
    (hkeyword : Field.find? owner keyword.kind = some (.construct kind)) {outer : Int}
    (hdepth : depth = outer + 1) (houter : outer < maxDepth)
    (hinside : inside kind ⟨next :: rest, depth, state'⟩ = .error fault after) :
    fieldWith meaning inside owner ⟨paren :: keyword :: name :: next :: rest, outer, state⟩ =
      .error fault after := by
  subst hdepth
  rw [fieldWith_of_keyword meaning inside hparen hkeyword houter]
  exact bind_of_error (construct_of_inside hname hact hdetails hnext hinside)

end Reader

theorem Builder.declares_fresh {builder : Builder} {kind : Node.Kind} {name : String}
    (h : builder.top.scope.get? kind name = none) :
    ∃ declared, meaning.act (.declare kind name) builder = .ok declared ∧
      ∀ kind name, declared.top.scope.get? kind name = none :=
  ⟨_, act_declare.2 ⟨h, rfl⟩, fun _ _ => rfl⟩

/-- Attributes inside one another, one a line, and a name where a further one may not begin. -/
def attributeLines : Nat → List Char
  | 0 => "b".toList
  | count + 1 => "(attr a".toList ++ '\n' :: attributeLines count

/-- An entity with so many attributes inside one another. -/
def nestedSource (count : Nat) : String :=
  String.ofList ("(entity e".toList ++ '\n' :: attributeLines count)

theorem toList_nestedSource (count : Nat) :
    (nestedSource count).toList = "(entity e".toList ++ '\n' :: attributeLines count :=
  String.toList_ofList

theorem scan_eq_map_tokens (offset : Nat) (text : String) :
    scan offset text.toList = (Lexer.tokens text).dropLast.map (·.shift offset) := by
  rw [dropLast_tokens, ← scan_shift, Nat.zero_add]

theorem scan_attributeLines_zero (offset : Nat) :
    scan offset (attributeLines 0) = [⟨.identifier, "b", offset⟩] := by
  have h : (Lexer.tokens "b").dropLast = [⟨.identifier, "b", 0⟩] := by decide +kernel
  change scan offset "b".toList = _
  rw [scan_eq_map_tokens, h]
  exact congrArg (fun start => [Token.mk .identifier "b" start]) (Nat.zero_add offset)

theorem scan_attributeLines_succ (offset count : Nat) :
    scan offset (attributeLines (count + 1)) = ⟨.leftParen, "(", 0 + offset⟩ ::
      ⟨.reserved .attribute, "attr", 1 + offset⟩ :: ⟨.identifier, "a", 6 + offset⟩ ::
        scan (offset + 8) (attributeLines count) := by
  have h : (Lexer.tokens "(attr a").dropLast = [⟨.leftParen, "(", 0⟩,
      ⟨.reserved .attribute, "attr", 1⟩, ⟨.identifier, "a", 6⟩] := by decide +kernel
  have hlength : (utf8Bytes "(attr a".toList).length = 7 := by decide +kernel
  change scan offset ("(attr a".toList ++ '\n' :: attributeLines count) = _
  rw [scan_append_newline, scan_eq_map_tokens, h, hlength]
  rfl

/-- The name behind so many attributes, where it stands. -/
def lastName (offset count : Nat) : Token :=
  ⟨.identifier, "b", offset + 8 * count⟩

theorem exists_scan_attributeLines (offset count : Nat) :
    ∃ next rest, scan offset (attributeLines count) = next :: rest ∧ next.kind ≠ .rightParen ∧
      next.kind ≠ .reserved .cardinality := by
  cases count with
  | zero => exact ⟨_, _, scan_attributeLines_zero offset, nofun, nofun⟩
  | succ count => exact ⟨_, _, scan_attributeLines_succ offset count, nofun, nofun⟩

theorem lastName_add_eight (offset count : Nat) :
    lastName (offset + 8) count = lastName offset (count + 1) :=
  congrArg (Token.mk .identifier "b") (by omega)

/-- So a reading of fields may stop: inside as many as parentheses may be open, where the last one that
was noted begins at the last token and asks for a parenthesis. -/
def StopsUnopened (token : Token)
    (result : EStateM.Result (Fault Refusal) (Reading (Watched Builder)) Unit) : Prop :=
  ∃ owner builder seen, result =
    .error ⟨.malformed (.expectedToken .leftParen), some token⟩ ⟨[token], maxDepth,
      ⟨builder, ⟨maxDepth, owner, ⟨[token], maxDepth, builder⟩⟩ :: seen⟩⟩

namespace StopsUnopened

open Reader

theorem of_token {token : Token} (hkind : token.kind ≠ .leftParen) (owner : Node.Kind)
    (state : Watched Builder) :
    StopsUnopened token
      (watchedField Builder.meaning (maxDepth, owner) ⟨[token], maxDepth, state⟩) := by
  refine ⟨owner, state.state, state.seen, ?_⟩
  rw [watchedField_apply]
  refine fieldWith_of_no_paren _ _ _ ?_
  rintro _ ⟨⟩
  exact hkind

/-- A construct with a name of its own stops as its first field does. -/
theorem of_inside {last paren keyword name next : Token} {rest : List Token}
    {owner kind : Node.Kind} {level : Nat} {builder : Builder} (hparen : paren.kind = .leftParen)
    (hkeyword : Field.find? owner keyword.kind = some (.construct kind))
    (hname : name.kind = .identifier) (hlevel : level < maxDepth)
    (hfresh : builder.top.scope.get? kind name.text = none)
    (hdetails : ∀ state, details Builder.meaning.watched kind
      ⟨next :: rest, (level + 1 : Nat), state⟩ = .ok () ⟨next :: rest, (level + 1 : Nat), state⟩)
    (hnext : next.kind ≠ .rightParen)
    (hinside : ∀ builder seen, (∀ kind name, builder.top.scope.get? kind name = none) →
      StopsUnopened last (watchedField Builder.meaning (level + 1, kind)
        ⟨next :: rest, (level + 1 : Nat), ⟨builder, seen⟩⟩)) (seen : List (Activation Builder)) :
    StopsUnopened last (watchedField Builder.meaning (level, owner)
      ⟨paren :: keyword :: name :: next :: rest, level, ⟨builder, seen⟩⟩) := by
  obtain ⟨declared, hact, hnames⟩ := Builder.declares_fresh hfresh
  rw [watchedField_apply, Reading.noted_mk]
  generalize Activation.mk level owner _ :: seen = more
  have hwatched : Builder.meaning.watched.act (.declare kind name.text) ⟨builder, more⟩ =
      .ok ⟨declared, more⟩ := by
    change (Builder.meaning.act _ builder).map _ = _
    rw [hact]
    rfl
  obtain ⟨owner', builder', seen', hstops⟩ := hinside declared more hnames
  exact ⟨owner', builder', seen', fieldWith_of_inside hname hwatched (hdetails _) hnext hparen
    hkeyword (Nat.cast_succ level) (Int.ofNat_lt.2 hlevel) hstops⟩

end StopsUnopened

/-- Attributes that nest as deep as parentheses may stop at the name behind them. -/
theorem stopsUnopened_attributeLines {count level : Nat} (hlevel : level + count = maxDepth)
    {owner : Node.Kind}
    (howner : Field.find? owner (.reserved .attribute) = some (.construct .attribute))
    {builder : Builder} (hfresh : builder.top.scope.get? .attribute "a" = none) (offset : Nat)
    (seen : List (Activation Builder)) :
    StopsUnopened (lastName offset count) (Reader.watchedField Builder.meaning (level, owner)
      ⟨scan offset (attributeLines count), level, ⟨builder, seen⟩⟩) := by
  induction count generalizing level owner builder offset seen with
  | zero =>
      obtain rfl : level = maxDepth := hlevel
      rw [scan_attributeLines_zero]
      exact .of_token (show Token.Kind.identifier ≠ .leftParen by decide) owner _
  | succ count ih =>
      obtain ⟨next, rest, hscan, hparen, hcardinality⟩ :=
        exists_scan_attributeLines (offset + 8) count
      rw [scan_attributeLines_succ, hscan, ← lastName_add_eight]
      refine .of_inside rfl howner rfl (by omega) hfresh (fun state => ?_) hparen ?_ seen
      · exact Reader.bind_ok.2 ⟨false, _, Reader.accept_other hcardinality _ _ _, rfl⟩
      · intro builder seen hnames
        rw [← hscan]
        exact ih (by omega) rfl (hnames _ _) (offset + 8) seen

theorem significant_scan_attributeLines (offset count : Nat) :
    Compile.significant (scan offset (attributeLines count)) = scan offset (attributeLines count) := by
  induction count generalizing offset with
  | zero =>
      rw [scan_attributeLines_zero]
      rfl
  | succ count ih =>
      rw [scan_attributeLines_succ]
      change _ :: _ :: _ :: Compile.significant _ = _
      rw [ih]

theorem significant_nestedSource (count : Nat) :
    Compile.significant (Lexer.tokens (nestedSource count)) = ⟨.leftParen, "(", 0⟩ ::
      ⟨.reserved .entity, "entity", 1⟩ :: ⟨.identifier, "e", 8⟩ ::
        scan 10 (attributeLines count) := by
  have h : (Lexer.tokens "(entity e").dropLast = [⟨.leftParen, "(", 0⟩,
      ⟨.reserved .entity, "entity", 1⟩, ⟨.identifier, "e", 8⟩] := by decide +kernel
  have hlength : (utf8Bytes "(entity e".toList).length = 9 := by decide +kernel
  rw [Compile.significant_tokens_eq, toList_nestedSource, scan_append_newline, scan_eq_map_tokens, h,
    hlength]
  change _ :: _ :: _ :: Compile.significant (scan 10 (attributeLines count)) = _
  rw [significant_scan_attributeLines]
  rfl

theorem Reading.declarationsBy_of_last (meaning : Interpretation σ ε) {field : Reader σ ε Unit}
    {reading after : Reading σ} {fault : Fault ε} (hunread : reading.unread ≠ [])
    (hfield : field reading = .error fault after)
    (hafter : afterGroup after.depth after.unread = []) :
    reading.declarationsBy meaning field = ([⟨fault, after.next?⟩],
      ⟨[], 0, meaning.undo reading.state after.state⟩) := by
  have hone : reading.declarationBy meaning field = (some ⟨fault, after.next?⟩,
      ⟨[], 0, meaning.undo reading.state after.state⟩) := by
    unfold declarationBy
    rw [hfield]
    simp only [leaveGroup, hafter]
  obtain ⟨token, bound, hcons⟩ := List.exists_cons_of_ne_nil hunread
  rw [declarationsBy, hcons, declarationsByWithin, hone, hcons]
  cases bound <;> rfl

theorem length_utf8Bytes_line (line : String) (rest : List Char) :
    (utf8Bytes (line.toList ++ '\n' :: rest)).length =
      byteLength line + 1 + (utf8Bytes rest).length := by
  have hnewline : (String.utf8EncodeChar '\n').length = 1 := by decide
  rw [utf8Bytes_append, utf8Bytes_cons, List.length_append, List.length_append, hnewline,
    Nat.add_assoc]
  rfl

theorem byteLength_nestedSource (count : Nat) :
    byteLength (nestedSource count) = 8 * count + 11 := by
  have hlines : (utf8Bytes (attributeLines count)).length = 8 * count + 1 := by
    induction count with
    | zero => decide +kernel
    | succ count ih =>
        have hattribute : byteLength "(attr a" = 7 := by decide +kernel
        exact (length_utf8Bytes_line _ _).trans (by rw [hattribute, ih]; omega)
  have hentity : byteLength "(entity e" = 9 := by decide +kernel
  rw [byteLength, toList_nestedSource, length_utf8Bytes_line, hentity, hlines]
  omega

/-- The declaration of an entity with attributes as deep as parentheses may nest. -/
theorem stopsUnopened_nestedSource {count : Nat} (hcount : 1 + count = maxDepth) :
    StopsUnopened (lastName 10 count) (Reader.watchedField Builder.meaning (0, .start)
      ⟨Compile.significant (Lexer.tokens (nestedSource count)), (0 : Nat), ⟨Builder.empty, []⟩⟩) := by
  obtain ⟨next, rest, hscan, hparen, -⟩ := exists_scan_attributeLines 10 count
  rw [significant_nestedSource, hscan]
  refine .of_inside rfl rfl rfl (by decide) rfl (fun _ => rfl) hparen ?_ []
  intro builder seen hnames
  rw [← hscan]
  exact stopsUnopened_attributeLines hcount rfl (hnames _ _) 10 seen

theorem StopsUnopened.declarationsOf_eq {source : String} {token : Token}
    (hunread : Compile.significant (Lexer.tokens source) ≠ [])
    (h : StopsUnopened token (Reader.watchedField Builder.meaning (0, .start)
      ⟨Compile.significant (Lexer.tokens source), (0 : Nat), ⟨Builder.empty, []⟩⟩)) :
    (declarationsOf source).1 =
        [⟨⟨.malformed (.expectedToken .leftParen), some token⟩, some token⟩] ∧
      ∃ owner builder, ⟨maxDepth, owner, ⟨[token], maxDepth, builder⟩⟩ ∈ activationsOf source := by
  obtain ⟨owner, builder, seen, hfield⟩ := h
  have hwatched : watchedDeclarationsOf source = _ :=
    Reading.declarationsBy_of_last Builder.meaning.watched hunread hfield
      (by simp [Reading.afterGroup])
  constructor
  · rw [(watchedDeclarationsOf_spec source).1, hwatched]
    rfl
  · refine ⟨owner, builder, List.mem_reverse.2 ?_⟩
    rw [hwatched]
    exact List.mem_cons_self

/-! ### With and without a budget -/

/-- What compiling a source text comes to, by how its declarations were read. -/
def Compile.verdict (source : String) (result : List (Stop Refusal) × Reading Builder) :
    Except CompileError Graph :=
  let bytes := utf8Bytes source.toList
  match result.1.mapM (faultFinding bytes) with
  | .error cause => .error (.internal cause)
  | .ok faults =>
    match mergeFindings (lexicalFindings bytes (Lexer.tokens source)) faults with
    | [] =>
      match result.2.state.finish with
      | .ok graph => .ok graph
      | .error error => .error (.internal error.message)
    | findings => .error (.rejected (findings.map (·.diagnostic)))

def compileUnlimited (source : String) : Except CompileError Graph :=
  Compile.verdict source ((Compile.start (Lexer.tokens source)).declarationsBy Builder.meaning
    (Reader.unlimitedField Builder.meaning .start))

theorem compileWithin_eq (budget : Nat) (source : String) :
    compileWithin budget source = Compile.verdict source
      ((Compile.start (Lexer.tokens source)).declarations Builder.meaning budget) := rfl

/-- The depth bounds how deep the readings of fields in a source text are nested, so that they need no
other bound. -/
structure NestsByDepth (source : String) : Prop where
  /-- With a budget, a field is read with one less for the fields inside. -/
  budgeted : ∀ budget owner, Reader.field Builder.meaning (budget + 1) owner =
    Reader.fieldWith Builder.meaning (Reader.field Builder.meaning budget) owner
  /-- Without one, a field is read with the fields inside read in the same way, and there is one reader
  only that does so. -/
  unlimited : ∀ readers : Node.Kind → Reader Builder Refusal Unit,
    (∀ owner, readers owner = Reader.fieldWith Builder.meaning readers owner) ↔
      readers = Reader.unlimitedField Builder.meaning
  /-- So it is by the reader that notes how many it goes on inside. -/
  watched : ∀ readers : Nat × Node.Kind → Reader (Watched Builder) Refusal Unit,
    (∀ i, readers i = Reader.watchedFieldWith Builder.meaning readers i) ↔
      readers = Reader.watchedField Builder.meaning
  /-- That reader reads what is read without it. -/
  shown : (Compile.start (Lexer.tokens source)).declarationsBy Builder.meaning
      (Reader.unlimitedField Builder.meaning .start) =
    ((watchedDeclarationsOf source).1,
      Builder.meaning.unwatched.shown (watchedDeclarationsOf source).2)
  /-- The depth counts the readings of fields that are going on. -/
  counted : ∀ activation ∈ activationsOf source, activation.Counted
  /-- It does so as a signed 32-bit word, for it fits one from there to the end of input. -/
  fits : byteLength source < 2 ^ 31 → ∀ activation ∈ activationsOf source,
    ∀ count ≤ activation.reading.unread.length,
      (Reading.advance^[count] activation.reading).FitsWord
  /-- No stop tells of a budget. -/
  unexhausted : ∀ stop ∈ (declarationsOf source).1, stop.fault.cause ≠ .exhausted
  /-- A budget for all parentheses that may be open, and one more, is as good as none: the same is
  read, -/
  read : ∀ budget, maxDepth < budget →
    (Compile.start (Lexer.tokens source)).declarations Builder.meaning budget =
      (Compile.start (Lexer.tokens source)).declarationsBy Builder.meaning
        (Reader.unlimitedField Builder.meaning .start)
  /-- and compiling comes to the same. -/
  compiled : ∀ budget, maxDepth < budget → compileWithin budget source = compileUnlimited source

theorem nestsByDepth (source : String) : NestsByDepth source := by
  have hstart := Compile.stands_start source
  have hread : ∀ budget, maxDepth < budget → _ := fun budget hbudget =>
    (Reading.declarationsBy_unlimitedField Builder.meaning hbudget ⟨rfl, hstart.spelled⟩).symm
  refine ⟨?_, ?_, ?_, ?_, ?_, ?_, ?_, hread, ?_⟩
  · exact fun budget owner => congrFun (Reader.field_add_one Builder.meaning budget) owner
  · exact fun readers => (Reader.descends_fieldWith Builder.meaning).calls_iff
  · exact fun readers => (Reader.descends_watchedFieldWith Builder.meaning).calls_iff
  · exact (hread _ (Nat.lt_succ_self maxDepth)).symm.trans (watchedDeclarationsOf_spec source).1
  · exact fun activation hmem => (leveled_of_mem_activationsOf hmem).counted
  · intro hlength activation hmem count hcount
    refine (leveled_of_mem_activationsOf hmem).fitsWord ?_ hcount
    rw [Compile.significant_tokens_eq]
    exact Nat.lt_of_le_of_lt ((List.filter_sublist).length_le.trans (length_scan_le _)) hlength
  · intro stop hstop
    obtain ⟨-, hplaced, -⟩ := hstart.declarations
    exact (hplaced stop hstop).reportable.cause_ne.1
  · intro budget hbudget
    rw [compileWithin_eq, compileUnlimited, hread budget hbudget]

/-- Where parentheses are nested as deep as they may be and a name stands for a further one, it is that
parenthesis that is missed; it is not complained that it is nested too deeply. -/
theorem unopened_deepest :
    byteLength (nestedSource 255) < 2 ^ 31 ∧
      (declarationsOf (nestedSource 255)).1 =
        [⟨⟨.malformed (.expectedToken .leftParen), some ⟨.identifier, "b", 2050⟩⟩,
          some ⟨.identifier, "b", 2050⟩⟩] ∧
      ¬∀ activation ∈ activationsOf (nestedSource 255), activation.enclosing = maxDepth →
        ∃ paren after, Reader.unlimitedField Builder.meaning activation.owner activation.reading =
          .error ⟨.malformed .nestedTooDeeply, paren⟩ after := by
  have hunread : Compile.significant (Lexer.tokens (nestedSource 255)) ≠ [] := by
    rw [significant_nestedSource]
    exact List.cons_ne_nil _ _
  obtain ⟨hstops, owner, builder, hmem⟩ :=
    (stopsUnopened_nestedSource rfl).declarationsOf_eq hunread
  refine ⟨?_, hstops, fun hdeep => ?_⟩
  · rw [byteLength_nestedSource]
    decide
  · obtain ⟨paren, after, hreports⟩ := hdeep _ hmem rfl
    rw [Reader.unlimitedField, (Reader.descends_fieldWith _).unlimited_eq,
      Reader.fieldWith_of_no_paren] at hreports
    · cases hreports
    · rintro _ ⟨⟩
      decide

end ErDiagram
