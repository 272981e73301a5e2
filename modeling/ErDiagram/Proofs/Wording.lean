import ErDiagram.Proofs.Loops
import ErDiagram.Proofs.Tracking

/-!
The readers of the grammar read its words. What a construct holds is read by loops, and a loop ends
where a parenthesis closes its body, so none of its items may begin with one. A parenthesis that goes
too deep is blamed itself, though it has been read.
-/

namespace ErDiagram

open scoped Computability

variable {σ ε α β : Type}

theorem Reading.depth_advance {reading : Reading σ} {token : Token} {rest : List Token}
    (h : reading.unread = token :: rest) : reading.advance.depth = reading.depth + token.nesting := by
  rw [advance, h]

/-! ### Details -/

namespace ReadsWords

variable {depth : Int}

/-- What a literal stands for has no part in the grammar. -/
theorem decoded {token : Token} {result : Except InvalidCardinality α}
    (hrange : ∀ error, result = .error error → token.OutOfRange) :
    ReadsWords depth 1 (Reader.decoded token result : Reader σ ε α) := by
  cases result with
  | ok value => exact pure value
  | error error =>
      refine nothing fun words _ before _ _ => ⟨fun {a after} hok => ?_, fun {fault after} herror => ?_⟩
      · cases hok
      · cases herror
        exact Or.inr (.outOfRange error (hrange error rfl))

/-- The second one of two bounds. If it is a pair, it is blamed for what it stands for, and rightly:
no word goes on with it. -/
theorem secondBound : ReadsWords depth (kindLetter .cardinal)
    (Reader.expectKind .cardinal >>= fun second =>
      Reader.decoded second (Bound.ofString second.text) : Reader σ ε Bound) := by
  intro later hlater before hdepth _
  constructor
  · intro bound after hok
    obtain ⟨second, middle, hsecond, hdecoded⟩ := Reader.bind_ok.1 hok
    obtain ⟨hkind, hpass⟩ := (Reader.expect_ok .lenient (by decide)).1 hsecond
    obtain ⟨hbound, hsame⟩ := (Reader.decoded_ok .lenient).1 hdecoded
    obtain rfl := passes_nil.1 hsame
    have hsymbol := Token.symbol_single hkind (Bound.ofString_iff.1 hbound).isBound.not_mem_colon
    refine ⟨?_, .mk [second] hpass.unread hlater (fun w hw => ?_) fun w _ hw => ?_⟩
    · rw [hpass.depth, hdepth, openedBy_of_kinds (by simp [hkind]), Int.add_zero]
    · exact cons_mem_letter_mul.2 ⟨hsymbol, hw⟩
    · exact (cons_mem_letter_mul.1 hw).2
  · intro fault after herror
    rcases Reader.bind_error.1 herror with hsecond | ⟨second, middle, hsecond, hdecoded⟩
    · refine Or.inl (Tracks.refutes_of_peek (Reader.expect_peeks _ _) hsecond nil_notMem_letter_mul ?_)
      intro token _ htake w hw
      simp [Token.kind_of_symbol (Or.inr (cons_mem_letter_mul.1 hw).1)] at htake
    · obtain ⟨hkind, hunread, -⟩ := Reader.expect_ok_iff.1 hsecond
      cases hvalue : Bound.ofString second.text with
      | ok bound =>
          rw [hvalue] at hdecoded
          cases hdecoded
      | error error =>
          rw [hvalue] at hdecoded
          cases hdecoded
          by_cases hcolon : ':' ∈ second.text.toList
          · refine Or.inl (.of_next hunread rfl fun w hw => ?_)
            rw [Token.symbol_pair hkind hcolon] at hw
            simp at hw
          · exact Or.inr (.outOfRange error (Or.inr ⟨Token.symbol_single hkind hcolon, error, hvalue⟩))

theorem cardinality :
    ReadsWords depth cardinalityWords (Reader.cardinality : Reader σ ε Cardinality) := by
  intro later hlater
  have hfirst : Tracks depth (cardinalityWords * later) depth
      (fun first => if ':' ∈ first.text.toList then later else kindLetter .cardinal * later)
      (Reader.expectKind .cardinal : Reader σ ε Token) := by
    rw [cardinalityWords, add_mul, mul_assoc]
    refine Tracks.peek (Reader.expect_peeks _ _) ?_ (fun token a _ htake => ?_)
      fun token w _ htake hw => ?_
    · rw [Language.mem_add]
      exact not_or.2 ⟨nil_notMem_letter_mul, nil_notMem_letter_mul⟩
    · obtain ⟨hkind, heq⟩ := Option.ite_none_right_eq_some.1 htake
      cases heq
      refine ⟨?_, ?_, fun w => ?_⟩
      · rw [nesting_of_ne (by simp [hkind]) (by simp [hkind]), Int.add_zero]
      · split
        · exact hlater
        · exact exists_mem_letter_mul hlater
      · rw [Language.mem_add, cons_mem_letter_mul, cons_mem_letter_mul]
        split
        · simp [Token.symbol_pair hkind ‹_›]
        · simp [Token.symbol_single hkind ‹_›]
    · have hkind : token.kind = .cardinal := by
        rcases hw with hw | hw
        · exact Token.kind_of_symbol (Or.inl (cons_mem_letter_mul.1 hw).1)
        · exact Token.kind_of_symbol (Or.inr (cons_mem_letter_mul.1 hw).1)
      simp [hkind] at htake
  apply hfirst.bind_given
  intro first before after hread
  have hkind := (Reader.expect_ok_iff.1 hread).1
  by_cases hcolon : ':' ∈ first.text.toList
  · rw [if_pos hcolon, if_pos hcolon]
    refine (decoded fun error herror => ?_).tracks hlater
    exact Or.inl ⟨Token.symbol_pair hkind hcolon, error, herror⟩
  · rw [if_neg hcolon, if_neg hcolon]
    apply ((decoded fun error herror => ?_).tracks (exists_mem_letter_mul hlater)).bind
    · intro min
      rw [← bind_assoc]
      exact secondBound.bind_nothing (fun max => pure _) hlater
    · exact Or.inr ⟨Token.symbol_single hkind hcolon, error, herror⟩

theorem hierarchyType :
    ReadsWords depth (detailWords .hierarchy) (Reader.hierarchyType : Reader σ ε HierarchyType) := by
  intro later hlater
  have hfacets : ∃ w, w ∈ facetWords * later :=
    exists_mem_mul ⟨_, Language.append_mem_mul (Or.inl rfl) (Or.inl rfl)⟩ hlater
  have htyped : ∃ w, w ∈ facetWords * later + keywordLetter .subset * later := by
    obtain ⟨w, hw⟩ := hfacets
    exact ⟨w, Or.inl hw⟩
  have heq : detailWords .hierarchy * later =
      (facetWords * later + keywordLetter .subset * later) +
        keywordLetter .type * (facetWords * later + keywordLetter .subset * later) := by
    rw [detailWords, add_mul, one_mul, add_mul, mul_assoc, add_mul]
  rw [heq]
  apply (Tracks.accept htyped htyped ?_).bind
  · intro announced
    rw [ite_self]
    apply (Tracks.accept hlater hfacets ?_).bind
    · intro subset
      cases subset with
      | true => exact Tracks.pure _ hlater
      | false =>
          have hboth : ReadsWords depth facetWords (do
              let total ← Reader.decode HierarchyType.coverage? .expectedCoverage
              let exclusive ← Reader.decode HierarchyType.disjointness? .expectedDisjointness
              Pure.pure (.ofFacets total exclusive) : Reader σ ε HierarchyType) := by
            apply (decode fun token h total => coverage?_iff h).bind ⟨_, Or.inl rfl⟩
            intro total
            exact (decode fun token h exclusive => disjointness?_iff h).bind_nothing fun _ => pure _
          exact hboth hlater
    · simp [mem_facetWords_mul]
  · intro w hw
    rcases (Language.mem_add _ _ _).1 hw with hw | hw
    · simp [mem_facetWords_mul] at hw
    · simp at hw

end ReadsWords

theorem Tracks.details {meaning : Interpretation σ ε} {depth : Int} {later : Language Symbol}
    (hlater : ∃ w, w ∈ later) (hother : ∀ w, .plain (.reserved .cardinality) :: w ∉ later)
    (kind : Node.Kind) :
    Tracks depth (detailWords kind * later) depth (fun _ => later) (Reader.details meaning kind) := by
  unfold Reader.details
  split
  · exact ReadsWords.hierarchyType.bind_nothing (fun type => .report) hlater
  · have heq : detailWords .attribute * later =
        later + keywordLetter .cardinality * (cardinalityWords * later) := by
      rw [detailWords, add_mul, one_mul, mul_assoc]
    rw [heq]
    apply (accept (exists_mem_cardinalityWords_mul hlater) hlater hother).bind
    intro found
    cases found with
    | true => exact ReadsWords.cardinality.bind_nothing (fun cardinality => .report) hlater
    | false => exact pure () hlater
  · rename_i hhierarchy hattribute
    have heq : detailWords kind * later = later := by
      unfold detailWords
      split
      · exact absurd rfl hhierarchy
      · exact absurd rfl hattribute
      · exact one_mul later
    rw [heq]
    exact pure () hlater

/-! ### Loops -/

/-- There are words, and each begins with a closing parenthesis. -/
def Closing (words : Language Symbol) : Prop :=
  (∃ w, w ∈ words) ∧ ∀ w ∈ words, w.head? = some (.plain .rightParen)

/-- No word is empty or begins with a closing parenthesis. -/
def NeverClosing (words : Language Symbol) : Prop :=
  ∀ w ∈ words, ∃ symbol rest, symbol ≠ .plain .rightParen ∧ w = symbol :: rest

/-- Each word begins with an opening parenthesis. -/
def Opening (words : Language Symbol) : Prop :=
  ∀ w ∈ words, ∃ rest, w = .plain .leftParen :: rest

theorem Opening.neverClosing {words : Language Symbol} (h : Opening words) : NeverClosing words := by
  intro w hw
  obtain ⟨rest, rfl⟩ := h w hw
  exact ⟨_, rest, by simp, rfl⟩

theorem Closing.kindLetter_mul {later : Language Symbol} (h : ∃ w, w ∈ later) :
    Closing (kindLetter .rightParen * later) := by
  refine ⟨exists_mem_letter_mul h, fun w hw => ?_⟩
  obtain ⟨rest, -, rfl⟩ := mem_letter_mul.1 hw
  rfl

/-- Where repeated words end, a closing parenthesis comes next or nothing does. -/
theorem mem_of_atBodyEnd {words later : Language Symbol} (hwords : NeverClosing words)
    {reading : Reading σ} (hend : reading.atBodyEnd = true) {w : List Symbol}
    (hw : w ∈ words∗ * later) (hlike : BeginsLike reading.unread w) : w ∈ later := by
  rcases mem_kstar_mul.1 hw with hw | hw
  · exact hw
  · obtain ⟨first, hfirst, rest, -, rfl⟩ := Language.mem_mul.1 hw
    obtain ⟨symbol, more, hsymbol, rfl⟩ := hwords first hfirst
    rw [Reading.atBodyEnd_iff] at hend
    unfold Reading.next? at hend
    cases hunread : reading.unread with
    | nil =>
        rw [hunread] at hlike
        cases hlike
    | cons token tokens =>
        rw [hunread] at hlike hend
        obtain rfl : symbol = token.symbol := Option.some.inj hlike
        exact absurd ((Token.symbol_eq_plain (by decide)).2 (hend token rfl)) hsymbol

theorem mem_of_not_atBodyEnd {words later : Language Symbol} (hlater : Closing later)
    {reading : Reading σ} (hend : ¬reading.atBodyEnd = true) {w : List Symbol}
    (hw : w ∈ words∗ * later) (hlike : BeginsLike reading.unread w) : w ∈ words * (words∗ * later) := by
  rcases mem_kstar_mul.1 hw with hw | hw
  · obtain ⟨rest, rfl⟩ := List.head?_eq_some_iff.1 (hlater.2 w hw)
    refine absurd ?_ hend
    rw [Reading.atBodyEnd, hlike.isNext (by decide), Bool.or_true]
  · exact hw

/-- A loop that reads items up to the end of a body. Its passes are given by the equations; how many
there are is bounded by a list that is long enough. -/
theorem tracksAt_loop {γ : Type} {item : Reader σ ε β} (loop : γ → List Token → Reader σ ε α)
    (step : γ → β → γ) {result : γ → α} {depth : Int} {words later : Language Symbol}
    (hwords : NeverClosing words) (hlater : Closing later)
    (hend : ∀ state bound (before : Reading σ), before.atBodyEnd = true →
      loop state bound before = .ok (result state) before)
    (hpass : ∀ state token bound (before : Reading σ), ¬before.atBodyEnd = true →
      loop state (token :: bound) before =
        (item >>= fun found => loop (step state found) bound) before)
    (hitem : ReadsWords depth words item)
    (state : γ) (bound : List Token) {before : Reading σ} (hdepth : before.depth = depth)
    (hspelled : ∀ token ∈ before.unread, token.Spelled)
    (hbound : before.unread.length ≤ bound.length) :
    TracksAt before (words∗ * later) depth (fun _ => later) (loop state bound) := by
  have hlast : ∀ {state before bound}, before.depth = depth → before.atBodyEnd = true →
      TracksAt before (words∗ * later) depth (fun _ => later) (loop state bound) := by
    intro state before bound hdepth hatEnd
    constructor
    · intro a after hok
      rw [hend _ _ _ hatEnd] at hok
      cases hok
      exact ⟨hdepth, .mk [] rfl hlater.1 (fun w hw => mem_kstar_mul.2 (Or.inl hw))
        fun w hlike hw => mem_of_atBodyEnd hwords hatEnd hw hlike⟩
    · intro fault after herror
      rw [hend _ _ _ hatEnd] at herror
      cases herror
  induction bound generalizing state before with
  | nil => exact hlast hdepth (Reader.atBodyEnd_of_unread hbound)
  | cons token bound ih =>
      by_cases hatEnd : before.atBodyEnd = true
      · exact hlast hdepth hatEnd
      · have hmore : ∃ w, w ∈ words∗ * later := exists_mem_kstar_mul hlater.1
        refine (((hitem hmore before hdepth hspelled).bind fun found after hread hdeeper hsubset =>
          ?_).congr (hpass _ _ _ _ hatEnd)).narrow (fun w hw => mem_kstar_mul.2 (Or.inr hw))
            fun w hw hlike => mem_of_not_atBodyEnd hlater hatEnd hw hlike
        refine ih _ hdeeper (fun token htoken => hspelled token (hsubset htoken)) ?_
        -- An item is not written without a token.
        obtain ⟨-, front, hunread, -, hsound, -⟩ :=
          (hitem ⟨[], Language.nil_mem_one⟩ before hdepth hspelled).ok hread
        cases front with
        | nil =>
            have hnil := hsound [] Language.nil_mem_one
            rw [mul_one] at hnil
            obtain ⟨symbol, rest, -, hrest⟩ := hwords _ hnil
            cases hrest
        | cons first front =>
            rw [hunread, List.length_append, List.length_cons, List.length_cons] at hbound
            omega

theorem Tracks.items {depth : Int} {words later : Language Symbol} {item : Reader σ ε Unit}
    (hwords : NeverClosing words) (hlater : Closing later) (hitem : ReadsWords depth words item) :
    Tracks depth (words∗ * later) depth (fun _ => later) (Reader.items item) := by
  intro before hdepth hspelled
  have hloop := tracksAt_loop (fun _ : Unit => Reader.itemsWithin item) (fun _ _ => ()) hwords hlater
    (fun _ bound _ hend => Reader.itemsWithin_of_end hend bound)
    (fun _ token bound _ hend => Reader.itemsWithin_of_item hend token bound) hitem () before.unread
    hdepth hspelled (Nat.le_refl _)
  exact hloop.congr rfl

/-! ### Fields -/

namespace ReadsWords

variable {depth : Int} (meaning : Interpretation σ ε)

theorem keyName : ReadsWords depth (kindLetter .identifier) (Reader.keyName meaning) :=
  (expectName .attribute).bind_nothing fun _ => report.bind_nothing fun _ => pure _

theorem knownName (kind : Node.Kind) :
    ReadsWords depth (kindLetter .identifier) (Reader.knownName meaning kind) :=
  (expectName kind).bind_nothing fun _ => report.bind_nothing fun _ => pure _

theorem attributeOf : ReadsWords depth (kindLetter .identifier * kindLetter .identifier)
    (Reader.attributeOf meaning) :=
  (expectName .attribute).bind ⟨_, rfl⟩ fun _ =>
    (knownName meaning .entity).bind_nothing fun _ => report

theorem mention (kind : Node.Kind) :
    ReadsWords depth (kindLetter .identifier) (Reader.mention meaning kind) :=
  (knownName meaning kind).bind_nothing fun _ => report

theorem branch (keyword : Token) :
    ReadsWords depth (kindLetter .identifier * (keywordLetter .cardinality * cardinalityWords))
      (Reader.branch meaning keyword) := by
  apply (knownName meaning .entity).bind (exists_mem_letter_mul ⟨_, Or.inl rfl⟩)
  intro entity
  apply (expect (by decide) (by decide)).bind ⟨_, Or.inl rfl⟩
  intro card
  exact cardinality.bind_nothing fun cardinality => report

end ReadsWords

namespace Tracks

variable {depth : Int} {later : Language Symbol} (meaning : Interpretation σ ε)

theorem primaryKey (keyword : Token) (hlater : Closing later) :
    Tracks depth ((kindLetter .identifier)∗ * later) depth (fun _ => later)
      (Reader.primaryKey meaning keyword) := by
  have hname : NeverClosing (kindLetter .identifier) := by
    rintro _ rfl
    exact ⟨_, [], by simp, rfl⟩
  have hnames : Tracks depth ((kindLetter .identifier)∗ * later) depth (fun _ => later)
      (Reader.ask Reading.unread >>= Reader.keyNames meaning []) := by
    intro before hdepth hspelled
    refine (tracksAt_loop (Reader.keyNames meaning) (fun names name => name :: names) hname hlater
      (fun names bound _ hend => Reader.keyNames_of_end hend names bound) ?_
      (ReadsWords.keyName meaning) [] before.unread hdepth hspelled (Nat.le_refl _)).congr rfl
    exact fun names token bound before hend =>
      @Reader.keyNames_of_pass _ _ meaning (names, before) hend token bound
  apply (report (exists_mem_kstar_mul hlater.1)).bind
  intro _
  rw [← bind_assoc]
  apply hnames.bind
  intro names
  exact report hlater.1

/-- A construct with fields that begin with parentheses. -/
theorem construct {words : Language Symbol} {inside : Reader σ ε Unit}
    (hwords : Opening words) (hlater : Closing later)
    (hinside : ReadsWords depth words inside) (kind : Node.Kind) :
    Tracks depth (kindLetter .identifier * (detailWords kind * words∗) * later) depth
      (fun _ => later) (Reader.construct meaning inside kind) := by
  have hfields : ∃ w, w ∈ words∗ * later := exists_mem_kstar_mul hlater.1
  have hother : ∀ w, .plain (.reserved .cardinality) :: w ∉ words∗ * later := by
    intro w hw
    rcases mem_kstar_mul.1 hw with hw | hw
    · have hhead := hlater.2 _ hw
      simp at hhead
    · obtain ⟨first, hfirst, more, -, heq⟩ := Language.mem_mul.1 hw
      obtain ⟨rest, rfl⟩ := hwords first hfirst
      simp at heq
  rw [mul_assoc, mul_assoc]
  apply (ReadsWords.expectName kind (exists_mem_mul (exists_mem_detailWords kind) hfields)).bind
  intro name
  apply (report (exists_mem_mul (exists_mem_detailWords kind) hfields)).bind
  intro _
  apply (details hfields hother kind).bind
  intro _
  apply (items hwords.neverClosing hlater hinside).bind
  intro _
  apply (ask hlater.1).bind
  intro next
  exact report hlater.1

theorem fieldBody {words : Node.Kind → Language Symbol} {inside : Node.Kind → Reader σ ε Unit}
    (hwords : ∀ kind, Opening (words kind)) (hlater : Closing later)
    {field : Field} (hinside : ∀ kind, field = .construct kind →
      ReadsWords depth (words kind) (inside kind)) (keyword : Token) :
    Tracks depth (bodyWords words field * later) depth (fun _ => later)
      (Reader.fieldBody meaning inside keyword field) := by
  cases field with
  | construct kind => exact construct meaning (hwords kind) hlater (hinside kind rfl) kind
  | primaryKey => exact primaryKey meaning keyword hlater
  | branch => exact ReadsWords.branch meaning keyword hlater.1
  | attributeOf => exact ReadsWords.attributeOf meaning hlater.1
  | mention kind => exact ReadsWords.mention meaning kind hlater.1

theorem fieldInside {words : Node.Kind → Language Symbol} {budget : Nat} {owner : Node.Kind}
    (hwords : ∀ kind, Opening (words kind)) (hlater : Closing later)
    (hinside : ∀ kind, Field.table kind ≠ [] →
      ReadsWords depth (words kind) (Reader.field meaning budget kind)) :
    Tracks depth (insideWords owner (bodyWords words) * later) depth (fun _ => later)
      (Reader.fieldInside meaning budget owner) := by
  rw [insideWords_mul]
  apply (fieldKeyword fun field => exists_mem_mul (exists_mem_bodyWords words field) hlater.1).bind_given
  rintro ⟨keyword, field⟩ before after hread
  obtain ⟨word, -, hlookup, -⟩ := (Reader.fieldKeyword_ok .lenient).1 hread
  refine fieldBody meaning hwords hlater (fun kind hfield => hinside kind ?_) keyword
  obtain rfl : field = .construct kind := hfield
  exact Field.table_ne_nil (Field.mem_table hlookup)

end Tracks

theorem Opening.fieldWords (limit : Nat) (owner : Node.Kind) : Opening (fieldWords limit owner) := by
  intro w hw
  cases limit with
  | zero => exact absurd hw (Language.notMem_zero w)
  | succ limit =>
      obtain ⟨rest, -, rfl⟩ := mem_letter_mul.1 hw
      exact ⟨rest, rfl⟩

section

variable {meaning : Interpretation σ ε} {depth : Int} {budget : Nat} {owner : Node.Kind}

/-- Where a parenthesis goes too deep, it is blamed, for no field may begin with it. -/
theorem tracks_field_too_deep (hdepth : depth = maxDepth) (left : Unit → Language Symbol) :
    Tracks depth 0 depth left (Reader.field meaning (budget + 1) owner) := by
  intro before hbefore _
  rw [Reader.field_succ]
  have hdeep : ∀ {paren : Token} {middle : Reading σ},
      (Reader.expectKind .leftParen : Reader σ ε Token) before = .ok paren middle →
        before.unread = paren :: middle.unread ∧ Reader.fieldRest meaning budget owner paren middle =
          .error ⟨.malformed .nestedTooDeeply, some paren⟩ middle := by
    intro paren middle hread
    obtain ⟨hkind, hunread, hmiddle⟩ := Reader.expect_ok_iff.1 hread
    have hnested : (maxDepth : Int) < middle.depth := by
      rw [hmiddle, Reading.depth_advance hunread, nesting_leftParen hkind, hbefore, hdepth]
      exact Int.lt_succ _
    refine ⟨hunread, ?_⟩
    change (if (maxDepth : Int) < middle.depth then _ else _ : Reader σ ε Unit) middle = _
    rw [if_pos hnested]
    rfl
  constructor
  · intro u after hok
    obtain ⟨paren, middle, hread, hrest⟩ := Reader.bind_ok.1 hok
    rw [(hdeep hread).2] at hrest
    cases hrest
  · intro fault after herror
    rcases Reader.bind_error.1 herror with hread | ⟨paren, middle, hread, hrest⟩
    · exact Or.inl (Tracks.refutes_of_peek (Reader.expect_peeks _ _) hread (Language.notMem_zero _)
        fun _ _ _ w => Language.notMem_zero _)
    · obtain ⟨hunread, hfail⟩ := hdeep hread
      rw [hfail] at hrest
      cases hrest
      exact Or.inl (.of_next hunread rfl fun w => Language.notMem_zero _)

/-- A field that may be nested is a parenthesis, what it holds and a parenthesis. -/
theorem readsWords_field {words : Node.Kind → Language Symbol} (hdepth : depth < maxDepth)
    (howner : Field.table owner ≠ [])
    (hwords : ∀ kind, Opening (words kind))
    (hinside : ∀ kind, Field.table kind ≠ [] →
      ReadsWords (depth + 1) (words kind) (Reader.field meaning budget kind)) :
    ReadsWords depth (kindLetter .leftParen * (insideWords owner (bodyWords words) *
      kindLetter .rightParen)) (Reader.field meaning (budget + 1) owner) := by
  intro later hlater
  have hclosing : Closing (kindLetter .rightParen * later) := .kindLetter_mul hlater
  rw [Reader.field_succ, mul_assoc, mul_assoc]
  have hparen : Tracks depth (kindLetter .leftParen * (insideWords owner (bodyWords words) *
      (kindLetter .rightParen * later))) (depth + 1) (fun _ => insideWords owner (bodyWords words) *
        (kindLetter .rightParen * later)) (Reader.expectKind .leftParen : Reader σ ε Token) := by
    refine Tracks.expect (by decide) (fun token htoken => ?_) ?_
    · rw [nesting_leftParen htoken]
    · exact exists_mem_mul (exists_mem_insideWords howner (exists_mem_bodyWords words)) hclosing.1
  have hrest : Tracks (depth + 1) (insideWords owner (bodyWords words) *
      (kindLetter .rightParen * later)) depth (fun _ => later)
        (Reader.fieldInside meaning budget owner >>= fun _ =>
          Reader.expectKind .rightParen >>= fun _ => Pure.pure ()) := by
    apply (Tracks.fieldInside meaning hwords hclosing hinside).bind
    intro _
    apply (Tracks.expect (by decide) (fun token htoken => ?_) hlater).bind
    · intro _
      exact Tracks.pure () hlater
    · rw [nesting_rightParen htoken, Int.add_neg_cancel_right]
  apply hparen.bind
  intro paren before hbefore hspelled
  refine (hrest before hbefore hspelled).congr ?_
  change (if (maxDepth : Int) < before.depth then _ else _ : Reader σ ε Unit) before = _
  rw [if_neg (by omega)]

end

/-- A reader of fields that go as deep as is allowed reads the words of the fields that nest no
deeper. -/
theorem ReadsWords.field (meaning : Interpretation σ ε) {limit : Nat} {depth : Int} {budget : Nat}
    {owner : Node.Kind} (hdepth : depth + limit = maxDepth) (hbudget : limit < budget)
    (howner : Field.table owner ≠ []) :
    ReadsWords depth (fieldWords limit owner) (Reader.field meaning budget owner) := by
  induction limit generalizing depth budget owner with
  | zero =>
      obtain ⟨budget, rfl⟩ := Nat.exists_eq_add_of_lt hbudget
      intro later _
      rw [fieldWords, zero_mul]
      exact tracks_field_too_deep (by simpa using hdepth) _
  | succ limit ih =>
      cases budget with
      | zero => exact absurd hbudget (Nat.not_lt_zero _)
      | succ budget =>
          refine readsWords_field (by omega) howner (Opening.fieldWords limit) fun kind hkind => ?_
          exact ih (by omega) (Nat.lt_of_succ_lt_succ hbudget) hkind

end ErDiagram
