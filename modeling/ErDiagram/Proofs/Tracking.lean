import ErDiagram.Proofs.Confined
import ErDiagram.Proofs.Words

/-!
Readers keep track of the words that may still follow. Where a reader starts, the words of a language
may stand before it; where it ends, those of another one, which are what is left of them behind the
tokens that it has read. So if a token cannot be read, none of the words goes on with it, but some word
begins with the tokens read before. Whether actions are refused and whether numbers are too large is
left out of account.
-/

namespace ErDiagram

open scoped Computability

variable {σ ε α β : Type}

/-- Refuses nothing and changes nothing. -/
def Interpretation.lenient : Interpretation σ ε where
  act _ state := .ok state
  undo _ state := state

/-- A word and some tokens begin with the same symbol, or both are empty. -/
def BeginsLike (tokens : List Token) (w : List Symbol) : Prop :=
  w.head? = (symbols tokens).head?

theorem BeginsLike.append {tokens : List Token} {w : List Symbol} (h : BeginsLike tokens w)
    (front : List Token) : BeginsLike (front ++ tokens) (symbols front ++ w) := by
  cases front with
  | nil => exact h
  | cons token front => rfl

theorem BeginsLike.isNext {reading : Reading σ} {kind : Token.Kind} {w : List Symbol}
    (hkind : kind ≠ .cardinal) (h : BeginsLike reading.unread (.plain kind :: w)) :
    reading.isNext kind = true := by
  unfold Reading.isNext Reading.next?
  cases hunread : reading.unread with
  | nil =>
      rw [hunread] at h
      cases h
  | cons token rest =>
      rw [hunread] at h
      exact decide_eq_true ((Token.symbol_eq_plain hkind).1 (Option.some.inj h).symm)

/-- A literal that is written as the grammar asks for and yet stands for no value. -/
def Token.OutOfRange (token : Token) : Prop :=
  (token.symbol = .pair ∧ ∃ error, Cardinality.ofString token.text = .error error) ∨
    (token.symbol = .plain .cardinal ∧ ∃ error, Bound.ofString token.text = .error error)

/-- A fault for which the grammar is not the reason: an action is refused, or a literal stands for no
value. -/
inductive Fault.Excused : Fault ε → Prop where
  | refused (error : ε) (blamed : Option Token) : Excused ⟨.refused error, blamed⟩
  | outOfRange (error : InvalidCardinality) {token : Token} (hrange : token.OutOfRange) :
    Excused ⟨.malformed (.invalidCardinality error), some token⟩

/-- Between two readings, what is left of some words are others: with the tokens in between they are
among the first ones, and of those that are, none is missing that begins like the tokens that are left. -/
inductive Leads (words left : Language Symbol) (before after : Reading σ) : Prop where
  | mk (front : List Token) (hunread : before.unread = front ++ after.unread)
    (hleft : ∃ w, w ∈ left) (hsound : ∀ w ∈ left, symbols front ++ w ∈ words)
    (hcomplete : ∀ w, BeginsLike after.unread w → symbols front ++ w ∈ words → w ∈ left) :
    Leads words left before after

/-- A fault is blamed on the first token with which no word goes on, or on the end of input if no word
ends there. If tokens have been read, some word goes on behind them. -/
inductive Refutes (words : Language Symbol) (before : Reading σ) (fault : Fault ε) : Prop where
  | mk (front back : List Token) (hunread : before.unread = front ++ back)
    (hblamed : fault.token = back.head?) (hviable : front ≠ [] → ∃ w, symbols front ++ w ∈ words)
    (hlast : ∀ w, BeginsLike back w → symbols front ++ w ∉ words) : Refutes words before fault

/-- At a reading, a reader keeps track of some words, of which it leaves others at a depth. -/
structure TracksAt (before : Reading σ) (words : Language Symbol) (depth : Int)
    (left : α → Language Symbol) (reader : Reader σ ε α) : Prop where
  ok : ∀ {a : α} {after : Reading σ}, reader before = .ok a after →
    after.depth = depth ∧ Leads words (left a) before after
  error : ∀ {fault : Fault ε} {after : Reading σ}, reader before = .error fault after →
    Refutes words before fault ∨ fault.Excused

/-- Wherever a reader starts at a depth, it keeps track of some words, of which it leaves others at
another depth. -/
def Tracks (depth : Int) (words : Language Symbol) (deeper : Int) (left : α → Language Symbol)
    (reader : Reader σ ε α) : Prop :=
  ∀ before : Reading σ, before.depth = depth → (∀ token ∈ before.unread, token.Spelled) →
    TracksAt before words deeper left reader

/-- A reader at a depth reads the words of a language, whatever may follow them. -/
def ReadsWords (depth : Int) (words : Language Symbol) (reader : Reader σ ε α) : Prop :=
  ∀ ⦃later : Language Symbol⦄, (∃ w, w ∈ later) →
    Tracks depth (words * later) depth (fun _ => later) reader

theorem Leads.refl {words : Language Symbol} (h : ∃ w, w ∈ words) {before after : Reading σ}
    (hunread : before.unread = after.unread) : Leads words words before after :=
  .mk [] hunread h (fun _ hw => hw) fun _ _ hw => hw

theorem Leads.trans {words middle left : Language Symbol} {before between after : Reading σ}
    (h : Leads words middle before between) (hnext : Leads middle left between after) :
    Leads words left before after := by
  obtain ⟨front, hunread, -, hsound, hcomplete⟩ := h
  obtain ⟨back, hunread', hleft, hsound', hcomplete'⟩ := hnext
  refine .mk (front ++ back) ?_ hleft (fun w hw => ?_) fun w hlike hw => ?_
  · rw [hunread, hunread', List.append_assoc]
  · rw [symbols_append, List.append_assoc]
    exact hsound _ (hsound' w hw)
  · rw [symbols_append, List.append_assoc] at hw
    refine hcomplete' w hlike (hcomplete _ ?_ hw)
    rw [hunread']
    exact hlike.append back

theorem Leads.refutes {words middle : Language Symbol} {before between : Reading σ} {fault : Fault ε}
    (h : Leads words middle before between) (hnext : Refutes middle between fault) :
    Refutes words before fault := by
  obtain ⟨front, hunread, ⟨some, hsome⟩, hsound, hcomplete⟩ := h
  obtain ⟨back, rest, hunread', hblamed, hviable, hlast⟩ := hnext
  refine .mk (front ++ back) rest ?_ hblamed (fun _ => ?_) fun w hlike hw => ?_
  · rw [hunread, hunread', List.append_assoc]
  · -- Without further tokens, any word that is left goes on.
    cases back with
    | nil => exact ⟨some, by simpa using hsound some hsome⟩
    | cons token back =>
        obtain ⟨w, hw⟩ := hviable (List.cons_ne_nil _ _)
        exact ⟨w, by simpa using hsound _ hw⟩
  · rw [symbols_append, List.append_assoc] at hw
    refine hlast w hlike (hcomplete _ ?_ hw)
    rw [hunread']
    exact hlike.append back

theorem Leads.subset {words left : Language Symbol} {before after : Reading σ}
    (h : Leads words left before after) : after.unread ⊆ before.unread := by
  obtain ⟨front, hunread, -, -, -⟩ := h
  rw [hunread]
  exact List.subset_append_right _ _

/-- The token that comes next is blamed rightly if no word begins with its symbol. -/
theorem Refutes.of_next {words : Language Symbol} {before : Reading σ} {fault : Fault ε} {token : Token}
    {rest : List Token} (hunread : before.unread = token :: rest) (hblamed : fault.token = some token)
    (hother : ∀ w, token.symbol :: w ∉ words) : Refutes words before fault := by
  refine .mk [] before.unread rfl ?_ (fun h => absurd rfl h) fun w hlike hw => ?_
  · rw [hunread]
    exact hblamed
  · rw [hunread] at hlike
    obtain ⟨w, rfl⟩ := List.head?_eq_some_iff.1 hlike
    exact hother w hw

/-! ### Rules -/

namespace TracksAt

variable {before : Reading σ} {words few : Language Symbol} {depth deeper : Int}
  {left : α → Language Symbol} {last : β → Language Symbol} {reader : Reader σ ε α}

theorem bind {next : α → Reader σ ε β} (h : TracksAt before words depth left reader)
    (hnext : ∀ a after, reader before = .ok a after → after.depth = depth →
      after.unread ⊆ before.unread → TracksAt after (left a) deeper last (next a)) :
    TracksAt before words deeper last (reader >>= next) where
  ok := by
    intro b after hok
    obtain ⟨a, middle, hfirst, hsecond⟩ := Reader.bind_ok.1 hok
    obtain ⟨hdepth, hleads⟩ := h.ok hfirst
    obtain ⟨hdeeper, hleads'⟩ := (hnext a middle hfirst hdepth hleads.subset).ok hsecond
    exact ⟨hdeeper, hleads.trans hleads'⟩
  error := by
    intro fault after herror
    rcases Reader.bind_error.1 herror with hfirst | ⟨a, middle, hfirst, hsecond⟩
    · exact h.error hfirst
    · obtain ⟨hdepth, hleads⟩ := h.ok hfirst
      rcases (hnext a middle hfirst hdepth hleads.subset).error hsecond with hrefutes | hexcused
      · exact Or.inl (hleads.refutes hrefutes)
      · exact Or.inr hexcused

/-- Only what the reader does at the reading matters. -/
theorem congr {reader' : Reader σ ε α} (h : TracksAt before words depth left reader')
    (heq : reader before = reader' before) : TracksAt before words depth left reader where
  ok hok := h.ok (heq ▸ hok)
  error herror := h.error (heq ▸ herror)

/-- What comes next rules out all words but a few. -/
theorem narrow (h : TracksAt before few depth left reader) (hfew : ∀ w ∈ few, w ∈ words)
    (hlike : ∀ w ∈ words, BeginsLike before.unread w → w ∈ few) :
    TracksAt before words depth left reader where
  ok := by
    intro a after hok
    obtain ⟨hdepth, front, hunread, hleft, hsound, hcomplete⟩ := h.ok hok
    refine ⟨hdepth, front, hunread, hleft, fun w hw => hfew _ (hsound w hw), fun w hbegins hw => ?_⟩
    exact hcomplete w hbegins (hlike _ hw (hunread ▸ hbegins.append front))
  error := by
    intro fault after herror
    refine (h.error herror).imp_left fun ⟨front, back, hunread, hblamed, hviable, hlast⟩ => ?_
    refine ⟨front, back, hunread, hblamed, fun hfront => ?_, fun w hbegins hw => ?_⟩
    · obtain ⟨w, hw⟩ := hviable hfront
      exact ⟨w, hfew _ hw⟩
    · exact hlast w hbegins (hlike _ hw (hunread ▸ hbegins.append front))

end TracksAt

namespace Tracks

variable {words : Language Symbol} {depth deeper further : Int} {left : α → Language Symbol}
  {last : β → Language Symbol} {reader : Reader σ ε α}

theorem bind_given {next : α → Reader σ ε β} (h : Tracks depth words deeper left reader)
    (hnext : ∀ {a} {before after : Reading σ}, reader before = .ok a after →
      Tracks deeper (left a) further last (next a)) :
    Tracks depth words further last (reader >>= next) := by
  intro before hdepth hspelled
  refine (h before hdepth hspelled).bind fun a after hread hdeeper hsubset => ?_
  exact hnext hread after hdeeper fun token htoken => hspelled token (hsubset htoken)

theorem bind {next : α → Reader σ ε β} (h : Tracks depth words deeper left reader)
    (hnext : ∀ a, Tracks deeper (left a) further last (next a)) :
    Tracks depth words further last (reader >>= next) :=
  h.bind_given fun {a _ _} _ => hnext a

theorem pure (a : α) (h : ∃ w, w ∈ words) :
    Tracks depth words depth (fun _ => words) (Pure.pure a : Reader σ ε α) := by
  intro before hdepth _
  constructor
  · intro b after hok
    cases hok
    exact ⟨hdepth, .refl h rfl⟩
  · intro fault after herror
    cases herror

theorem ask {question : Reading σ → α} (h : ∃ w, w ∈ words) :
    Tracks depth words depth (fun _ => words) (Reader.ask question : Reader σ ε α) := by
  intro before hdepth _
  constructor
  · intro b after hok
    cases hok
    exact ⟨hdepth, .refl h rfl⟩
  · intro fault after herror
    cases herror

theorem report {meaning : Interpretation σ ε} {action : Action} {token : Option Token}
    (h : ∃ w, w ∈ words) :
    Tracks depth words depth (fun _ => words) (Reader.report meaning action token) := by
  intro before hdepth _
  constructor
  · intro u after hok
    have hpass := Reader.report_ok.1 hok
    refine ⟨?_, .refl h hpass.unread⟩
    rw [hpass.depth, openedBy_nil, Int.add_zero, hdepth]
  · intro fault after herror
    unfold Reader.report at herror
    split at herror
    · cases herror
    · cases herror
      exact Or.inr (.refused _ _)

/-- Where no word goes on with a token, a reader that takes one token stops there rightly. -/
theorem refutes_of_peek {take : Token → Option α} {error : SyntaxError} {before after : Reading σ}
    {fault : Fault ε} (hread : reader.Peeks take error) (herror : reader before = .error fault after)
    (hnil : [] ∉ words)
    (hnone : ∀ token ∈ before.unread, take token = none → ∀ w, token.symbol :: w ∉ words) :
    Refutes words before fault := by
  obtain ⟨unread, depth, state⟩ := before
  rw [hread] at herror
  cases unread with
  | nil =>
      cases herror
      refine .mk [] [] rfl rfl (fun h => absurd rfl h) fun w hlike hw => ?_
      rw [List.head?_eq_none_iff.1 hlike] at hw
      exact hnil hw
  | cons token rest =>
      cases htake : take token with
      | some a => simp [Reading.next?, htake] at herror
      | none =>
          simp only [Reading.next?, List.head?_cons, Option.bind_some, htake] at herror
          cases herror
          exact .of_next rfl rfl (hnone token List.mem_cons_self htake)

/-- A reader that takes one token goes on with the words behind its symbol. -/
theorem peek {take : Token → Option α} {error : SyntaxError} (hread : reader.Peeks take error)
    (hnil : [] ∉ words)
    (hsome : ∀ token a, token.Spelled → take token = some a → depth + token.nesting = deeper ∧
      (∃ w, w ∈ left a) ∧ ∀ w, token.symbol :: w ∈ words ↔ w ∈ left a)
    (hnone : ∀ token w, token.Spelled → take token = none → token.symbol :: w ∉ words) :
    Tracks depth words deeper left reader := by
  intro before hdepth hspelled
  constructor
  · intro a after hok
    obtain ⟨unread, _, state⟩ := before
    obtain rfl := hdepth
    rw [hread] at hok
    cases unread with
    | nil => cases hok
    | cons token rest =>
        cases htake : take token with
        | none => simp [Reading.next?, htake] at hok
        | some b =>
            simp only [Reading.next?, List.head?_cons, Option.bind_some, htake] at hok
            cases hok
            obtain ⟨hnesting, hleft, hiff⟩ := hsome token _ (hspelled token List.mem_cons_self) htake
            exact ⟨hnesting, .mk [token] rfl hleft (fun w => (hiff w).2) fun w _ => (hiff w).1⟩
  · intro fault after herror
    exact Or.inl (refutes_of_peek hread herror hnil fun token htoken htake w =>
      hnone token w (hspelled token htoken) htake)

theorem expect {kind : Token.Kind} (hkind : kind ≠ .cardinal) {error : SyntaxError}
    (hnesting : ∀ token : Token, token.kind = kind → depth + token.nesting = deeper)
    {later : Language Symbol} (hlater : ∃ w, w ∈ later) :
    Tracks depth (kindLetter kind * later) deeper (fun _ => later)
      (Reader.expect kind error : Reader σ ε Token) := by
  refine peek (Reader.expect_peeks kind error) nil_notMem_letter_mul (fun token a _ htake => ?_)
    fun token w _ htake hw => ?_
  · obtain ⟨htoken, -⟩ := Option.ite_none_right_eq_some.1 htake
    refine ⟨hnesting token htoken, hlater, fun w => ?_⟩
    rw [cons_mem_letter_mul]
    exact and_iff_right ((Token.symbol_eq_plain hkind).2 htoken)
  · have htoken := (Token.symbol_eq_plain hkind).1 (cons_mem_letter_mul.1 hw).1
    simp [htoken] at htake

/-- The reserved word of a field settles the words behind it. -/
theorem fieldKeyword {owner : Node.Kind} {body : Field → Language Symbol}
    (hbody : ∀ field, ∃ w, w ∈ body field) :
    Tracks depth (insideWords owner body) depth (fun found => body found.2)
      (Reader.fieldKeyword owner : Reader σ ε (Token × Field)) := by
  refine peek (Reader.fieldKeyword_peeks owner) (fun hw => ?_) (fun token found _ htake => ?_)
    fun token w _ htake hw => ?_
  · obtain ⟨word, field, rest, -, -, heq⟩ := mem_insideWords.1 hw
    cases heq
  · obtain ⟨field, hfind, rfl⟩ := Option.map_eq_some_iff.1 htake
    obtain ⟨word, hkind, hlookup⟩ := Field.find?_eq_some.1 hfind
    refine ⟨?_, hbody field, fun w => ?_⟩
    · rw [nesting_reserved hkind, Int.add_zero]
    · rw [(Token.symbol_eq_plain (by simp)).2 hkind, mem_insideWords]
      constructor
      · rintro ⟨word, found, rest, hfound, hrest, heq⟩
        cases heq
        rw [hlookup] at hfound
        cases hfound
        exact hrest
      · exact fun hw => ⟨word, field, w, hlookup, hw, rfl⟩
  · obtain ⟨word, field, rest, hlookup, -, heq⟩ := mem_insideWords.1 hw
    obtain ⟨hsymbol, -⟩ := List.cons.inj heq
    have hkind := (Token.symbol_eq_plain (by simp)).1 hsymbol
    rw [Field.find?_eq_some.2 ⟨word, hkind, hlookup⟩] at htake
    cases htake

/-- A reserved word that may be left out, where no other words begin with it. -/
theorem accept {word : Keyword} {later rest : Language Symbol} (hlater : ∃ w, w ∈ later)
    (hrest : ∃ w, w ∈ rest) (hother : ∀ w, .plain (.reserved word) :: w ∉ rest) :
    Tracks depth (rest + keywordLetter word * later) depth
      (fun found => if found then later else rest)
      (Reader.accept (.reserved word) : Reader σ ε Bool) := by
  intro before hdepth _
  have hword : ∀ {token : Token}, token.symbol = .plain (.reserved word) ↔
      token.kind = .reserved word := Token.symbol_eq_plain (by simp)
  constructor
  · intro found after hok
    cases found with
    | true =>
        obtain ⟨token, hkind, hpass⟩ := (Reader.accept_true .lenient (by simp)).1 hok
        refine ⟨?_, .mk [token] hpass.unread hlater (fun w hw => ?_) fun w _ hw => ?_⟩
        · rw [hpass.depth, hdepth, openedBy_cons, openedBy_nil, nesting_reserved hkind, Int.add_zero,
            Int.add_zero]
        · exact Or.inr (cons_mem_letter_mul.2 ⟨hword.2 hkind, hw⟩)
        · rcases hw with hw | hw
          · rw [symbols_cons, hword.2 hkind] at hw
            exact absurd hw (hother _)
          · exact (cons_mem_letter_mul.1 hw).2
    | false =>
        obtain ⟨hnext, hsame⟩ := (Reader.accept_false .lenient).1 hok
        obtain rfl := passes_nil.1 hsame
        refine ⟨hdepth, .mk [] rfl hrest (fun w hw => Or.inl hw) fun w hlike hw => ?_⟩
        rcases hw with hw | hw
        · exact hw
        · obtain ⟨w, -, rfl⟩ := mem_letter_mul.1 hw
          rw [hlike.isNext (by simp)] at hnext
          cases hnext
  · intro fault after herror
    unfold Reader.accept at herror
    split at herror <;> cases herror

end Tracks

namespace ReadsWords

variable {depth : Int} {words more : Language Symbol} {reader : Reader σ ε α}

theorem bind {next : α → Reader σ ε β} (h : ReadsWords depth words reader)
    (hmore : ∃ w, w ∈ more) (hnext : ∀ a, ReadsWords depth more (next a)) :
    ReadsWords depth (words * more) (reader >>= next) := by
  intro later hlater
  rw [mul_assoc]
  exact (h (exists_mem_mul hmore hlater)).bind fun a => hnext a hlater

/-- What reads nothing may be left out of account. -/
theorem bind_nothing {next : α → Reader σ ε β} (h : ReadsWords depth words reader)
    (hnext : ∀ a, ReadsWords depth 1 (next a)) : ReadsWords depth words (reader >>= next) := by
  have hbind := h.bind ⟨[], Language.nil_mem_one⟩ hnext
  rwa [mul_one] at hbind

theorem nothing (h : ∀ words : Language Symbol, (∃ w, w ∈ words) →
    Tracks depth words depth (fun _ => words) reader) : ReadsWords depth 1 reader := by
  intro later hlater
  rw [one_mul]
  exact h later hlater

theorem tracks (h : ReadsWords depth 1 reader) (hwords : ∃ w, w ∈ words) :
    Tracks depth words depth (fun _ => words) reader := by
  have htracks := h hwords
  rwa [one_mul] at htracks

theorem pure (a : α) : ReadsWords depth 1 (Pure.pure a : Reader σ ε α) :=
  nothing fun _ => Tracks.pure a

theorem report {meaning : Interpretation σ ε} {action : Action} {token : Option Token} :
    ReadsWords depth 1 (Reader.report meaning action token) :=
  nothing fun _ => Tracks.report

/-- A token that is no parenthesis. -/
theorem expect {kind : Token.Kind} (hkind : kind ≠ .cardinal)
    (hflat : kind ≠ .leftParen ∧ kind ≠ .rightParen) {error : SyntaxError} :
    ReadsWords depth (kindLetter kind) (Reader.expect kind error : Reader σ ε Token) := by
  intro later hlater
  refine Tracks.expect hkind (fun token htoken => ?_) hlater
  rw [nesting_of_ne (htoken ▸ hflat.1) (htoken ▸ hflat.2), Int.add_zero]

theorem expectName (kind : Node.Kind) :
    ReadsWords depth (kindLetter .identifier) (Reader.expectName kind : Reader σ ε Token) :=
  expect (by decide) (by decide)

/-- A word that is decoded is one of two. -/
theorem decode {value? : String → Option Bool} {word : Bool → Keyword} {error : SyntaxError}
    (hvalue : ∀ token : Token, token.Spelled → ∀ a,
      value? token.text = some a ↔ token.kind = .reserved (word a)) :
    ReadsWords depth (keywordLetter (word true) + keywordLetter (word false))
      (Reader.decode value? error : Reader σ ε Bool) := by
  intro later hlater
  rw [add_mul]
  -- Both words are such symbols, and there are no others.
  have hiff : ∀ (token : Token) (w : List Symbol), token.Spelled →
      (token.symbol :: w ∈ keywordLetter (word true) * later + keywordLetter (word false) * later ↔
        (∃ a, value? token.text = some a) ∧ w ∈ later) := by
    intro token w htoken
    have hsymbol : ∀ a, token.symbol = .plain (.reserved (word a)) ↔ value? token.text = some a :=
      fun a => (Token.symbol_eq_plain (by simp)).trans (hvalue token htoken a).symm
    rw [Language.mem_add, cons_mem_letter_mul, cons_mem_letter_mul, hsymbol, hsymbol,
      Bool.exists_bool, or_comm, or_and_right]
  refine Tracks.peek (Reader.decode_peeks value? error) ?_ (fun token a htoken htake => ?_)
    fun token w htoken htake hw => ?_
  · rw [Language.mem_add]
    exact not_or.2 ⟨nil_notMem_letter_mul, nil_notMem_letter_mul⟩
  · refine ⟨?_, hlater, fun w => ?_⟩
    · rw [nesting_reserved ((hvalue token htoken a).1 htake), Int.add_zero]
    · rw [hiff token w htoken]
      exact and_iff_right ⟨a, htake⟩
  · obtain ⟨⟨a, ha⟩, -⟩ := (hiff token w htoken).1 hw
    rw [htake] at ha
    cases ha

end ReadsWords
end ErDiagram
