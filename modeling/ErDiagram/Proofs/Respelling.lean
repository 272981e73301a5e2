import ErDiagram.Proofs.Corresponding
import ErDiagram.Proofs.Layout
import Mathlib.Logic.Equiv.Basic

/-!
Other words for the names in a source text. Names are replaced where they stand and all else is left
as it is. The new text is cut at the same places: what may go on a word or a literal is the same in
front of it and behind it, since one name differs from another only in the word characters that make
it up. So the compiler does the same on both texts, and its graph differs in the names only.
-/

namespace ErDiagram

/-! ### Names -/

instance (kind : Token.Kind) (text : List Char) : Decidable (IsToken kind text) :=
  match text with
  | [] => isFalse fun h => h.ne_nil rfl
  | c :: rest => decidable_of_iff (cutToken c rest = (kind, c :: rest, [])) <| by
      constructor
      · exact fun hcut => ⟨c, rest, rfl, hcut⟩
      · rintro ⟨_, _, heq, hcut⟩
        cases heq
        exact hcut

/-- The words that name things: neither reserved nor the sign for an upper bound. -/
abbrev Name : Type :=
  { word : String // IsToken .identifier word.toList }

/-- A replacement of names on all words. Words that name nothing are kept. -/
def Name.onWords (rename : Name → Name) (word : String) : String :=
  if h : IsToken .identifier word.toList then rename ⟨word, h⟩ else word

section

variable (rename : Name → Name)

theorem Name.onWords_of_isToken {word : String} (h : IsToken .identifier word.toList) :
    Name.onWords rename word = rename ⟨word, h⟩ :=
  dif_pos h

theorem Name.isToken_onWords {word : String} (h : IsToken .identifier word.toList) :
    IsToken .identifier (Name.onWords rename word).toList := by
  rw [Name.onWords_of_isToken rename h]
  exact (rename ⟨word, h⟩).2

variable {rename}

theorem Name.onWords_injective (h : Function.Injective rename) :
    Function.Injective (Name.onWords rename) := by
  intro word other heq
  by_cases hword : IsToken .identifier word.toList
  · by_cases hother : IsToken .identifier other.toList
    · rw [onWords_of_isToken rename hword, onWords_of_isToken rename hother] at heq
      exact congrArg Subtype.val (h (Subtype.ext heq))
    · have himage := isToken_onWords rename hword
      rw [heq, onWords, dif_neg hother] at himage
      exact absurd himage hother
  · by_cases hother : IsToken .identifier other.toList
    · have himage := isToken_onWords rename hother
      rw [← heq, onWords, dif_neg hword] at himage
      exact absurd himage hword
    · rwa [onWords, dif_neg hword, onWords, dif_neg hother] at heq

end

/-! ### The new text -/

/-- The text of a token after the replacement of names. -/
def respellToken (ρ : String → String) (kind : Token.Kind) (text : List Char) : List Char :=
  if kind = .identifier then (ρ (String.ofList text)).toList else text

/-- A text with its names replaced. The trivia between the tokens is kept. -/
def respell (ρ : String → String) (text : List Char) : List Char :=
  match _h : skipTrivia false 0 text with
  | (_, []) => text
  | (_, c :: rest) =>
    text.take (text.length - (c :: rest).length) ++
      (respellToken ρ (cutToken c rest).1 (cutToken c rest).2.1 ++
        respell ρ (cutToken c rest).2.2)
termination_by text.length
decreasing_by
  have hle := Lexer.length_skipTrivia_le false 0 text
  rw [_h] at hle
  exact Nat.lt_of_lt_of_le (Lexer.length_cutToken_lt c rest) hle

def respelled (rename : Name → Name) (source : String) : String :=
  String.ofList (respell (Name.onWords rename) source.toList)

/-! ### Trivia in front of a token -/

/-- The character starts neither a blank nor a comment. -/
def Stands (c : Char) : Prop :=
  isBlank c = false ∧ c ≠ ';'

theorem Stands.skipTrivia {c : Char} (h : Stands c) (offset : Nat) (rest : List Char) :
    skipTrivia false offset (c :: rest) = (offset, c :: rest) := by
  rw [ErDiagram.skipTrivia, if_neg (by decide), if_neg (by simp [h.1]), if_neg h.2]

theorem stands_of_isWordStart {c : Char} (h : isWordStart c) : Stands c := by
  constructor
  · rw [Bool.eq_false_iff]
    intro hblank
    simp only [isBlank, Bool.or_eq_true, decide_eq_true_eq] at hblank
    rcases hblank with ((rfl | rfl) | rfl) | rfl <;> exact absurd h (by decide)
  · rintro rfl
    exact absurd h (by decide)

/-- A comment at the front may be longer. -/
theorem IsTrivia.lengthen {c : Char} {text : List Char} (h : IsTrivia (';' :: text)) (hc : c ≠ '\n') :
    IsTrivia (';' :: c :: text) := by
  cases h with
  | blank hblank => exact absurd hblank (by decide)
  | comment htext hrest =>
      exact .comment (List.not_mem_cons_of_ne_of_not_mem (Ne.symm hc) htext) hrest

/-- What is skipped is trivia, and so is the rest of the comment that a text starts in. -/
theorem exists_trivia {inComment : Bool} {offset start : Nat} {c : Char} {text rest : List Char}
    (h : skipTrivia inComment offset text = (start, c :: rest)) :
    Stands c ∧ ∃ gap, text = gap ++ c :: rest ∧ IsTrivia (if inComment then ';' :: gap else gap) := by
  fun_induction skipTrivia inComment offset text with
  | case1 => cases h
  | case2 offset d text ih =>
      obtain ⟨hstands, gap, rfl, hgap⟩ := ih h
      refine ⟨hstands, d :: gap, rfl, ?_⟩
      by_cases hd : d = '\n'
      · subst hd
        exact .comment (List.not_mem_nil) hgap
      · rw [if_pos (decide_eq_true hd)] at hgap
        exact hgap.lengthen hd
  | case3 _ offset d text hin hblank ih =>
      obtain ⟨hstands, gap, rfl, hgap⟩ := ih h
      refine ⟨hstands, d :: gap, rfl, ?_⟩
      rw [if_neg hin]
      exact .blank hblank hgap
  | case4 _ offset text hin _ ih =>
      obtain ⟨hstands, gap, rfl, hgap⟩ := ih h
      refine ⟨hstands, ';' :: gap, rfl, ?_⟩
      rwa [if_neg hin]
  | case5 _ offset d text hin hblank hcomment =>
      cases h
      refine ⟨⟨Bool.eq_false_iff.2 hblank, hcomment⟩, [], rfl, ?_⟩
      rw [if_neg hin]
      exact .nil

/-- A text without tokens, or the trivia and the token at its front. -/
theorem front_cases (text : List Char) :
    (∀ offset, ∃ stop, skipTrivia false offset text = (stop, [])) ∨
      ∃ gap c rest, IsTrivia gap ∧ Stands c ∧ text = gap ++ c :: rest := by
  rcases hskip : skipTrivia false 0 text with ⟨start, _ | ⟨c, rest⟩⟩
  · refine Or.inl fun offset => ⟨start + offset, ?_⟩
    have hshift := skipTrivia_shift false 0 offset text
    rwa [hskip, Nat.zero_add] at hshift
  · obtain ⟨hstands, gap, htext, hgap⟩ := exists_trivia hskip
    exact Or.inr ⟨gap, c, rest, hgap, hstands, htext⟩

/-- Goes through a text token by token. -/
@[elab_as_elim]
theorem front_induction {motive : List Char → Prop}
    (trivia : ∀ text, (∀ offset, ∃ stop, skipTrivia false offset text = (stop, [])) → motive text)
    (token : ∀ gap c rest kind word after, IsTrivia gap → Stands c →
      cutToken c rest = (kind, word, after) → motive after → motive (gap ++ c :: rest))
    (text : List Char) : motive text := by
  induction hlength : text.length using Nat.strong_induction_on generalizing text with
  | _ length ih =>
  subst hlength
  rcases front_cases text with htrivia | ⟨gap, c, rest, hgap, hc, rfl⟩
  · exact trivia text htrivia
  rcases hcut : cutToken c rest with ⟨kind, word, after⟩
  refine token gap c rest kind word after hgap hc hcut (ih _ ?_ after rfl)
  have hlt := Lexer.length_cutToken_lt c rest
  rw [hcut] at hlt
  rw [List.length_append]
  exact Nat.lt_of_lt_of_le hlt (Nat.le_add_left _ _)

theorem skipTrivia_front {gap : List Char} (hgap : IsTrivia gap) {c : Char} (hc : Stands c)
    (offset : Nat) (rest : List Char) :
    skipTrivia false offset (gap ++ c :: rest) = (offset + (utf8Bytes gap).length, c :: rest) := by
  rw [hgap.skipTrivia_append, hc.skipTrivia]

section

variable (ρ : String → String)

theorem respell_of_trivia {text : List Char} {stop : Nat}
    (h : skipTrivia false 0 text = (stop, [])) : respell ρ text = text := by
  rw [respell]
  split
  · rfl
  · rename_i heq
    rw [h] at heq
    cases heq

theorem respell_front {gap : List Char} (hgap : IsTrivia gap) {c : Char} (hc : Stands c)
    {rest word after : List Char} {kind : Token.Kind} (hcut : cutToken c rest = (kind, word, after)) :
    respell ρ (gap ++ c :: rest) = gap ++ (respellToken ρ kind word ++ respell ρ after) := by
  have hskip := skipTrivia_front hgap hc 0 rest
  rw [respell]
  split
  · rename_i heq
    rw [hskip] at heq
    cases heq
  · rename_i heq
    rw [hskip] at heq
    cases heq
    rw [hcut, List.length_append, Nat.add_sub_cancel, List.take_left]

end

/-! ### What goes on a token -/

/-- Whether a colon stands here that joins a second bound to a first. -/
def joinsBound : List Char → Bool
  | ':' :: more => startsBound more
  | _ => false

/-- Two texts that go on, or break off, the same tokens. -/
structure Akin (text image : List Char) : Prop where
  word : image.head?.any isWordChar = text.head?.any isWordChar
  digit : image.head?.any Char.isDigit = text.head?.any Char.isDigit
  bound : startsBound image = startsBound text
  pair : joinsBound image = joinsBound text

theorem Akin.refl (text : List Char) : Akin text text :=
  ⟨rfl, rfl, rfl, rfl⟩

theorem joinsBound_cons {c : Char} (h : c ≠ ':') (rest : List Char) :
    joinsBound (c :: rest) = false := by
  unfold joinsBound
  split
  · rename_i heq
    exact absurd (List.cons.inj heq).1 h
  · rfl

theorem Breaks.akin {text image : List Char} (h : Breaks text) (h' : Breaks image) :
    Akin text image := by
  have hnone : ∀ {text : List Char}, Breaks text → text.head?.any isWordChar = false ∧
      text.head?.any Char.isDigit = false ∧ startsBound text = false ∧ joinsBound text = false := by
    intro text h
    refine ⟨?_, ?_, h.startsBound_append [], ?_⟩
    · exact (Option.any_eq_false _ _).2 fun c hc => (h c hc).1
    · exact (Option.any_eq_false _ _).2 fun c hc => not_isDigit_of_not_isWordChar (h c hc).1
    · cases text with
      | nil => rfl
      | cons c rest => exact joinsBound_cons (breaks_cons.1 h).2 rest
  obtain ⟨hword, hdigit, hbound, hpair⟩ := hnone h
  obtain ⟨hword', hdigit', hbound', hpair'⟩ := hnone h'
  exact ⟨hword'.trans hword.symm, hdigit'.trans hdigit.symm, hbound'.trans hbound.symm,
    hpair'.trans hpair.symm⟩

/-- Where a bound starts depends on what follows only for a letter. -/
theorem IsBound.startsBound_append_eq {bound : List Char} (h : IsBound bound) (rest : List Char) :
    ErDiagram.startsBound (bound ++ rest) =
      (bound.head?.any Char.isDigit || !(rest.head?.any isWordChar)) := by
  rcases h with rfl | rfl | ⟨hne, hdigits⟩
  · rfl
  · rfl
  · obtain ⟨c, more, rfl⟩ := List.exists_cons_of_ne_nil hne
    have hc : c.isDigit := hdigits c List.mem_cons_self
    simp [ErDiagram.startsBound, hc]

/-- No digit is left behind a bound. -/
theorem any_isDigit_cutBound {text : List Char} (h : startsBound text) :
    (cutBound text).2.head?.any Char.isDigit = false := by
  cases text with
  | nil => cases h
  | cons c rest =>
      by_cases hletter : c = 'n' ∨ c = 'N'
      · rw [cutBound_letter _ hletter]
        have hdigit : c.isDigit = false := by rcases hletter with rfl | rfl <;> decide
        have hrest : rest.head?.any isWordChar = false := by
          simpa [startsBound, hdigit, hletter] using h
        exact (Option.any_eq_false _ _).2 fun d hd =>
          not_isDigit_of_not_isWordChar ((Option.any_eq_false _ _).1 hrest d hd)
      · rw [cutBound_digits _ hletter]
        refine (Option.any_eq_false _ _).2 fun d hd => ?_
        have hhead := List.head?_dropWhile_not Char.isDigit (c :: rest)
        rw [hd] at hhead
        simpa using hhead

/-- A bound is cut off again in front of a text that goes on as the old one did. -/
theorem cutBound_recut {text image : List Char} (h : startsBound text)
    (hword : image.head?.any isWordChar = (cutBound text).2.head?.any isWordChar)
    (hdigit : image.head?.any Char.isDigit = (cutBound text).2.head?.any Char.isDigit) :
    startsBound ((cutBound text).1 ++ image) = true ∧
      cutBound ((cutBound text).1 ++ image) = ((cutBound text).1, image) := by
  obtain ⟨hsplit, hbound⟩ := isBound_cutBound h
  constructor
  · rw [hsplit] at h
    rw [hbound.startsBound_append_eq, hword, ← hbound.startsBound_append_eq]
    exact h
  · rw [any_isDigit_cutBound h] at hdigit
    exact hbound.cutBound_append image ((Option.any_eq_false _ _).1 hdigit)

theorem joinsBound_iff {text : List Char} :
    joinsBound text = true ↔ ∃ more, text = ':' :: more ∧ startsBound more = true := by
  constructor
  · intro h
    unfold joinsBound at h
    split at h
    · exact ⟨_, rfl, h⟩
    · cases h
  · rintro ⟨more, rfl, h⟩
    exact h

theorem cutCardinal_pair {text first more : List Char} (h : cutBound text = (first, ':' :: more))
    (hmore : startsBound more = true) :
    cutCardinal text = (first ++ ':' :: (cutBound more).1, (cutBound more).2) := by
  rw [cutCardinal, h]
  exact if_pos hmore

theorem cutCardinal_single {text : List Char} (h : joinsBound (cutBound text).2 = false) :
    cutCardinal text = cutBound text := by
  unfold cutCardinal
  generalize cutBound text = cut at h ⊢
  obtain ⟨first, rest⟩ := cut
  dsimp only at h ⊢
  split
  · exact if_neg (Bool.eq_false_iff.1 h)
  · rfl

/-- A literal is cut off again in front of a text that goes on as the old one did. -/
theorem cutCardinal_recut {text image : List Char} (h : startsBound text)
    (hakin : Akin (cutCardinal text).2 image) :
    startsBound ((cutCardinal text).1 ++ image) = true ∧
      cutCardinal ((cutCardinal text).1 ++ image) = ((cutCardinal text).1, image) := by
  cases hjoins : joinsBound (cutBound text).2 with
  | false =>
      rw [cutCardinal_single hjoins] at hakin ⊢
      obtain ⟨hstarts, hcut⟩ := cutBound_recut h hakin.word hakin.digit
      refine ⟨hstarts, ?_⟩
      rw [cutCardinal_single, hcut]
      rw [hcut]
      exact hakin.pair.trans hjoins
  | true =>
      obtain ⟨more, hcolon, hmore⟩ := joinsBound_iff.1 hjoins
      have hpair := cutCardinal_pair (Prod.ext rfl hcolon) hmore
      rw [hpair] at hakin ⊢
      obtain ⟨hstarts, hcut⟩ := cutBound_recut hmore hakin.word hakin.digit
      have hfirst : startsBound ((cutBound text).1 ++ ':' :: ((cutBound more).1 ++ image)) = true ∧
          cutBound ((cutBound text).1 ++ ':' :: ((cutBound more).1 ++ image)) =
            ((cutBound text).1, ':' :: ((cutBound more).1 ++ image)) :=
        cutBound_recut h (by rw [hcolon]; rfl) (by rw [hcolon]; rfl)
      rw [List.append_assoc, List.cons_append]
      refine ⟨hfirst.1, ?_⟩
      rw [cutCardinal_pair hfirst.2 hstarts, hcut]

/-- A word is cut off in front of whatever does not go on it. -/
theorem cutToken_word {c : Char} {tail rest : List Char} (hstart : isWordStart c)
    (htail : ∀ d ∈ tail, isWordChar d) (hbound : ¬startsBound (c :: tail))
    (hrest : rest.head?.any isWordChar = false) :
    cutToken c (tail ++ rest) =
      (Token.Kind.ofWord (String.ofList (c :: tail)), c :: tail, rest) := by
  have hparen := not_paren_of_isWordStart hstart
  have hhead := (Option.any_eq_false _ _).1 hrest
  have hnone : startsBound (c :: (tail ++ rest)) = startsBound (c :: tail) := by
    cases tail with
    | nil =>
        rw [List.nil_append, startsBound, hrest]
        rfl
    | cons d tail => rfl
  have htake : tail.takeWhile isWordChar = tail := List.takeWhile_eq_self_iff.2 htail
  have hdrop : tail.dropWhile isWordChar = [] := List.dropWhile_eq_nil_iff.2 htail
  rw [cutToken, if_neg hparen.1, if_neg hparen.2, if_neg (hnone ▸ hbound), if_pos hstart,
    takeWhile_append_of_head hhead, dropWhile_append_of_head hhead, htake, hdrop, List.nil_append]

theorem cutToken_cardinal {c : Char} {rest : List Char} (h : startsBound (c :: rest)) :
    cutToken c rest = (.cardinal, cutCardinal (c :: rest)) := by
  have hparen : c ≠ '(' ∧ c ≠ ')' := by
    constructor <;> rintro rfl <;> simp [startsBound] at h
  rw [cutToken, if_neg hparen.1, if_neg hparen.2, if_pos h]

/-- The kinds of token that whole words make. -/
def Token.Kind.isWord : Token.Kind → Bool
  | .identifier => true
  | .reserved _ => true
  | .leftParen => false
  | .rightParen => false
  | .cardinal => false
  | .endOfInput => false
  | .invalid => false

theorem isWord_ofWord (word : String) : (Token.Kind.ofWord word).isWord = true := by
  unfold Token.Kind.ofWord
  cases Keyword.ofWord? word <;> rfl

/-- What is cut off as a word. -/
theorem word_of_cutToken {c : Char} {rest text after : List Char} {kind : Token.Kind}
    (h : cutToken c rest = (kind, text, after)) (hkind : kind.isWord) :
    isWordStart c ∧ ¬startsBound (c :: rest) ∧ kind = Token.Kind.ofWord (String.ofList text) ∧
      text = c :: rest.takeWhile isWordChar ∧ after = rest.dropWhile isWordChar := by
  by_cases hbound : startsBound (c :: rest)
  · rw [cutToken_cardinal hbound] at h
    obtain ⟨rfl, -⟩ := Prod.mk.inj h
    cases hkind
  unfold cutToken at h
  rw [if_neg hbound] at h
  split_ifs at h with _ _ hstart
  · cases h
    cases hkind
  · cases h
    cases hkind
  · cases h
    exact ⟨hstart, hbound, rfl, rfl, rfl⟩
  · cases h
    cases hkind

/-- What a name or a reserved word is made of. -/
theorem IsToken.word {kind : Token.Kind} {c : Char} {tail : List Char}
    (h : IsToken kind (c :: tail)) (hkind : kind.isWord) :
    isWordStart c ∧ (∀ d ∈ tail, isWordChar d) ∧ ¬startsBound (c :: tail) ∧
      kind = Token.Kind.ofWord (String.ofList (c :: tail)) := by
  obtain ⟨d, rest, heq, hcut⟩ := h
  cases heq
  obtain ⟨hstart, hbound, hword, htail, -⟩ := word_of_cutToken hcut hkind
  exact ⟨hstart, List.takeWhile_eq_self_iff.1 (List.cons.inj htail).2.symm, hbound, hword⟩

/-- No word character is left behind a word. -/
theorem any_isWordChar_cutToken {c : Char} {rest text after : List Char} {kind : Token.Kind}
    (h : cutToken c rest = (kind, text, after)) (hkind : kind.isWord) :
    after.head?.any isWordChar = false := by
  obtain ⟨-, -, -, -, rfl⟩ := word_of_cutToken h hkind
  rw [Option.any_eq_false]
  intro d hd
  have hhead := List.head?_dropWhile_not isWordChar rest
  rw [hd] at hhead
  simpa using hhead

theorem startsBound_eq_cutToken (c : Char) (rest : List Char) :
    startsBound (c :: rest) = decide ((cutToken c rest).1 = .cardinal) := by
  by_cases hbound : startsBound (c :: rest)
  · rw [hbound, cutToken_cardinal hbound]
    rfl
  · rw [Bool.eq_false_iff.2 hbound, eq_comm, decide_eq_false_iff_not]
    unfold cutToken
    rw [if_neg hbound]
    split_ifs
    · exact nofun
    · exact nofun
    · intro hkind
      have hword := isWord_ofWord (String.ofList (c :: rest.takeWhile isWordChar))
      rw [show Token.Kind.ofWord _ = _ from hkind] at hword
      cases hword
    · exact nofun

theorem first_of_word {c : Char} {rest : List Char} (hstart : isWordStart c)
    (h : startsBound (c :: rest) = false) :
    isWordChar c = true ∧ c.isDigit = false ∧ c ≠ ':' := by
  refine ⟨?_, ?_, ?_⟩
  · rw [isWordChar, hstart]
    rfl
  · exact (Bool.or_eq_false_iff.1 h).1
  · rintro rfl
    exact absurd hstart (by decide)

/-- A token is cut off again in front of a text that goes on as the old one did. -/
theorem cutToken_recut {c : Char} {rest tail after image : List Char} {kind : Token.Kind}
    (h : cutToken c rest = (kind, c :: tail, after)) (hakin : Akin after image) :
    cutToken c (tail ++ image) = (kind, c :: tail, image) := by
  have htoken := (isToken_cutToken c rest).2
  rw [h] at htoken
  dsimp only at htoken
  by_cases hbound : startsBound (c :: rest)
  · rw [cutToken_cardinal hbound] at h
    obtain ⟨rfl, hcut⟩ := Prod.mk.inj h
    have hrecut := cutCardinal_recut hbound (by rw [hcut]; exact hakin)
    rw [hcut, List.cons_append] at hrecut
    rw [cutToken_cardinal hrecut.1, hrecut.2]
  by_cases hkind : kind.isWord
  · obtain ⟨hstart, htail, hone, hword⟩ := htoken.word hkind
    have hbreaks := hakin.word.trans (any_isWordChar_cutToken h hkind)
    rw [cutToken_word hstart htail hone hbreaks, ← hword]
  unfold cutToken at h
  rw [if_neg hbound] at h
  split_ifs at h with hopen hclose hstart
  · cases h
    rw [cutToken, if_pos hopen]
    rfl
  · cases h
    rw [cutToken, if_neg hopen, if_pos hclose]
    rfl
  · cases h
    exact absurd (isWord_ofWord _) hkind
  · cases h
    have hdigit : c.isDigit = false := by
      by_contra hdigit
      exact hbound (by simp [startsBound, hdigit])
    have hletter : c ≠ 'n' ∧ c ≠ 'N' := by
      constructor <;> rintro rfl <;> exact absurd (by decide) hstart
    have hnone : ¬startsBound (c :: image) := by simp [startsBound, hdigit, hletter]
    rw [List.nil_append, cutToken, if_neg hopen, if_neg hclose, if_neg hnone, if_neg hstart]

/-- Texts that start with tokens of the same kind are akin if what follows is, and if the first
characters differ only where both tokens are names. -/
theorem akin_of_cutToken {c d : Char} {rest word after tail image : List Char} {kind : Token.Kind}
    (hcut : cutToken c rest = (kind, word, after))
    (hcut' : cutToken d (tail ++ image) = (kind, d :: tail, image)) (hafter : Akin after image)
    (hhead : isWordStart c ∧ isWordStart d ∧ kind = .identifier ∨ d = c ∧ kind ≠ .identifier) :
    Akin (c :: rest) (d :: tail ++ image) := by
  have hbound : startsBound (d :: (tail ++ image)) = startsBound (c :: rest) := by
    rw [startsBound_eq_cutToken, startsBound_eq_cutToken, hcut, hcut']
  rw [List.cons_append]
  rcases hhead with ⟨hstart, hstart', rfl⟩ | ⟨rfl, -⟩
  · have hnone : startsBound (c :: rest) = false := by
      rw [startsBound_eq_cutToken, hcut]
      rfl
    obtain ⟨hword, hdigit, hcolon⟩ := first_of_word hstart hnone
    obtain ⟨hword', hdigit', hcolon'⟩ := first_of_word hstart' (hbound.trans hnone)
    refine ⟨hword'.trans hword.symm, hdigit'.trans hdigit.symm, hbound, ?_⟩
    rw [joinsBound_cons hcolon, joinsBound_cons hcolon']
  · refine ⟨rfl, rfl, hbound, ?_⟩
    by_cases hcolon : d = ':'
    · subst hcolon
      cases hcut
      cases hcut'
      exact hafter.bound
    · rw [joinsBound_cons hcolon, joinsBound_cons hcolon]

/-! ### The new text is cut at the same places -/

section

variable {ρ : String → String}
  (hρ : ∀ word : String, IsToken .identifier word.toList → IsToken .identifier (ρ word).toList)
include hρ

/-- The token at the front of a text is cut off the new text too, with its name replaced. -/
theorem cutToken_respell {c : Char} {rest text after : List Char} {kind : Token.Kind}
    (h : cutToken c rest = (kind, text, after)) (hakin : Akin after (respell ρ after)) :
    ∃ d tail, respellToken ρ kind text = d :: tail ∧
      cutToken d (tail ++ respell ρ after) = (kind, d :: tail, respell ρ after) ∧
        (isWordStart c ∧ isWordStart d ∧ kind = .identifier ∨ d = c ∧ kind ≠ .identifier) := by
  obtain ⟨hsplit, htoken⟩ := isToken_cutToken c rest
  rw [h] at hsplit htoken
  dsimp only at hsplit htoken
  obtain ⟨first, tail, rfl, -⟩ := id htoken
  obtain rfl := (List.cons.inj hsplit).1
  by_cases hkind : kind = .identifier
  · subst hkind
    have hname : IsToken .identifier (ρ (String.ofList (c :: tail))).toList :=
      hρ _ (by rwa [String.toList_ofList])
    obtain ⟨d, more, himage, -⟩ := id hname
    rw [himage] at hname
    obtain ⟨hstart, hmore, hone, hword⟩ := hname.word rfl
    have hbreaks := hakin.word.trans (any_isWordChar_cutToken h rfl)
    refine ⟨d, more, ?_, ?_, Or.inl ⟨(htoken.word rfl).1, hstart, rfl⟩⟩
    · rw [respellToken, if_pos rfl, himage]
    · rw [cutToken_word hstart hmore hone hbreaks, ← hword]
  · exact ⟨c, tail, if_neg hkind, cutToken_recut h hakin, Or.inr ⟨rfl, hkind⟩⟩

/-- What goes on a token in front of a text goes on it in front of the new text. -/
theorem akin_respell (text : List Char) : Akin text (respell ρ text) := by
  induction text using front_induction with
  | trivia text htrivia =>
      obtain ⟨stop, hskip⟩ := htrivia 0
      rw [respell_of_trivia ρ hskip]
      exact .refl text
  | token gap c rest kind word after hgap hc hcut hafter =>
      rw [respell_front ρ hgap hc hcut]
      by_cases hne : gap = []
      · subst hne
        obtain ⟨d, tail, himage, hcut', hhead⟩ := cutToken_respell hρ hcut hafter
        rw [himage]
        exact akin_of_cutToken hcut hcut' hafter hhead
      · exact (hgap.breaks hne _).akin (hgap.breaks hne _)

/-- The tokens of the new text are the old ones with their names replaced. -/
theorem scan_respell (text : List Char) (offset offset' : Nat) :
    List.Forall₂ (Token.Renamed ρ) (scan offset text) (scan offset' (respell ρ text)) := by
  induction text using front_induction generalizing offset offset' with
  | trivia text htrivia =>
      obtain ⟨_, hskip⟩ := htrivia 0
      obtain ⟨_, hskip₁⟩ := htrivia offset
      obtain ⟨_, hskip₂⟩ := htrivia offset'
      rw [respell_of_trivia ρ hskip, scan_of_skipTrivia_nil hskip₁, scan_of_skipTrivia_nil hskip₂]
      exact .nil
  | token gap c rest kind word after hgap hc hcut ih =>
      obtain ⟨d, tail, himage, hcut', hhead⟩ := cutToken_respell hρ hcut (akin_respell hρ after)
      have hd : Stands d := by
        rcases hhead with ⟨-, hstart, -⟩ | ⟨rfl, -⟩
        · exact stands_of_isWordStart hstart
        · exact hc
      rw [scan_of_skipTrivia_cons (skipTrivia_front hgap hc offset rest),
        respell_front ρ hgap hc hcut, himage, List.cons_append,
        scan_of_skipTrivia_cons (skipTrivia_front hgap hd offset' _), hcut, hcut']
      refine .cons ⟨rfl, fun hkind => ?_, fun hkind => ?_⟩ (ih _ _)
      · dsimp only at hkind ⊢
        rw [← himage, respellToken, if_pos hkind, String.ofList_toList]
      · dsimp only at hkind ⊢
        have hname : kind ≠ .identifier := by
          rcases hkind with rfl | rfl <;> exact nofun
        rw [← himage, respellToken, if_neg hname]

end

/-! ### Names are opaque -/

/-- The tokens of a source text whose names are replaced. -/
theorem tokens_respelled (rename : Name → Name) (source : String) :
    List.Forall₂ (Token.Renamed (Name.onWords rename)) (Lexer.tokens source)
      (Lexer.tokens (respelled rename source)) := by
  rw [tokens_eq, tokens_eq, respelled, String.toList_ofList]
  refine List.rel_append (scan_respell (fun _ => Name.isToken_onWords rename) _ 0 0) (.cons ?_ .nil)
  exact ⟨rfl, nofun, by rintro (hkind | hkind) <;> cases hkind⟩

/-- Names are opaque. If names are replaced by other names, different ones by different ones, then
either both source texts compile and the graphs differ in just these names, or both are rejected, with
diagnostics of the same classes about tokens with the same indices. -/
theorem compile_respelled {rename : Name → Name} (h : Function.Injective rename) (source : String) :
    (∃ graph, compile source = .ok graph ∧
      compile (respelled rename source) = .ok (graph.rename (Name.onWords rename))) ∨
    ∃ diagnostics others, compile source = .error (.rejected diagnostics) ∧
      compile (respelled rename source) = .error (.rejected others) ∧
        List.Forall₂ (fun diagnostic other => other.category = diagnostic.category ∧
          ∃ index, diagnostic.tokenIndex? source = some index ∧
            other.tokenIndex? (respelled rename source) = some index) diagnostics others := by
  rcases compile_matches (Name.onWords_injective h) (tokens_respelled rename source) with
    hok | ⟨diagnostics, others, hsource, hother, hmatches⟩
  · exact Or.inl hok
  · refine Or.inr ⟨diagnostics, others, hsource, hother, hmatches.imp fun _ _ hmatch => ?_⟩
    exact ⟨hmatch.category, hmatch.tokenIndex?⟩

theorem compile_respelled_swap :
    ∃ rename : Name → Name, Function.Injective rename ∧
    (respelled rename "(entity a (attr n1) (pk n1))" = "(entity n1 (attr a) (pk a))" ∧
      ∃ graph, compile "(entity a (attr n1) (pk n1))" = .ok graph ∧
        compile "(entity n1 (attr a) (pk a))" = .ok (graph.rename (Name.onWords rename))) ∧
    respelled rename "(entity a (pk n1)) 1n1:?" = "(entity n1 (pk a)) 1a:?" ∧
      ∃ diagnostics others, compile "(entity a (pk n1)) 1n1:?" = .error (.rejected diagnostics) ∧
        compile "(entity n1 (pk a)) 1a:?" = .error (.rejected others) ∧
          List.Forall₂ (fun diagnostic other => other.category = diagnostic.category ∧
            ∃ index, diagnostic.tokenIndex? "(entity a (pk n1)) 1n1:?" = some index ∧
              other.tokenIndex? "(entity n1 (pk a)) 1a:?" = some index) diagnostics others := by
  let rename : Name → Name := Equiv.swap ⟨"a", by decide⟩ ⟨"n1", by decide⟩
  have hinjective : Function.Injective rename := (Equiv.swap _ _).injective
  refine ⟨rename, hinjective, ?_, ?_⟩
  · have htext : respelled rename "(entity a (attr n1) (pk n1))" = "(entity n1 (attr a) (pk a))" := by
      decide +kernel
    have hok : compile "(entity a (attr n1) (pk n1))" = .ok
        ⟨[⟨.start, 0, "start", [1], none, none⟩, ⟨.entity, 1, "a", [2, 3], none, none⟩,
          ⟨.attribute, 2, "n1", [], none, none⟩, ⟨.primaryKey, 3, "3_pk", [2], none, none⟩],
          by decide⟩ := by
      decide +kernel
    have hcases := compile_respelled hinjective "(entity a (attr n1) (pk n1))"
    rw [htext] at hcases
    refine ⟨htext, hcases.resolve_right ?_⟩
    rintro ⟨diagnostics, others, hrejected, -⟩
    rw [hok] at hrejected
    cases hrejected
  · have htext : respelled rename "(entity a (pk n1)) 1n1:?" = "(entity n1 (pk a)) 1a:?" := by
      decide +kernel
    have hrejected : (compile "(entity a (pk n1)) 1n1:?").toOption = none := by
      decide +kernel
    have hcases := compile_respelled hinjective "(entity a (pk n1)) 1n1:?"
    rw [htext] at hcases
    refine ⟨htext, hcases.resolve_left ?_⟩
    rintro ⟨graph, hok, -⟩
    rw [hok] at hrejected
    cases hrejected

end ErDiagram
