import ErDiagram.Lexer
import Mathlib.Data.List.TakeWhile
import Mathlib.Tactic.SplitIfs

/-!
The tokens of a text as a function of the text and of the offset where it starts. The token that is
cut at a place is settled by the text up to the first character that can be no part of it, so what
stands behind a blank, a parenthesis or a comment never changes the tokens before it, and texts
that a line feed joins are cut one by one.
-/

namespace ErDiagram

/-- No token goes on into this text: it is empty, or starts with neither a word character nor a
colon. -/
def Breaks (text : List Char) : Prop :=
  ∀ c ∈ text.head?, isWordChar c = false ∧ c ≠ ':'

theorem breaks_nil : Breaks [] := by
  simp [Breaks]

theorem breaks_cons {c : Char} {text : List Char} :
    Breaks (c :: text) ↔ isWordChar c = false ∧ c ≠ ':' := by
  simp [Breaks]

theorem ne_of_isDigit {c d : Char} (hc : c.isDigit) (hd : d.isDigit = false) : c ≠ d := by
  rintro rfl
  rw [hc] at hd
  cases hd

theorem isDigit_of_mem_repr {n : Nat} {c : Char} (h : c ∈ n.repr.toList) : c.isDigit := by
  rw [Nat.toList_repr] at h
  exact Nat.isDigit_of_mem_toDigits (by decide : 0 < 10) (by decide) h

theorem not_isDigit_of_not_isWordChar {c : Char} (h : isWordChar c = false) : c.isDigit = false := by
  simp only [isWordChar, Bool.or_eq_false_iff] at h
  exact h.2

theorem not_letter_of_not_isWordChar {c : Char} (h : isWordChar c = false) : c ≠ 'n' ∧ c ≠ 'N' := by
  constructor <;> rintro rfl <;> exact absurd h (by decide)

/-! ### What follows a token -/

section Follow

variable {p : Char → Bool} {text rest : List Char}

theorem takeWhile_append_of_head (h : ∀ c ∈ rest.head?, p c = false) :
    (text ++ rest).takeWhile p = text.takeWhile p := by
  induction text with
  | nil =>
      cases rest with
      | nil => rfl
      | cons c rest => simp [h c (by simp)]
  | cons c text ih => simp only [List.cons_append, List.takeWhile_cons, ih]

theorem dropWhile_append_of_head (h : ∀ c ∈ rest.head?, p c = false) :
    (text ++ rest).dropWhile p = text.dropWhile p ++ rest := by
  induction text with
  | nil =>
      cases rest with
      | nil => rfl
      | cons c rest => simp [h c (by simp)]
  | cons c text ih =>
      simp only [List.cons_append, List.dropWhile_cons, ih]
      split <;> rfl

theorem Breaks.startsBound_append (h : Breaks rest) (text : List Char) :
    startsBound (text ++ rest) = startsBound text := by
  cases text with
  | nil =>
      cases rest with
      | nil => rfl
      | cons c rest =>
          obtain ⟨hc, -⟩ := breaks_cons.1 h
          simp [startsBound, not_isDigit_of_not_isWordChar hc, not_letter_of_not_isWordChar hc]
  | cons c text =>
      cases text with
      | cons d text => rfl
      | nil =>
          have hnone : rest.head?.any isWordChar = false := by
            rw [Option.any_eq_false]
            intro d hd
            simpa using (h d hd).1
          simp [startsBound, hnone]

theorem Breaks.cutBound_append (h : Breaks rest) (text : List Char) :
    cutBound (text ++ rest) = ((cutBound text).1, (cutBound text).2 ++ rest) := by
  have hdigit : ∀ c ∈ rest.head?, c.isDigit = false :=
    fun c hc => not_isDigit_of_not_isWordChar (h c hc).1
  cases text with
  | nil =>
      cases rest with
      | nil => rfl
      | cons c rest =>
          obtain ⟨hc, -⟩ := breaks_cons.1 h
          simp [cutBound, not_isDigit_of_not_isWordChar hc, not_letter_of_not_isWordChar hc]
  | cons c text =>
      simp only [List.cons_append, cutBound]
      split
      · rfl
      · rw [← List.cons_append, takeWhile_append_of_head hdigit, dropWhile_append_of_head hdigit]

theorem Breaks.cutCardinal_append (h : Breaks rest) (text : List Char) :
    cutCardinal (text ++ rest) = ((cutCardinal text).1, (cutCardinal text).2 ++ rest) := by
  unfold cutCardinal
  rw [h.cutBound_append]
  rcases cutBound text with ⟨first, after⟩
  cases after with
  | nil =>
      cases rest with
      | nil => rfl
      | cons d rest =>
          have hd : d ≠ ':' := (breaks_cons.1 h).2
          simp only [List.nil_append]
          split
          · rename_i heq
            exact absurd (List.cons.inj heq).1 hd
          · rfl
  | cons d after =>
      by_cases hd : d = ':'
      · subst hd
        simp only [List.cons_append, h.startsBound_append]
        split
        · rw [h.cutBound_append]
        · rfl
      · simp [hd]

/-- The token at the front of a text stays the same when a text that breaks it off is put behind. -/
theorem Breaks.cutToken_append (h : Breaks rest) (c : Char) (text : List Char) :
    cutToken c (text ++ rest) =
      ((cutToken c text).1, (cutToken c text).2.1, (cutToken c text).2.2 ++ rest) := by
  have hword : ∀ d ∈ rest.head?, isWordChar d = false := fun d hd => (h d hd).1
  have hstarts : startsBound (c :: (text ++ rest)) = startsBound (c :: text) :=
    h.startsBound_append (c :: text)
  have hcut := h.cutCardinal_append (c :: text)
  rw [List.cons_append] at hcut
  unfold cutToken
  rw [hstarts, hcut, takeWhile_append_of_head hword, dropWhile_append_of_head hword]
  split_ifs <;> rfl

end Follow

/-! ### Texts that are one token -/

/-- The texts that write one bound: a lone `n` or `N`, or digits. -/
def IsBound (text : List Char) : Prop :=
  text = ['n'] ∨ text = ['N'] ∨ text ≠ [] ∧ ∀ c ∈ text, c.isDigit

/-- The texts that write a bound, or two bounds joined by a colon. -/
def IsCardinal (text : List Char) : Prop :=
  IsBound text ∨ ∃ lower upper, text = lower ++ ':' :: upper ∧ IsBound lower ∧ IsBound upper

/-- The whole of a text is one token of a kind. -/
def IsToken (kind : Token.Kind) (text : List Char) : Prop :=
  ∃ c rest, text = c :: rest ∧ cutToken c rest = (kind, text, [])

theorem cutBound_letter {c : Char} (rest : List Char) (h : c = 'n' ∨ c = 'N') :
    cutBound (c :: rest) = ([c], rest) := by
  rcases h with rfl | rfl <;> rfl

theorem cutBound_digits {c : Char} (rest : List Char) (h : ¬(c = 'n' ∨ c = 'N')) :
    cutBound (c :: rest) =
      ((c :: rest).takeWhile Char.isDigit, (c :: rest).dropWhile Char.isDigit) := by
  rw [cutBound, if_neg (by simpa using h)]

theorem IsBound.cutBound_append {text : List Char} (h : IsBound text) (rest : List Char)
    (hrest : ∀ c ∈ rest.head?, c.isDigit = false) : cutBound (text ++ rest) = (text, rest) := by
  rcases h with rfl | rfl | ⟨hne, hdigits⟩
  · rfl
  · rfl
  · obtain ⟨c, more, rfl⟩ := List.exists_cons_of_ne_nil hne
    have hc : c.isDigit := hdigits c List.mem_cons_self
    have hletter : ¬(c = 'n' ∨ c = 'N') := by
      rintro (rfl | rfl) <;> exact absurd hc (by decide)
    have htake : ∀ d ∈ c :: more, Char.isDigit d = true := hdigits
    rw [List.cons_append, cutBound_digits _ hletter, ← List.cons_append,
      takeWhile_append_of_head hrest, dropWhile_append_of_head hrest,
      List.takeWhile_eq_self_iff.2 htake, List.dropWhile_eq_nil_iff.2 htake, List.nil_append]

theorem IsBound.startsBound_append {text : List Char} (h : IsBound text) (rest : List Char)
    (hrest : ∀ c ∈ rest.head?, isWordChar c = false) : startsBound (text ++ rest) := by
  have hnone : rest.head?.any isWordChar = false := by
    rw [Option.any_eq_false]
    intro c hc
    simpa using hrest c hc
  rcases h with rfl | rfl | ⟨hne, hdigits⟩
  · simp [startsBound, hnone]
  · simp [startsBound, hnone]
  · obtain ⟨c, more, rfl⟩ := List.exists_cons_of_ne_nil hne
    simp [startsBound, hdigits c List.mem_cons_self]

theorem IsBound.startsBound {text : List Char} (h : IsBound text) : startsBound text := by
  simpa using h.startsBound_append [] (by simp)

/-- Where a bound starts, one is cut, and no digit is left behind it. -/
theorem isBound_cutBound {text : List Char} (h : startsBound text) :
    text = (cutBound text).1 ++ (cutBound text).2 ∧ IsBound (cutBound text).1 := by
  cases text with
  | nil => simp [startsBound] at h
  | cons c rest =>
      by_cases hletter : c = 'n' ∨ c = 'N'
      · rw [cutBound_letter _ hletter]
        refine ⟨rfl, ?_⟩
        rcases hletter with rfl | rfl
        · exact Or.inl rfl
        · exact Or.inr (Or.inl rfl)
      · have hdigit : c.isDigit := by simpa [startsBound, hletter] using h
        rw [cutBound_digits _ hletter]
        refine ⟨List.takeWhile_append_dropWhile.symm, Or.inr (Or.inr ⟨?_, ?_⟩)⟩
        · simp [hdigit]
        · intro d hd
          exact List.mem_takeWhile_imp hd

theorem isCardinal_cutCardinal {text : List Char} (h : startsBound text) :
    text = (cutCardinal text).1 ++ (cutCardinal text).2 ∧ IsCardinal (cutCardinal text).1 := by
  obtain ⟨hsplit, hbound⟩ := isBound_cutBound h
  unfold cutCardinal
  rcases hcut : cutBound text with ⟨first, rest⟩
  rw [hcut] at hsplit hbound
  simp only at hsplit hbound
  simp only []
  split
  · rename_i more
    split
    · rename_i hmore
      obtain ⟨hsplit', hbound'⟩ := isBound_cutBound hmore
      refine ⟨?_, Or.inr ⟨first, (cutBound more).1, rfl, hbound, hbound'⟩⟩
      rw [List.append_assoc, List.cons_append, ← hsplit']
      exact hsplit
    · exact ⟨hsplit, Or.inl hbound⟩
  · exact ⟨hsplit, Or.inl hbound⟩

theorem IsCardinal.cutCardinal_eq {text : List Char} (h : IsCardinal text) :
    cutCardinal text = (text, []) := by
  rcases h with h | ⟨lower, upper, rfl, hlower, hupper⟩
  · have hcut := h.cutBound_append [] (by simp)
    rw [List.append_nil] at hcut
    rw [cutCardinal, hcut]
  · have hcolon : ∀ c ∈ (':' :: upper).head?, c.isDigit = false := by simp
    have hcut := hupper.cutBound_append [] (by simp)
    rw [List.append_nil] at hcut
    rw [cutCardinal, hlower.cutBound_append _ hcolon]
    simp only [hupper.startsBound, if_true, hcut]

theorem IsCardinal.startsBound {text : List Char} (h : IsCardinal text) : startsBound text := by
  rcases h with h | ⟨lower, upper, rfl, hlower, -⟩
  · exact h.startsBound
  · exact hlower.startsBound_append _ (by simp [isWordChar, isWordStart])

theorem IsCardinal.isToken {text : List Char} (h : IsCardinal text) : IsToken .cardinal text := by
  have hstarts := h.startsBound
  have hcut := h.cutCardinal_eq
  cases text with
  | nil => simp [ErDiagram.startsBound] at hstarts
  | cons c rest =>
      have hopen : c ≠ '(' ∧ c ≠ ')' := by
        constructor <;> rintro rfl <;> simp [ErDiagram.startsBound] at hstarts
      refine ⟨c, rest, rfl, ?_⟩
      rw [cutToken, if_neg hopen.1, if_neg hopen.2, if_pos hstarts, hcut]

theorem not_paren_of_isWordStart {c : Char} (h : isWordStart c) : c ≠ '(' ∧ c ≠ ')' := by
  constructor <;> rintro rfl <;> exact absurd h (by decide)

theorem isToken_word {c : Char} {rest : List Char} (hstart : isWordStart c)
    (hrest : ∀ d ∈ rest, isWordChar d) (hbound : ¬startsBound (c :: rest)) :
    IsToken (Token.Kind.ofWord (String.ofList (c :: rest))) (c :: rest) := by
  have hparen := not_paren_of_isWordStart hstart
  refine ⟨c, rest, rfl, ?_⟩
  rw [cutToken, if_neg hparen.1, if_neg hparen.2, if_neg hbound, if_pos hstart,
    List.takeWhile_eq_self_iff.2 hrest, List.dropWhile_eq_nil_iff.2 hrest]

theorem isToken_invalid {c : Char} (hopen : c ≠ '(') (hclose : c ≠ ')')
    (hdigit : c.isDigit = false) (hstart : isWordStart c = false) : IsToken .invalid [c] := by
  have hletter : c ≠ 'n' ∧ c ≠ 'N' := by
    constructor <;> rintro rfl <;> exact absurd hstart (by decide)
  refine ⟨c, [], rfl, ?_⟩
  simp [cutToken, hopen, hclose, startsBound, hdigit, hletter, hstart]

/-- What is cut off a text is its front, and that front on its own is cut the same way. -/
theorem isToken_cutToken (c : Char) (rest : List Char) :
    c :: rest = (cutToken c rest).2.1 ++ (cutToken c rest).2.2 ∧
      IsToken (cutToken c rest).1 (cutToken c rest).2.1 := by
  by_cases hopen : c = '('
  · subst hopen
    exact ⟨rfl, '(', [], rfl, rfl⟩
  by_cases hclose : c = ')'
  · subst hclose
    exact ⟨rfl, ')', [], rfl, rfl⟩
  rw [cutToken, if_neg hopen, if_neg hclose]
  by_cases hbound : startsBound (c :: rest)
  · obtain ⟨hsplit, hcardinal⟩ := isCardinal_cutCardinal hbound
    rw [if_pos hbound]
    exact ⟨hsplit, hcardinal.isToken⟩
  rw [if_neg hbound]
  by_cases hstart : isWordStart c
  · rw [if_pos hstart]
    refine ⟨by simp, isToken_word hstart (fun d hd => List.mem_takeWhile_imp hd) ?_⟩
    have hhead : (rest.takeWhile isWordChar).head?.any isWordChar = rest.head?.any isWordChar := by
      rw [List.head?_takeWhile]
      cases rest.head? with
      | none => rfl
      | some d => by_cases hd : isWordChar d <;> simp [hd]
    rw [startsBound, hhead]
    exact hbound
  · rw [if_neg hstart]
    have hdigit : c.isDigit = false := by
      by_contra hdigit
      exact hbound (by simp [startsBound, hdigit])
    exact ⟨rfl, isToken_invalid hopen hclose hdigit (by simpa using hstart)⟩

theorem IsToken.ne_nil {kind : Token.Kind} {text : List Char} (h : IsToken kind text) :
    text ≠ [] := by
  obtain ⟨c, rest, rfl, -⟩ := h
  exact List.cons_ne_nil c rest

theorem IsToken.unique {kind kind' : Token.Kind} {text : List Char} (h : IsToken kind text)
    (h' : IsToken kind' text) : kind = kind' := by
  obtain ⟨c, rest, rfl, hcut⟩ := h
  obtain ⟨d, more, heq, hcut'⟩ := h'
  cases heq
  rw [hcut] at hcut'
  exact (Prod.mk.inj hcut').1

/-- A text that is one token is cut off whatever breaks it off. -/
theorem IsToken.cutToken_append {kind : Token.Kind} {c : Char} {text rest : List Char}
    (h : IsToken kind (c :: text)) (hrest : Breaks rest) :
    cutToken c (text ++ rest) = (kind, c :: text, rest) := by
  obtain ⟨d, more, heq, hcut⟩ := h
  cases heq
  rw [hrest.cutToken_append, hcut, List.nil_append]

/-! ### All tokens of a text -/

/-- The tokens of a text that starts at an offset, without the end of input. -/
def scan (offset : Nat) (text : List Char) : List Token :=
  match _h : skipTrivia false offset text with
  | (_, []) => []
  | (start, c :: rest) =>
    ⟨(cutToken c rest).1, String.ofList (cutToken c rest).2.1, start⟩ ::
      scan (start + (utf8Bytes (cutToken c rest).2.1).length) (cutToken c rest).2.2
termination_by text.length
decreasing_by
  have hle := Lexer.length_skipTrivia_le false offset text
  rw [_h] at hle
  exact Nat.lt_of_lt_of_le (Lexer.length_cutToken_lt c rest) hle

theorem scan_of_skipTrivia_nil {offset stop : Nat} {text : List Char}
    (h : skipTrivia false offset text = (stop, [])) : scan offset text = [] := by
  rw [scan]
  split
  · rfl
  · rename_i heq
    rw [h] at heq
    cases heq

theorem scan_of_skipTrivia_cons {offset start : Nat} {c : Char} {text rest : List Char}
    (h : skipTrivia false offset text = (start, c :: rest)) :
    scan offset text =
      ⟨(cutToken c rest).1, String.ofList (cutToken c rest).2.1, start⟩ ::
        scan (start + (utf8Bytes (cutToken c rest).2.1).length) (cutToken c rest).2.2 := by
  rw [scan]
  split
  · rename_i heq
    rw [h] at heq
    cases heq
  · rename_i heq
    rw [h] at heq
    cases heq
    rfl

/-- The trivia that is skipped and the rest together are as long as the text. -/
theorem offset_skipTrivia (inComment : Bool) (offset : Nat) (text : List Char) :
    offset ≤ (skipTrivia inComment offset text).1 ∧
      (skipTrivia inComment offset text).1 +
        (utf8Bytes (skipTrivia inComment offset text).2).length =
          offset + (utf8Bytes text).length := by
  fun_induction skipTrivia inComment offset text with
  | case1 => exact ⟨Nat.le_refl _, rfl⟩
  | case2 offset c rest ih | case3 offset c rest _ ih | case4 offset c rest _ ih =>
      rw [utf8Bytes_cons, List.length_append, String.length_utf8EncodeChar]
      omega
  | case5 => exact ⟨Nat.le_refl _, rfl⟩

theorem offset_cutToken (start : Nat) (c : Char) (rest : List Char) :
    start < start + (utf8Bytes (cutToken c rest).2.1).length ∧
      start + (utf8Bytes (cutToken c rest).2.1).length +
        (utf8Bytes (cutToken c rest).2.2).length = start + (utf8Bytes (c :: rest)).length := by
  obtain ⟨hsplit, htoken⟩ := isToken_cutToken c rest
  have hbytes : (utf8Bytes (c :: rest)).length =
      (utf8Bytes (cutToken c rest).2.1).length + (utf8Bytes (cutToken c rest).2.2).length := by
    rw [← List.length_append, ← utf8Bytes_append, ← hsplit]
  obtain ⟨d, more, hd⟩ := List.exists_cons_of_ne_nil htoken.ne_nil
  have hpos : 0 < (utf8Bytes (cutToken c rest).2.1).length := by
    rw [hd, utf8Bytes_cons, List.length_append, String.length_utf8EncodeChar]
    exact Nat.lt_of_lt_of_le d.utf8Size_pos (Nat.le_add_right _ _)
  omega

/-- The answer of a lexer whose unread text is trivia. -/
theorem nextToken_of_skipTrivia_nil {lexer : Lexer} {stop : Nat}
    (h : skipTrivia false lexer.offset lexer.unread = (stop, [])) :
    lexer.nextToken.1 =
      ⟨.endOfInput, "", lexer.offset + (utf8Bytes lexer.unread).length⟩ := by
  have hoffset := (offset_skipTrivia false lexer.offset lexer.unread).2
  rw [h] at hoffset
  rw [Lexer.nextToken, h, ← hoffset]
  rfl

theorem nextToken_of_skipTrivia_cons {lexer : Lexer} {start : Nat} {c : Char} {rest : List Char}
    (h : skipTrivia false lexer.offset lexer.unread = (start, c :: rest)) :
    lexer.nextToken =
      (⟨(cutToken c rest).1, String.ofList (cutToken c rest).2.1, start⟩,
        { lexer with
          unread := (cutToken c rest).2.2
          offset := start + (utf8Bytes (cutToken c rest).2.1).length }) := by
  rw [Lexer.nextToken, h]

theorem kind_cutToken_ne_endOfInput (c : Char) (rest : List Char) :
    (cutToken c rest).1 ≠ .endOfInput := by
  unfold cutToken
  split_ifs <;> simp [Token.Kind.ofWord]
  split <;> simp

/-- What the lexer answers from any state on is what its unread text is cut into. -/
theorem tokensOnto_eq (found : List Token) (lexer : Lexer) :
    Lexer.tokensOnto found lexer =
      found.reverse ++ scan lexer.offset lexer.unread ++
        [⟨.endOfInput, "", lexer.offset + (utf8Bytes lexer.unread).length⟩] := by
  fun_induction Lexer.tokensOnto found lexer with
  | case1 found lexer hend =>
      rcases hskip : skipTrivia false lexer.offset lexer.unread with ⟨start, _ | ⟨c, rest⟩⟩
      · rw [scan_of_skipTrivia_nil hskip, nextToken_of_skipTrivia_nil hskip]
        simp
      · rw [nextToken_of_skipTrivia_cons hskip] at hend
        exact absurd hend (kind_cutToken_ne_endOfInput c rest)
  | case2 found lexer hend ih =>
      rcases hskip : skipTrivia false lexer.offset lexer.unread with ⟨start, _ | ⟨c, rest⟩⟩
      · rw [nextToken_of_skipTrivia_nil hskip] at hend
        exact absurd rfl hend
      · have hoffset := (offset_skipTrivia false lexer.offset lexer.unread).2
        rw [hskip] at hoffset
        rw [ih, nextToken_of_skipTrivia_cons hskip, scan_of_skipTrivia_cons hskip,
          (offset_cutToken start c rest).2, hoffset]
        simp

/-- The tokens of a source text are what it is cut into, and the end of input. -/
theorem tokens_eq (source : String) :
    Lexer.tokens source =
      scan 0 source.toList ++ [⟨.endOfInput, "", (utf8Bytes source.toList).length⟩] := by
  rw [Lexer.tokens, tokensOnto_eq]
  simp [Lexer.ofSource]

/-! ### In front of a lexer -/

namespace Lexer

/-- The tokens in front of a lexer, but for the end of input. -/
def tokensLeft (lexer : Lexer) : List Token :=
  scan lexer.offset lexer.unread

def endToken (lexer : Lexer) : Token :=
  ⟨.endOfInput, "", lexer.offset + (utf8Bytes lexer.unread).length⟩

/-- The next token is the first one in front of the lexer, and the end of input if there is none. It is
passed over, and the end of input stays where it is. -/
theorem nextToken_cases (lexer : Lexer) :
    (lexer.tokensLeft = lexer.nextToken.1 :: lexer.nextToken.2.tokensLeft ∨
        lexer.tokensLeft = [] ∧ lexer.nextToken.1 = lexer.endToken ∧
          lexer.nextToken.2.tokensLeft = []) ∧
      lexer.nextToken.2.endToken = lexer.endToken := by
  have hoffset := (offset_skipTrivia false lexer.offset lexer.unread).2
  rcases hskip : skipTrivia false lexer.offset lexer.unread with ⟨start, _ | ⟨c, rest⟩⟩
  · have hstate : lexer.nextToken.2 = { lexer with unread := [], offset := start } := by
      rw [nextToken, hskip]
    rw [hskip] at hoffset
    have hend : lexer.nextToken.2.endToken = lexer.endToken := by
      rw [hstate, endToken, endToken, ← hoffset]
    refine ⟨Or.inr ⟨scan_of_skipTrivia_nil hskip, nextToken_of_skipTrivia_nil hskip, ?_⟩, hend⟩
    rw [hstate]
    exact scan_of_skipTrivia_nil rfl
  · rw [hskip] at hoffset
    have hcut := (offset_cutToken start c rest).2
    rw [nextToken_of_skipTrivia_cons hskip]
    refine ⟨Or.inl (scan_of_skipTrivia_cons hskip), ?_⟩
    rw [endToken, endToken, ← hoffset, ← hcut]

/-- Reading tokens one by one changes neither the source text nor whether the iterator is finished. -/
theorem nextToken_unchanged (lexer : Lexer) :
    lexer.nextToken.2.source = lexer.source ∧ lexer.nextToken.2.finished = lexer.finished := by
  unfold nextToken
  split <;> exact ⟨rfl, rfl⟩

end Lexer

/-! ### Tokens in order -/

/-- Every token of a text is one token on its own and starts inside the text. -/
theorem mem_scan {offset : Nat} {text : List Char} {token : Token} (h : token ∈ scan offset text) :
    IsToken token.kind token.text.toList ∧ token.kind ≠ .endOfInput ∧
      offset ≤ token.offset ∧ token.offset < offset + (utf8Bytes text).length := by
  fun_induction scan offset text with
  | case1 => cases h
  | case2 offset text start c rest hskip ih =>
      have hskipped := offset_skipTrivia false offset text
      rw [hskip] at hskipped
      dsimp only at hskipped
      have hcut := offset_cutToken start c rest
      rcases List.mem_cons.1 h with rfl | h
      · refine ⟨?_, kind_cutToken_ne_endOfInput c rest, hskipped.1, by dsimp only; omega⟩
        rw [String.toList_ofList]
        exact (isToken_cutToken c rest).2
      · obtain ⟨htoken, hkind, hlow, hhigh⟩ := ih h
        exact ⟨htoken, hkind, by omega, by omega⟩

/-- The tokens of a text come one behind the other. -/
theorem pairwise_scan (offset : Nat) (text : List Char) :
    (scan offset text).Pairwise (·.offset < ·.offset) := by
  fun_induction scan offset text with
  | case1 => exact List.Pairwise.nil
  | case2 offset text start c rest hskip ih =>
      refine List.pairwise_cons.2 ⟨fun token htoken => ?_, ih⟩
      have hlow := (mem_scan htoken).2.2.1
      have hcut := (offset_cutToken start c rest).1
      dsimp only
      omega

theorem skipTrivia_shift (inComment : Bool) (offset by' : Nat) (text : List Char) :
    skipTrivia inComment (offset + by') text =
      ((skipTrivia inComment offset text).1 + by', (skipTrivia inComment offset text).2) := by
  fun_induction skipTrivia inComment offset text with
  | case1 => rfl
  | case2 offset c rest ih => rw [skipTrivia, if_pos rfl, ← ih, Nat.add_right_comm]
  | case3 _ offset c rest hin hblank ih =>
      rw [skipTrivia, if_neg hin, if_pos hblank, ← ih, Nat.add_right_comm]
  | case4 _ offset rest hin hblank ih =>
      rw [skipTrivia, if_neg hin, if_neg hblank, if_pos rfl, ← ih,
        Nat.add_right_comm]
  | case5 _ offset c rest hin hblank hcomment =>
      rw [skipTrivia, if_neg hin, if_neg hblank, if_neg hcomment]

/-- A token that stands further behind. -/
def Token.shift (token : Token) (by' : Nat) : Token :=
  { token with offset := token.offset + by' }

theorem scan_shift (offset by' : Nat) (text : List Char) :
    scan (offset + by') text = (scan offset text).map (·.shift by') := by
  fun_induction scan offset text with
  | case1 offset text start hskip =>
      have hshift := skipTrivia_shift false offset by' text
      rw [hskip] at hshift
      rw [scan_of_skipTrivia_nil hshift]
      rfl
  | case2 offset text start c rest hskip ih =>
      have hshift := skipTrivia_shift false offset by' text
      rw [hskip] at hshift
      rw [scan_of_skipTrivia_cons hshift, List.map_cons, ← ih, Nat.add_right_comm]
      rfl

/-! ### Texts behind one another -/

/-- Trivia in front of a line feed ends with it; other text is left in front of it. -/
theorem skipTrivia_append_newline (inComment : Bool) (offset : Nat) (text rest : List Char) :
    skipTrivia inComment offset (text ++ '\n' :: rest) =
      match skipTrivia inComment offset text with
      | (stop, []) => skipTrivia false (stop + 1) rest
      | (start, c :: more) => (start, c :: more ++ '\n' :: rest) := by
  fun_induction skipTrivia inComment offset text with
  | case1 inComment offset =>
      cases inComment <;> rfl
  | case2 offset c text ih => rw [List.cons_append, skipTrivia, if_pos rfl, ih]
  | case3 _ offset c text hin hblank ih =>
      rw [List.cons_append, skipTrivia, if_neg hin, if_pos hblank, ih]
  | case4 _ offset text hin hblank ih =>
      rw [List.cons_append, skipTrivia, if_neg hin, if_neg hblank, if_pos rfl, ih]
  | case5 _ offset c text hin hblank hcomment =>
      rw [List.cons_append, skipTrivia, if_neg hin, if_neg hblank,
        if_neg hcomment]
      rfl

theorem breaks_newline (rest : List Char) : Breaks ('\n' :: rest) :=
  breaks_cons.2 ⟨by decide, by decide⟩

/-- A line feed parts what stands before it from what follows. -/
theorem scan_append_newline (offset : Nat) (text rest : List Char) :
    scan offset (text ++ '\n' :: rest) =
      scan offset text ++ scan (offset + (utf8Bytes text).length + 1) rest := by
  fun_induction scan offset text with
  | case1 offset text stop hskip =>
      have hoffset := (offset_skipTrivia false offset text).2
      rw [hskip] at hoffset
      have happend := skipTrivia_append_newline false offset text rest
      rw [hskip] at happend
      simp only [utf8Bytes_nil, List.length_nil, Nat.add_zero] at hoffset
      rw [← hoffset, List.nil_append]
      rcases hrest : skipTrivia false (stop + 1) rest with ⟨start, _ | ⟨c, more⟩⟩
      · rw [scan_of_skipTrivia_nil (happend.trans hrest), scan_of_skipTrivia_nil hrest]
      · rw [scan_of_skipTrivia_cons (happend.trans hrest), scan_of_skipTrivia_cons hrest]
  | case2 offset text start c more hskip ih =>
      have hoffset := (offset_skipTrivia false offset text).2
      rw [hskip] at hoffset
      have happend := skipTrivia_append_newline false offset text rest
      rw [hskip] at happend
      have hcut := (breaks_newline rest).cutToken_append c more
      rw [@scan_of_skipTrivia_cons _ _ c _ (more ++ '\n' :: rest) happend, hcut, ih,
        (offset_cutToken start c more).2, hoffset]
      rfl

end ErDiagram
