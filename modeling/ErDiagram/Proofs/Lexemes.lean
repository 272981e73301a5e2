import ErDiagram.Proofs.Pointing

/-!
The rules for the texts of tokens, stated without the lexer. A token is as long as they allow, so a
rule speaks of the text behind a token as well: digits end where no digit follows, a lone letter and
a word where no word goes on, and a bound on its own where no colon joins another one. Wherever a
token can start, the rules allow exactly one, and this is the one that the lexer answers.
-/

namespace ErDiagram

/-! ### The rules -/

/-- A bound stands in front of a text: digits that no digit follows, or a lone letter that no word
goes on from. -/
inductive BoundBefore : List Char → List Char → Prop where
  | digits {bound after : List Char} (hne : bound ≠ []) (hdigits : ∀ c ∈ bound, c.isDigit)
    (hend : ∀ d ∈ after.head?, d.isDigit = false) : BoundBefore bound after
  | letter {c : Char} {after : List Char} (hletter : c = 'n' ∨ c = 'N')
    (hend : ∀ d ∈ after.head?, isWordChar d = false) : BoundBefore [c] after

/-- A colon and one more bound stand at the front of a text. -/
def JoinsBound (text : List Char) : Prop :=
  ∃ upper after, text = ':' :: (upper ++ after) ∧ BoundBefore upper after

/-- A word, given by its first character and the rest of it, stands in front of a text: it goes on
to the last word character there, and it is not the lone letter that makes a bound. -/
structure WordBefore (c : Char) (tail after : List Char) : Prop where
  start : isWordStart c
  inside : ∀ d ∈ tail, isWordChar d
  ends : ∀ d ∈ after.head?, isWordChar d = false
  no_bound : tail = [] → c ≠ 'n' ∧ c ≠ 'N'

/-- The rules: what a token of a kind is written with in front of a text. -/
inductive TokenBefore : Token.Kind → List Char → List Char → Prop where
  | leftParen (after : List Char) : TokenBefore .leftParen ['('] after
  | rightParen (after : List Char) : TokenBefore .rightParen [')'] after
  | single {bound after : List Char} (hbound : BoundBefore bound after)
    (halone : ¬JoinsBound after) : TokenBefore .cardinal bound after
  | pair {lower upper after : List Char} (hlower : BoundBefore lower (':' :: (upper ++ after)))
    (hupper : BoundBefore upper after) : TokenBefore .cardinal (lower ++ ':' :: upper) after
  | identifier {c : Char} {tail after : List Char} (hword : WordBefore c tail after)
    (hfree : ∀ keyword : Keyword, keyword.isSpelled (String.ofList (c :: tail)) = false) :
    TokenBefore .identifier (c :: tail) after
  | reserved {c : Char} {tail after : List Char} {keyword : Keyword}
    (hword : WordBefore c tail after)
    (hspelled : keyword.isSpelled (String.ofList (c :: tail))) :
    TokenBefore (.reserved keyword) (c :: tail) after
  | invalid {c : Char} (after : List Char) (hstands : Stands c) (hparen : c ≠ '(' ∧ c ≠ ')')
    (hstart : isWordStart c = false) (hdigit : c.isDigit = false) : TokenBefore .invalid [c] after

/-! ### Bounds -/

section Bounds

variable {text bound after : List Char}

theorem BoundBefore.isBound (h : BoundBefore bound after) : IsBound bound := by
  cases h with
  | digits hne hdigits => exact Or.inr (Or.inr ⟨hne, hdigits⟩)
  | letter hletter =>
      rcases hletter with rfl | rfl
      · exact Or.inl rfl
      · exact Or.inr (Or.inl rfl)

theorem BoundBefore.startsBound (h : BoundBefore bound after) : startsBound (bound ++ after) := by
  cases h with
  | @digits bound after hne hdigits =>
      obtain ⟨c, more, rfl⟩ := List.exists_cons_of_ne_nil hne
      simp [ErDiagram.startsBound, hdigits c List.mem_cons_self]
  | letter hletter hend =>
      have hnone : after.head?.any isWordChar = false :=
        (Option.any_eq_false _ _).2 fun d hd => by simpa using hend d hd
      rcases hletter with rfl | rfl <;> simp [ErDiagram.startsBound, hnone]

theorem BoundBefore.cutBound (h : BoundBefore bound after) :
    cutBound (bound ++ after) = (bound, after) := by
  apply h.isBound.cutBound_append
  cases h with
  | digits _ _ hend => exact hend
  | letter _ hend => exact fun d hd => not_isDigit_of_not_isWordChar (hend d hd)

/-- Where a bound starts, one stands in front of what is left. -/
theorem boundBefore_cutBound (h : startsBound text) :
    BoundBefore (cutBound text).1 (cutBound text).2 := by
  cases text with
  | nil => cases h
  | cons c rest =>
      by_cases hletter : c = 'n' ∨ c = 'N'
      · rw [cutBound_letter _ hletter]
        have hdigit : c.isDigit = false := by rcases hletter with rfl | rfl <;> decide
        have hrest : rest.head?.any isWordChar = false := by
          simpa [startsBound, hdigit, hletter] using h
        exact .letter hletter fun d hd => by simpa using (Option.any_eq_false _ _).1 hrest d hd
      · have hdigits := any_isDigit_cutBound h
        have hdigit : c.isDigit := by simpa [startsBound, hletter] using h
        rw [cutBound_digits _ hletter] at hdigits ⊢
        refine .digits (by simp [hdigit]) (fun d hd => List.mem_takeWhile_imp hd) fun d hd => ?_
        simpa using (Option.any_eq_false _ _).1 hdigits d hd

theorem joinsBound_eq_true_iff : joinsBound text = true ↔ JoinsBound text := by
  rw [joinsBound_iff]
  constructor
  · rintro ⟨more, rfl, hmore⟩
    exact ⟨_, _, congrArg _ (isBound_cutBound hmore).1, boundBefore_cutBound hmore⟩
  · rintro ⟨upper, after, rfl, hupper⟩
    exact ⟨_, rfl, hupper.startsBound⟩

end Bounds

/-! ### Words -/

theorem isAlpha_iff {c : Char} :
    c.isAlpha ↔ 65 ≤ c.val ∧ c.val ≤ 90 ∨ 97 ≤ c.val ∧ c.val ≤ 122 := by
  have hranges : c.isAlpha =
      (decide (65 ≤ c.val ∧ c.val ≤ 90) || decide (97 ≤ c.val) && decide (c.val ≤ 122)) := rfl
  rw [hranges]
  simp

/-- No character starts a word and is a digit. -/
theorem isDigit_of_isWordStart {c : Char} (h : isWordStart c) : c.isDigit = false := by
  simp only [isWordStart, Bool.or_eq_true, decide_eq_true_eq, isAlpha_iff] at h
  rcases h with (h | rfl) | rfl
  · simp only [Char.isDigit, Bool.and_eq_false_iff, decide_eq_false_iff_not]
    grind
  · decide
  · decide

namespace Keyword

/-- No word spells two reserved words. -/
theorem eq_of_isSpelled {keyword other : Keyword} {word : String} (h : keyword.isSpelled word)
    (hother : other.isSpelled word) : keyword = other := by
  have hdisjoint : ∀ keyword ∈ all, ∀ other ∈ all, ∀ word ∈ keyword.spellings.1 :: keyword.spellings.2,
      other.isSpelled word → keyword = other := by
    decide
  refine hdisjoint keyword (mem_all _) other (mem_all _) word ?_ hother
  simpa [isSpelled] using h

theorem ofWord?_eq_some_iff {word : String} {keyword : Keyword} :
    ofWord? word = some keyword ↔ keyword.isSpelled word := by
  refine ⟨isSpelled_of_ofWord?, fun h => ?_⟩
  cases hfound : ofWord? word with
  | none =>
      have hnone := List.find?_eq_none.1 hfound keyword (mem_all _)
      exact absurd h hnone
  | some other => rw [eq_of_isSpelled h (isSpelled_of_ofWord? hfound)]

end Keyword

theorem Token.Kind.ofWord_eq_reserved_iff {word : String} {keyword : Keyword} :
    ofWord word = .reserved keyword ↔ keyword.isSpelled word := by
  rw [kind_ofWord_eq_reserved, Keyword.ofWord?_eq_some_iff]

theorem Token.Kind.ofWord_eq_identifier_iff {word : String} :
    ofWord word = .identifier ↔ ∀ keyword : Keyword, keyword.isSpelled word = false := by
  rw [ofWord]
  cases hfound : Keyword.ofWord? word with
  | none =>
      simpa using fun keyword => by simpa using List.find?_eq_none.1 hfound keyword (Keyword.mem_all _)
  | some keyword =>
      simp only [reduceCtorEq, false_iff]
      intro hfree
      rw [Keyword.ofWord?_eq_some_iff, hfree] at hfound
      cases hfound

section Words

variable {c : Char} {tail rest after : List Char}

theorem startsBound_of_isWordStart (hstart : isWordStart c) :
    startsBound (c :: tail) = ((c = 'n' || c = 'N') && !(tail.head?.any isWordChar)) := by
  rw [startsBound, isDigit_of_isWordStart hstart, Bool.false_or]

/-- A word is no bound, for it goes on behind its first letter. -/
theorem WordBefore.startsBound_eq (h : WordBefore c tail after) :
    startsBound (c :: tail) = false := by
  rw [startsBound_of_isWordStart h.start]
  cases tail with
  | nil => simp [h.no_bound rfl]
  | cons d tail => simp [h.inside d List.mem_cons_self]

theorem WordBefore.cutToken_eq (h : WordBefore c tail after) :
    cutToken c (tail ++ after) =
      (Token.Kind.ofWord (String.ofList (c :: tail)), c :: tail, after) := by
  apply cutToken_word h.start h.inside
  · simp [h.startsBound_eq]
  · exact (Option.any_eq_false _ _).2 fun d hd => by simpa using h.ends d hd

theorem wordBefore_cutToken (hstart : isWordStart c) (hbound : ¬startsBound (c :: rest)) :
    WordBefore c (rest.takeWhile isWordChar) (rest.dropWhile isWordChar) where
  start := hstart
  inside := fun _ hd => List.mem_takeWhile_imp hd
  ends := fun d hd => by
    have hhead := List.head?_dropWhile_not isWordChar rest
    rw [hd] at hhead
    simpa using hhead
  no_bound := fun hnil => by
    rw [startsBound_of_isWordStart hstart] at hbound
    cases rest with
    | nil => simpa using hbound
    | cons d rest =>
        have hd : isWordChar d = false := by
          by_contra hd
          simp [hd] at hnil
        simpa [hd] using hbound

end Words

/-! ### The rules settle the token -/

section

variable {kind : Token.Kind} {c : Char} {rest text after : List Char}

/-- What is cut off a text keeps the rules. -/
theorem tokenBefore_cutToken (hstands : Stands c) :
    TokenBefore (cutToken c rest).1 (cutToken c rest).2.1 (cutToken c rest).2.2 := by
  by_cases hbound : startsBound (c :: rest)
  · rw [cutToken_cardinal hbound]
    have hbefore := boundBefore_cutBound hbound
    cases hjoins : joinsBound (cutBound (c :: rest)).2 with
    | false =>
        rw [cutCardinal_single hjoins]
        exact .single hbefore (by simp [← joinsBound_eq_true_iff, hjoins])
    | true =>
        obtain ⟨more, hmore, hstarts⟩ := joinsBound_iff.1 hjoins
        have hcut : cutBound (c :: rest) = ((cutBound (c :: rest)).1, ':' :: more) := by
          rw [← hmore]
        rw [cutCardinal_pair hcut hstarts]
        rw [hmore, (isBound_cutBound hstarts).1] at hbefore
        exact .pair hbefore (boundBefore_cutBound hstarts)
  have hdigit : c.isDigit = false := by
    by_contra hdigit
    exact hbound (by simp [startsBound, hdigit])
  unfold cutToken
  rw [if_neg hbound]
  split_ifs with hopen hclose hstart
  · exact hopen ▸ .leftParen rest
  · exact hclose ▸ .rightParen rest
  · have hword := wordBefore_cutToken hstart hbound
    dsimp only
    cases hkind : Token.Kind.ofWord (String.ofList (c :: rest.takeWhile isWordChar)) with
    | identifier => exact .identifier hword (Token.Kind.ofWord_eq_identifier_iff.1 hkind)
    | reserved keyword => exact .reserved hword (Token.Kind.ofWord_eq_reserved_iff.1 hkind)
    | _ => exact absurd (hkind ▸ isWord_ofWord _) (by decide)
  · exact .invalid rest hstands ⟨hopen, hclose⟩ (Bool.eq_false_iff.2 hstart) hdigit

/-- Whatever keeps the rules is cut off. -/
theorem TokenBefore.cutToken_eq (h : TokenBefore kind text after) (htext : c :: rest = text ++ after) :
    cutToken c rest = (kind, text, after) := by
  cases h with
  | leftParen =>
      cases htext
      rfl
  | rightParen =>
      cases htext
      rfl
  | single hbound halone =>
      have hcut : cutBound (c :: rest) = (text, after) := htext ▸ hbound.cutBound
      rw [← joinsBound_eq_true_iff, Bool.not_eq_true] at halone
      rw [cutToken_cardinal (htext ▸ hbound.startsBound), cutCardinal_single (by rw [hcut, halone]),
        hcut]
  | @pair lower upper _ hlower hupper =>
      rw [List.append_assoc, List.cons_append] at htext
      have hcut : cutBound (c :: rest) = (lower, ':' :: (upper ++ after)) := htext ▸ hlower.cutBound
      rw [cutToken_cardinal (htext ▸ hlower.startsBound), cutCardinal_pair hcut hupper.startsBound,
        hupper.cutBound]
  | identifier hword hfree =>
      obtain ⟨rfl, rfl⟩ := List.cons.inj htext
      exact hword.cutToken_eq.trans (by rw [Token.Kind.ofWord_eq_identifier_iff.2 hfree])
  | reserved hword hspelled =>
      obtain ⟨rfl, rfl⟩ := List.cons.inj htext
      exact hword.cutToken_eq.trans (by rw [Token.Kind.ofWord_eq_reserved_iff.2 hspelled])
  | invalid _ hstands hparen hstart hdigit =>
      obtain ⟨rfl, hrest⟩ := List.cons.inj htext
      have hletter : c ≠ 'n' ∧ c ≠ 'N' := by
        constructor <;> rintro rfl <;> exact absurd hstart (by decide)
      have hbound : ¬startsBound (c :: rest) := by simp [startsBound, hdigit, hletter]
      rw [cutToken, if_neg hparen.1, if_neg hparen.2, if_neg hbound, if_neg (by simp [hstart]), hrest]
      rfl

/-- Where a token can start, just one split of the text keeps the rules. -/
theorem cutToken_eq_iff (hstands : Stands c) :
    cutToken c rest = (kind, text, after) ↔ c :: rest = text ++ after ∧ TokenBefore kind text after := by
  constructor
  · intro h
    have hsplit := (isToken_cutToken c rest).1
    have hbefore : TokenBefore (cutToken c rest).1 _ _ := tokenBefore_cutToken hstands
    rw [h] at hsplit hbefore
    exact ⟨hsplit, hbefore⟩
  · rintro ⟨htext, h⟩
    exact h.cutToken_eq htext

end

/-! ### The tokens of a source text -/

/-- A token stands in front of what is left where it was cut off. -/
theorem exists_tokenBefore_of_mem_scan {offset : Nat} {text : List Char} {token : Token}
    (h : token ∈ scan offset text) :
    ∃ front after, text = front ++ (token.text.toList ++ after) ∧
      token.offset = offset + (utf8Bytes front).length ∧
        TokenBefore token.kind token.text.toList after := by
  induction text using front_induction generalizing offset with
  | trivia text htrivia =>
      obtain ⟨stop, hskip⟩ := htrivia offset
      rw [scan_of_skipTrivia_nil hskip] at h
      cases h
  | token gap c rest kind word after hgap hc hcut ih =>
      rw [scan_of_skipTrivia_cons (skipTrivia_front hgap hc offset rest), hcut] at h
      obtain ⟨hsplit, hbefore⟩ := (cutToken_eq_iff hc).1 hcut
      rcases List.mem_cons.1 h with rfl | h
      · dsimp only
        rw [String.toList_ofList]
        exact ⟨gap, after, by rw [hsplit], rfl, hbefore⟩
      · obtain ⟨front, back, rfl, hoffset, hbefore⟩ := ih h
        refine ⟨gap ++ (word ++ front), back, ?_, ?_, hbefore⟩
        · rw [hsplit, List.append_assoc, List.append_assoc]
        · rw [hoffset, utf8Bytes_append, utf8Bytes_append, List.length_append, List.length_append,
            Nat.add_assoc, Nat.add_assoc]

theorem Keyword.isToken_of_isSpelled {keyword : Keyword} {word : String}
    (h : keyword.isSpelled word) : IsToken (.reserved keyword) word.toList := by
  have hall : ∀ keyword ∈ all, ∀ word ∈ keyword.spellings.1 :: keyword.spellings.2,
      IsToken (.reserved keyword) word.toList := by
    decide
  refine hall keyword (mem_all _) word ?_
  simpa [isSpelled] using h

/-- A token is a reserved word just if its whole text is a spelling of it. -/
theorem IsToken.eq_reserved_iff {kind : Token.Kind} {text : List Char} (h : IsToken kind text)
    (keyword : Keyword) : kind = .reserved keyword ↔ keyword.isSpelled (String.ofList text) := by
  constructor
  · rintro rfl
    exact isSpelled_of_isToken h
  · intro hspelled
    have hreserved := Keyword.isToken_of_isSpelled hspelled
    rw [String.toList_ofList] at hreserved
    exact h.unique hreserved

/-- The tokens of a source text keep the rules, and the rules settle them. -/
structure Lexer.KeepsRules (source : String) : Prop where
  /-- Every token but the end of input stands in the text as the rules have it. -/
  before : ∀ token ∈ Lexer.tokens source, token.kind ≠ .endOfInput →
    ∃ front after, source.toList = front ++ (token.text.toList ++ after) ∧
      token.offset = (utf8Bytes front).length ∧ TokenBefore token.kind token.text.toList after
  /-- A token is a reserved word just if its whole text is a spelling of it. -/
  reserved : ∀ token ∈ Lexer.tokens source, ∀ keyword : Keyword,
    token.kind = .reserved keyword ↔ keyword.isSpelled token.text
  /-- Behind any trivia, the rules allow one way to cut a token off, and it is the next token. -/
  settled : ∀ (lexer : Lexer) (gap : List Char) (c : Char) (rest : List Char), lexer.source = source →
    lexer.unread = gap ++ c :: rest → IsTrivia gap → Stands c →
      ∃ kind text after,
        lexer.nextToken =
          (⟨kind, String.ofList text, lexer.offset + (utf8Bytes gap).length⟩,
            { lexer with
              unread := after
              offset := lexer.offset + (utf8Bytes gap).length + (utf8Bytes text).length }) ∧
        ∀ kind' text' after', c :: rest = text' ++ after' ∧ TokenBefore kind' text' after' ↔
          kind' = kind ∧ text' = text ∧ after' = after

/-- Every source text is cut into tokens by the rules, and in no other way. -/
theorem tokens_keep_rules (source : String) : Lexer.KeepsRules source where
  before token h hkind := by
    rw [tokens_eq] at h
    rcases List.mem_append.1 h with h | h
    · obtain ⟨front, after, hsplit, hoffset, hbefore⟩ := exists_tokenBefore_of_mem_scan h
      exact ⟨front, after, hsplit, hoffset.trans (Nat.zero_add _), hbefore⟩
    · rw [List.mem_singleton.1 h] at hkind
      exact absurd rfl hkind
  reserved token h keyword := by
    rw [tokens_eq] at h
    rcases List.mem_append.1 h with h | h
    · rw [(mem_scan h).1.eq_reserved_iff, String.ofList_toList]
    · have hempty : ∀ keyword ∈ Keyword.all, keyword.isSpelled "" = false := by decide
      rw [List.mem_singleton.1 h, hempty keyword (Keyword.mem_all _)]
      simp
  settled lexer gap c rest _ hunread hgap hc := by
    have hskip := skipTrivia_front hgap hc lexer.offset rest
    rw [← hunread] at hskip
    refine ⟨_, _, _, nextToken_of_skipTrivia_cons hskip, fun kind text after => ?_⟩
    rw [← cutToken_eq_iff hc, ← Prod.mk.injEq, ← Prod.mk.injEq, eq_comm]

end ErDiagram
