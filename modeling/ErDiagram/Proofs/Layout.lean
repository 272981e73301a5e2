import ErDiagram.Proofs.Spelling
import Mathlib.Data.List.Chain

/-!
Texts that are laid out from tokens: trivia stands before, between and behind the tokens, and it may
be left out only next to a parenthesis. A text that is laid out from tokens is cut into just these
tokens again.
-/

namespace ErDiagram

/-- Any mix of blanks and of comments that a line feed ends. -/
inductive IsTrivia : List Char → Prop where
  | nil : IsTrivia []
  | blank {c : Char} {rest : List Char} (hblank : isBlank c = true) (hrest : IsTrivia rest) :
    IsTrivia (c :: rest)
  | comment {text rest : List Char} (htext : '\n' ∉ text) (hrest : IsTrivia rest) :
    IsTrivia (';' :: (text ++ '\n' :: rest))

def Token.IsParen (token : Token) : Prop :=
  token.kind = .leftParen ∨ token.kind = .rightParen

instance : DecidablePred Token.IsParen :=
  fun _ => inferInstanceAs (Decidable (_ ∨ _))

/-- A text that starts at an offset, at the very start or behind a token, is laid out from some
tokens: each stands at its offset and is one token on its own, and trivia parts it from the token
before, unless one of them is a parenthesis. -/
inductive LaidOut : Option Token → Nat → List Token → List Char → Prop where
  | done {before : Option Token} {offset : Nat} {gap : List Char} (hgap : IsTrivia gap) :
    LaidOut before offset [] gap
  | next {before : Option Token} {offset : Nat} {gap rest : List Char} {token : Token}
    {tokens : List Token} (hgap : IsTrivia gap) (hspelled : token.Spelled)
    (hoffset : token.offset = offset + (utf8Bytes gap).length)
    (hparted : gap = [] → ∀ previous ∈ before, previous.IsParen ∨ token.IsParen)
    (hrest : LaidOut (some token) (token.offset + (utf8Bytes token.text.toList).length) tokens rest) :
    LaidOut before offset (token :: tokens) (gap ++ (token.text.toList ++ rest))

/-! ### Trivia -/

theorem skipTrivia_comment (offset : Nat) {text : List Char} (h : '\n' ∉ text) (rest : List Char) :
    skipTrivia true offset (text ++ '\n' :: rest) =
      skipTrivia false (offset + (utf8Bytes text).length + 1) rest := by
  induction text generalizing offset with
  | nil => rfl
  | cons c text ih =>
      obtain ⟨hc, htext⟩ := List.ne_and_not_mem_of_not_mem_cons h
      have hcomment : decide (c ≠ '\n') = true := decide_eq_true (Ne.symm hc)
      rw [List.cons_append, skipTrivia, if_pos rfl, hcomment, ih _ htext, utf8Bytes_cons,
        List.length_append, String.length_utf8EncodeChar]
      congr 1
      omega

/-- Trivia is skipped. -/
theorem IsTrivia.skipTrivia_append {gap : List Char} (h : IsTrivia gap) (offset : Nat)
    (rest : List Char) :
    skipTrivia false offset (gap ++ rest) =
      skipTrivia false (offset + (utf8Bytes gap).length) rest := by
  induction h generalizing offset with
  | nil => rfl
  | @blank c gap hblank _ ih =>
      rw [List.cons_append, skipTrivia, if_neg (by decide), if_pos hblank, ih, utf8Bytes_cons,
        List.length_append, String.length_utf8EncodeChar, Nat.add_assoc]
  | @comment text gap htext _ ih =>
      have hblank : ¬isBlank ';' = true := by decide
      rw [List.cons_append, skipTrivia, if_neg (by decide), if_neg hblank, if_pos rfl,
        List.append_assoc, List.cons_append, skipTrivia_comment _ htext, ih]
      congr 1
      simp only [utf8Bytes_cons, utf8Bytes_append, List.length_append,
        String.length_utf8EncodeChar]
      have hnewline : Char.utf8Size '\n' = 1 := rfl
      omega

theorem breaks_of_isBlank {c : Char} (h : isBlank c = true) (rest : List Char) :
    Breaks (c :: rest) := by
  simp only [isBlank, Bool.or_eq_true, decide_eq_true_eq] at h
  apply breaks_cons.2
  rcases h with ((rfl | rfl) | rfl) | rfl
  · decide
  · decide
  · decide
  · decide

theorem IsTrivia.breaks {gap : List Char} (h : IsTrivia gap) (hne : gap ≠ []) (rest : List Char) :
    Breaks (gap ++ rest) := by
  cases h with
  | nil => exact absurd rfl hne
  | blank hblank => exact breaks_of_isBlank hblank _
  | comment => exact breaks_cons.2 ⟨by decide, by decide⟩

/-- Where trivia may start, no valid token does. -/
theorem kind_cutToken_of_trivia {c : Char} (h : isBlank c = true ∨ c = ';') (rest : List Char) :
    (cutToken c rest).1 = .invalid := by
  simp only [isBlank, Bool.or_eq_true, decide_eq_true_eq] at h
  rcases h with (((rfl | rfl) | rfl) | rfl) | rfl <;> rfl

theorem skipTrivia_of_isToken {kind : Token.Kind} {c : Char} {text : List Char}
    (h : IsToken kind (c :: text)) (hkind : kind ≠ .invalid) (offset : Nat) (rest : List Char) :
    skipTrivia false offset (c :: rest) = (offset, c :: rest) := by
  obtain ⟨d, more, heq, hcut⟩ := h
  cases heq
  have hstop : ¬(isBlank c = true ∨ c = ';') := by
    intro htrivia
    apply hkind
    rw [← kind_cutToken_of_trivia htrivia text, hcut]
  rw [not_or] at hstop
  rw [skipTrivia, if_neg (by decide), if_neg hstop.1, if_neg hstop.2]

/-! ### Parentheses -/

theorem text_of_isParen {token : Token} (h : token.Spelled) (hparen : token.IsParen) :
    ∃ c, token.text.toList = [c] ∧ (c = '(' ∨ c = ')') := by
  obtain ⟨c, rest, htext, hcut⟩ := h
  have hword : ∀ word, Token.Kind.ofWord word ≠ .leftParen ∧ Token.Kind.ofWord word ≠ .rightParen := by
    intro word
    unfold Token.Kind.ofWord
    cases Keyword.ofWord? word <;> exact ⟨by simp, by simp⟩
  refine ⟨c, ?_⟩
  rw [htext] at hcut ⊢
  unfold cutToken at hcut
  split_ifs at hcut with hopen hclose
  · obtain ⟨-, hcut⟩ := Prod.mk.inj hcut
    exact ⟨(Prod.mk.inj hcut).1.symm, Or.inl hopen⟩
  · obtain ⟨-, hcut⟩ := Prod.mk.inj hcut
    exact ⟨(Prod.mk.inj hcut).1.symm, Or.inr hclose⟩
  · obtain ⟨hkind, -⟩ := Prod.mk.inj hcut
    rcases hparen with hparen | hparen <;> cases hkind.trans hparen
  · obtain ⟨hkind, -⟩ := Prod.mk.inj hcut
    rcases hparen with hparen | hparen
    · exact absurd (hkind.trans hparen) (hword _).1
    · exact absurd (hkind.trans hparen) (hword _).2
  · obtain ⟨hkind, -⟩ := Prod.mk.inj hcut
    rcases hparen with hparen | hparen <;> cases hkind.trans hparen

theorem cutToken_paren {c : Char} (h : c = '(' ∨ c = ')') (rest : List Char) :
    cutToken c rest = ((cutToken c []).1, [c], rest) := by
  rcases h with rfl | rfl <;> rfl

/-! ### Cutting what is laid out -/

/-- Behind a token that is no parenthesis, what is laid out breaks it off. -/
theorem LaidOut.breaks {token : Token} {offset : Nat} {tokens : List Token} {text : List Char}
    (h : LaidOut (some token) offset tokens text) (hparen : ¬token.IsParen) : Breaks text := by
  cases h with
  | done hgap =>
      by_cases hne : text = []
      · exact hne ▸ breaks_nil
      · exact List.append_nil text ▸ hgap.breaks hne []
  | @next _ _ gap rest next tokens hgap hspelled hoffset hparted _ =>
      by_cases hne : gap = []
      · have hnext : next.IsParen := (hparted hne token rfl).resolve_left hparen
        obtain ⟨c, htext, hc⟩ := text_of_isParen hspelled hnext
        rw [hne, htext]
        rcases hc with rfl | rfl
        · exact breaks_cons.2 ⟨by decide, by decide⟩
        · exact breaks_cons.2 ⟨by decide, by decide⟩
      · exact hgap.breaks hne _

theorem LaidOut.cutToken_eq {token : Token} {offset : Nat} {tokens : List Token} {rest : List Char}
    (h : LaidOut (some token) offset tokens rest) (hspelled : token.Spelled) {c : Char}
    {text : List Char} (htext : token.text.toList = c :: text) :
    cutToken c (text ++ rest) = (token.kind, c :: text, rest) := by
  have htoken : IsToken token.kind (c :: text) := htext ▸ hspelled
  by_cases hparen : token.IsParen
  · obtain ⟨d, hd, hparen⟩ := text_of_isParen hspelled hparen
    rw [htext] at hd
    cases hd
    obtain ⟨d, more, heq, hcut⟩ := htoken
    cases heq
    rw [List.nil_append, cutToken_paren hparen, hcut]
  · exact htoken.cutToken_append (h.breaks hparen)

/-- A text that is laid out from valid tokens is cut into these tokens. -/
theorem LaidOut.scan_eq {before : Option Token} {offset : Nat} {tokens : List Token}
    {text : List Char} (h : LaidOut before offset tokens text)
    (hvalid : ∀ token ∈ tokens, token.kind ≠ .invalid) : scan offset text = tokens := by
  induction h with
  | @done before offset gap hgap =>
      have hskip := hgap.skipTrivia_append offset []
      rw [List.append_nil] at hskip
      exact scan_of_skipTrivia_nil hskip
  | @next before offset gap rest token tokens hgap hspelled hoffset hparted hrest ih =>
      obtain ⟨htoken, htokens⟩ := List.forall_mem_cons.1 hvalid
      obtain ⟨c, text, htext, -⟩ := id hspelled
      have hcut := hrest.cutToken_eq hspelled htext
      have hone : IsToken token.kind (c :: text) := htext ▸ hspelled
      have hstop : skipTrivia false token.offset (token.text.toList ++ rest) =
          (token.offset, c :: (text ++ rest)) := by
        rw [htext, List.cons_append]
        exact skipTrivia_of_isToken hone htoken _ _
      have hskip := hgap.skipTrivia_append offset (token.text.toList ++ rest)
      rw [← hoffset, hstop] at hskip
      rw [scan_of_skipTrivia_cons hskip, hcut, ← htext, String.ofList_toList, ih htokens]

/-! ### Laying out what is cut -/

/-- What a comment has begun with, if the text starts inside one. -/
def begun (inComment : Bool) : List Char :=
  if inComment then [';'] else []

/-- One more character of a comment, which goes on unless the character ends its line. -/
theorem IsTrivia.comment_cons {c : Char} {gap : List Char}
    (h : IsTrivia (begun (c ≠ '\n') ++ gap)) : IsTrivia (';' :: c :: gap) := by
  by_cases hc : c = '\n'
  · subst hc
    exact @IsTrivia.comment [] gap List.not_mem_nil h
  · rw [begun, if_pos (decide_eq_true hc)] at h
    cases h with
    | blank hblank => exact absurd hblank (by decide)
    | @comment text rest htext hrest =>
        exact @IsTrivia.comment (c :: text) rest (List.not_mem_cons_of_ne_of_not_mem (Ne.symm hc) htext)
          hrest

/-- What is skipped is trivia, but that a line feed may be wanting behind its last comment if nothing
else follows. -/
theorem exists_gap (inComment : Bool) (offset : Nat) (text : List Char) :
    ∃ gap, text = gap ++ (skipTrivia inComment offset text).2 ∧
      IsTrivia (begun inComment ++ (gap ++ ['\n'])) ∧
        ((skipTrivia inComment offset text).2 ≠ [] → IsTrivia (begun inComment ++ gap)) := by
  have hline : IsTrivia ['\n'] := .blank rfl .nil
  fun_induction skipTrivia inComment offset text with
  | case1 inComment offset =>
      refine ⟨[], rfl, ?_, fun h => absurd rfl h⟩
      cases inComment with
      | true => exact @IsTrivia.comment [] [] List.not_mem_nil .nil
      | false => exact hline
  | case2 offset c rest ih =>
      obtain ⟨gap, hgap, hclosed, htrivia⟩ := ih
      exact ⟨c :: gap, congrArg (List.cons c) hgap, hclosed.comment_cons,
        fun hrest => (htrivia hrest).comment_cons⟩
  | case3 inComment offset c rest hfalse hblank ih =>
      obtain ⟨gap, hgap, hclosed, htrivia⟩ := ih
      obtain rfl := eq_false_of_ne_true hfalse
      exact ⟨c :: gap, congrArg (List.cons c) hgap, .blank hblank hclosed,
        fun hrest => .blank hblank (htrivia hrest)⟩
  | case4 inComment offset rest hfalse hblank ih =>
      obtain ⟨gap, hgap, hclosed, htrivia⟩ := ih
      obtain rfl := eq_false_of_ne_true hfalse
      exact ⟨';' :: gap, congrArg (List.cons ';') hgap, hclosed, htrivia⟩
  | case5 inComment offset c rest hfalse =>
      obtain rfl := eq_false_of_ne_true hfalse
      exact ⟨[], rfl, hline, fun _ => .nil⟩

/-- Two tokens may follow one another: something parts them, or one of them is a parenthesis. -/
def Token.Parts (first second : Token) : Prop :=
  first.offset + (utf8Bytes first.text.toList).length < second.offset ∨
    first.IsParen ∨ second.IsParen

instance : DecidableRel Token.Parts :=
  fun _ _ => inferInstanceAs (Decidable (_ ∨ _))

/-- A text is laid out from the tokens that it is cut into, if they are parted, and if a line feed
closes its last comment. -/
theorem laidOut_scan {before : Option Token} {offset : Nat} {text : List Char}
    (hbefore : ∀ previous ∈ before,
      previous.offset + (utf8Bytes previous.text.toList).length = offset)
    (hparted : (before.toList ++ scan offset text).IsChain Token.Parts) :
    LaidOut before offset (scan offset text) (text ++ ['\n']) := by
  fun_induction scan offset text generalizing before with
  | case1 offset text stop hskip =>
      obtain ⟨gap, hgap, hclosed, -⟩ := exists_gap false offset text
      rw [hskip, List.append_nil] at hgap
      exact .done (hgap ▸ hclosed)
  | case2 offset text start c rest hskip ih =>
      obtain ⟨gap, hgap, -, htrivia⟩ := exists_gap false offset text
      have hstart := (offset_skipTrivia false offset text).2
      obtain ⟨hcut, hspelled⟩ := isToken_cutToken c rest
      rw [hskip] at hgap hstart htrivia
      rw [hgap, utf8Bytes_append, List.length_append] at hstart
      rw [List.isChain_append] at hparted
      obtain ⟨-, hchain, hfirst⟩ := hparted
      -- the text of the token comes back from the string that it is kept as
      have htext : (String.ofList (cutToken c rest).2.1).toList = (cutToken c rest).2.1 :=
        String.toList_ofList
      have hsplit : text ++ ['\n'] = gap ++ ((String.ofList (cutToken c rest).2.1).toList ++
          ((cutToken c rest).2.2 ++ ['\n'])) := by
        rw [htext, hgap, hcut, List.append_assoc, List.append_assoc]
      rw [hsplit]
      refine .next (htrivia (List.cons_ne_nil _ _)) ?_ ?_ ?_ ?_
      · rw [Token.Spelled, htext]
        exact hspelled
      · dsimp only at hstart ⊢
        omega
      · rintro rfl previous hprevious
        have hend := hbefore previous hprevious
        rcases hfirst previous (by simp [Option.mem_def.1 hprevious]) _ rfl with hgap | hparen
        · dsimp only at hgap hstart
          simp only [utf8Bytes_nil, List.length_nil] at hstart
          omega
        · exact hparen
      · dsimp only
        rw [htext]
        apply ih
        · rintro previous ⟨rfl⟩
          rw [htext]
        · exact hchain

end ErDiagram
