import ErDiagram.Proofs.Respelling

/-!
Tokens written out again. Each token of a source text on its own is one token of the same kind, and
trivia in front of it and behind it changes nothing in that. So when the tokens are written with any
trivia between them, they are read again as they were, even those that stood without a gap before.
-/

namespace ErDiagram

/-! ### Trivia at the end of a text -/

/-- Trivia at the end of a text: the last comment may run to the end. -/
inductive IsTrailing : List Char → Prop where
  | closed {gap : List Char} (hgap : IsTrivia gap) : IsTrailing gap
  | running {gap comment : List Char} (hgap : IsTrivia gap) (hcomment : '\n' ∉ comment) :
    IsTrailing (gap ++ ';' :: comment)

theorem skipTrivia_running (offset : Nat) {comment : List Char} (h : '\n' ∉ comment) :
    skipTrivia true offset comment = (offset + (utf8Bytes comment).length, []) := by
  induction comment generalizing offset with
  | nil => rfl
  | cons c comment ih =>
      obtain ⟨hc, hcomment⟩ := List.ne_and_not_mem_of_not_mem_cons h
      rw [skipTrivia, if_pos rfl, decide_eq_true (Ne.symm hc), ih _ hcomment, utf8Bytes_cons,
        List.length_append, String.length_utf8EncodeChar, Nat.add_assoc]

theorem IsTrailing.skipTrivia {gap : List Char} (h : IsTrailing gap) (offset : Nat) :
    ErDiagram.skipTrivia false offset gap = (offset + (utf8Bytes gap).length, []) := by
  cases h with
  | closed hgap =>
      have hskip := hgap.skipTrivia_append offset []
      rwa [List.append_nil] at hskip
  | @running gap comment hgap hcomment =>
      rw [hgap.skipTrivia_append, ErDiagram.skipTrivia, if_neg (by decide), if_neg (by decide),
        if_pos rfl, skipTrivia_running _ hcomment, utf8Bytes_append, utf8Bytes_cons,
        List.length_append, List.length_append, String.length_utf8EncodeChar, Nat.add_assoc,
        Nat.add_assoc]

/-- A comment at the front may be longer. -/
theorem IsTrailing.lengthen {c : Char} {text : List Char} (h : IsTrailing (';' :: text))
    (hc : c ≠ '\n') : IsTrailing (';' :: c :: text) := by
  generalize hall : ';' :: text = all at h
  cases h with
  | closed hgap =>
      subst hall
      exact .closed (hgap.lengthen hc)
  | @running gap comment hgap hcomment =>
      cases gap with
      | nil =>
          cases hall
          exact @IsTrailing.running [] _ .nil
            (List.not_mem_cons_of_ne_of_not_mem (Ne.symm hc) hcomment)
      | cons d gap =>
          cases hall
          exact .running (hgap.lengthen hc) hcomment

/-- A text in which everything is skipped is trivia to its end. -/
theorem isTrailing_of_skipTrivia {inComment : Bool} {offset stop : Nat} {text : List Char}
    (h : ErDiagram.skipTrivia inComment offset text = (stop, [])) :
    IsTrailing (if inComment then ';' :: text else text) := by
  fun_induction ErDiagram.skipTrivia inComment offset text with
  | case1 inComment =>
      cases inComment with
      | false => exact .closed .nil
      | true => exact @IsTrailing.running [] [] .nil List.not_mem_nil
  | case2 offset c text ih =>
      have hrest := ih h
      by_cases hc : c = '\n'
      · subst hc
        cases hrest with
        | closed hgap => exact .closed (@IsTrivia.comment [] _ List.not_mem_nil hgap)
        | @running gap comment hgap hcomment =>
            exact .running (@IsTrivia.comment [] _ List.not_mem_nil hgap) hcomment
      · rw [if_pos (decide_eq_true hc)] at hrest
        exact hrest.lengthen hc
  | case3 _ offset c text hin hblank ih =>
      have hrest := ih h
      rw [if_neg hin]
      cases hrest with
      | closed hgap => exact .closed (.blank hblank hgap)
      | @running gap comment hgap hcomment => exact .running (.blank hblank hgap) hcomment
  | case4 _ offset text hin _ ih =>
      rw [if_neg hin]
      exact ih h
  | case5 => cases h

theorem IsTrailing.breaks {gap : List Char} (h : IsTrailing gap) : Breaks gap := by
  cases h with
  | closed hgap =>
      by_cases hne : gap = []
      · exact hne ▸ breaks_nil
      · exact List.append_nil gap ▸ hgap.breaks hne []
  | @running gap comment hgap =>
      by_cases hne : gap = []
      · rw [hne]
        exact breaks_cons.2 ⟨by decide, by decide⟩
      · exact hgap.breaks hne _

/-! ### Words and gaps in turn -/

/-- Gaps and words in turn, a gap first. -/
def interleave : List (List Char) → List (List Char) → List Char
  | gap :: gaps, word :: words => gap ++ (word ++ interleave gaps words)
  | gaps, words => gaps.flatten ++ words.flatten

/-- Gaps for a number of words: trivia in front of each word and behind the last one. Between two
words the gap is not empty, and behind the last word a comment may run to the end. -/
inductive Parting : Nat → List (List Char) → Prop where
  | last {gap : List Char} (hgap : IsTrailing gap) : Parting 0 [gap]
  | next {words : Nat} {gap : List Char} {gaps : List (List Char)} (hgap : IsTrivia gap)
    (hparts : words ≠ 0 → ∀ between ∈ gaps.head?, between ≠ []) (hgaps : Parting words gaps) :
    Parting (words + 1) (gap :: gaps)

def Token.bare (token : Token) : Token.Kind × String :=
  (token.kind, token.text)

/-- One token on its own, which no trivia can start with. -/
def IsBareToken (word : Token.Kind × String) : Prop :=
  IsToken word.1 word.2.toList ∧ ∀ c ∈ word.2.toList.head?, Stands c

theorem isBareToken_of_mem_scan {offset : Nat} {text : List Char} {token : Token}
    (h : token ∈ scan offset text) : IsBareToken token.bare := by
  refine ⟨(mem_scan h).1, ?_⟩
  induction text using front_induction generalizing offset with
  | trivia text htrivia =>
      obtain ⟨stop, hskip⟩ := htrivia offset
      rw [scan_of_skipTrivia_nil hskip] at h
      cases h
  | token gap c rest kind word after hgap hc hcut ih =>
      rw [scan_of_skipTrivia_cons (skipTrivia_front hgap hc offset rest), hcut] at h
      rcases List.mem_cons.1 h with rfl | h
      · have hsplit := (isToken_cutToken c rest).1
        have hne := (isToken_cutToken c rest).2.ne_nil
        rw [hcut] at hsplit hne
        obtain ⟨d, tail, rfl⟩ := List.exists_cons_of_ne_nil hne
        obtain rfl := (List.cons.inj hsplit).1
        intro e he
        simp only [Token.bare, String.toList_ofList, List.head?_cons, Option.mem_some_iff] at he
        exact he ▸ hc
      · exact ih h

section

variable {gaps : List (List Char)} {words : List (Token.Kind × String)}

/-- Behind a word, the gaps and words that are left break it off. -/
theorem Parting.breaks (h : Parting words.length gaps)
    (hparts : words.length ≠ 0 → ∀ between ∈ gaps.head?, between ≠ []) :
    Breaks (interleave gaps (words.map (·.2.toList))) := by
  cases words with
  | nil =>
      cases h with
      | last hgap => simpa [interleave] using hgap.breaks
  | cons word words =>
      cases h with
      | next hgap => exact hgap.breaks (hparts (Nat.succ_ne_zero _) _ rfl) _

/-- Words that are single tokens are cut apart where gaps part them. -/
theorem scan_interleave (h : Parting words.length gaps) (hwords : ∀ word ∈ words, IsBareToken word)
    (offset : Nat) :
    (scan offset (interleave gaps (words.map (·.2.toList)))).map Token.bare = words := by
  induction words generalizing gaps offset with
  | nil =>
      cases h with
      | last hgap =>
          have hskip := hgap.skipTrivia offset
          simp [interleave, scan_of_skipTrivia_nil hskip]
  | cons word words ih =>
      cases h with
      | @next _ gap gaps hgap hparts hgaps =>
          obtain ⟨⟨htoken, hstands⟩, hrest⟩ := List.forall_mem_cons.1 hwords
          obtain ⟨c, tail, htext⟩ := List.exists_cons_of_ne_nil htoken.ne_nil
          rw [htext] at htoken hstands
          have hcut := htoken.cutToken_append (hgaps.breaks hparts)
          have hskip := skipTrivia_front hgap (hstands c rfl) offset
            (tail ++ interleave gaps (words.map (·.2.toList)))
          rw [List.map_cons, interleave, htext, List.cons_append, scan_of_skipTrivia_cons hskip, hcut,
            List.map_cons, ih hgaps hrest, ← htext, Token.bare, String.ofList_toList]

end

def Lexer.proper (source : String) : List Token :=
  (Lexer.tokens source).dropLast

/-- The tokens of a source text, written with other gaps between them. -/
def Lexer.spaced (gaps : List (List Char)) (source : String) : String :=
  String.ofList (interleave gaps ((Lexer.proper source).map (·.text.toList)))

theorem Lexer.proper_eq (source : String) : Lexer.proper source = scan 0 source.toList := by
  rw [Lexer.proper, tokens_eq, List.dropLast_concat]

/-- Reading undoes writing: whatever trivia parts the tokens of a source text, they are read again
with their kinds and texts, and then the end of input. -/
theorem tokens_spaced (source : String) {gaps : List (List Char)}
    (h : Parting (Lexer.proper source).length gaps) :
    (Lexer.tokens (Lexer.spaced gaps source)).map Token.bare =
      (Lexer.proper source).map Token.bare ++ [(.endOfInput, "")] := by
  have hwords : ∀ word ∈ (Lexer.proper source).map Token.bare, IsBareToken word := by
    rw [Lexer.proper_eq]
    rintro word hword
    obtain ⟨token, htoken, rfl⟩ := List.mem_map.1 hword
    exact isBareToken_of_mem_scan htoken
  rw [← List.length_map (f := Token.bare)] at h
  have hscan := scan_interleave h hwords 0
  rw [List.map_map] at hscan
  rw [tokens_eq, Lexer.spaced, String.toList_ofList, List.map_append]
  exact congrArg (· ++ _) hscan

/-- Neighbours without a gap, and a character that starts no token, keep their kinds when they are
written apart. -/
theorem tokens_spaced_neighbours :
    let gaps := ["".toList, ";\n".toList, " ".toList, "\t".toList, "\r\n".toList, " ;(\n".toList,
      ";)".toList]
    Parting (Lexer.proper "1abc:n(é").length gaps ∧
      Lexer.spaced gaps "1abc:n(é" = "1;\nabc :\tn\r\n( ;(\né;)" ∧
      (Lexer.tokens "1;\nabc :\tn\r\n( ;(\né;)").map Token.bare =
        [(.cardinal, "1"), (.identifier, "abc"), (.invalid, ":"), (.cardinal, "n"), (.leftParen, "("),
          (.invalid, "é"), (.endOfInput, "")] := by
  intro gaps
  have hproper : (Lexer.proper "1abc:n(é").map Token.bare =
      [(.cardinal, "1"), (.identifier, "abc"), (.invalid, ":"), (.cardinal, "n"), (.leftParen, "("),
        (.invalid, "é")] := by
    decide +kernel
  have hlength : (Lexer.proper "1abc:n(é").length = 6 := by
    rw [← List.length_map (f := Token.bare), hproper]
    rfl
  have hparting : Parting (Lexer.proper "1abc:n(é").length gaps := by
    rw [hlength]
    have hline : IsTrivia ";\n".toList := @IsTrivia.comment [] [] (by decide) .nil
    have hcomment : IsTrivia " ;(\n".toList :=
      .blank rfl (@IsTrivia.comment ['('] [] (by decide) .nil)
    have hend : IsTrailing ";)".toList := @IsTrailing.running [] [')'] .nil (by decide)
    exact .next .nil (by decide) (.next hline (by decide) (.next (.blank rfl .nil) (by decide)
      (.next (.blank rfl .nil) (by decide) (.next (.blank rfl (.blank rfl .nil)) (by decide)
        (.next hcomment (by decide) (.last hend))))))
  have htext : Lexer.spaced gaps "1abc:n(é" = "1;\nabc :\tn\r\n( ;(\né;)" := by
    decide +kernel
  have htokens := tokens_spaced "1abc:n(é" hparting
  rw [htext, hproper] at htokens
  exact ⟨hparting, htext, htokens⟩

end ErDiagram
