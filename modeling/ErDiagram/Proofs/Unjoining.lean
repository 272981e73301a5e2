import ErDiagram.Proofs.Lexemes
import ErDiagram.Proofs.Splitting

/-!
A pair in a source text, taken apart. If a gap stands where its colon stood, then the lexer finds the
two bounds in place of the pair, and all other tokens as before: what goes on a token in front of the
pair is the same, and the second bound ends where the pair did. With this, all that is said of tokens
is said of source texts, and the lexer, the decoders and the readers agree on what cardinalities are.
-/

namespace ErDiagram

/-! ### Tokens in front of a text -/

/-- A token that stands behind trivia is the first one. -/
theorem scan_token {kind : Token.Kind} {gap word after : List Char} (hgap : IsTrivia gap)
    (hbefore : TokenBefore kind word after) {c : Char} (hfirst : word.head? = some c)
    (hstands : Stands c) (offset : Nat) :
    scan offset (gap ++ (word ++ after)) =
      ⟨kind, String.ofList word, offset + (utf8Bytes gap).length⟩ ::
        scan (offset + (utf8Bytes gap).length + (utf8Bytes word).length) after := by
  obtain ⟨tail, rfl⟩ : ∃ tail, word = c :: tail := by
    cases word with
    | nil => cases hfirst
    | cons d tail =>
        cases hfirst
        exact ⟨tail, rfl⟩
  have hcut : cutToken c (tail ++ after) = (kind, c :: tail, after) := hbefore.cutToken_eq rfl
  rw [List.cons_append, scan_of_skipTrivia_cons (skipTrivia_front hgap hstands offset _), hcut]

theorem stands_of_isDigit {c : Char} (h : c.isDigit) : Stands c := by
  have hblank : isBlank c = false := by
    simp [isBlank, ne_of_isDigit h (d := ' ') rfl, ne_of_isDigit h (d := '\t') rfl,
      ne_of_isDigit h (d := '\r') rfl, ne_of_isDigit h (d := '\n') rfl]
  exact ⟨hblank, ne_of_isDigit h rfl⟩

theorem IsBound.exists_first {bound : List Char} (h : IsBound bound) :
    ∃ c, bound.head? = some c ∧ Stands c := by
  rcases h with rfl | rfl | ⟨hne, hdigits⟩
  · exact ⟨'n', rfl, by decide, by decide⟩
  · exact ⟨'N', rfl, by decide, by decide⟩
  · obtain ⟨c, rest, rfl⟩ := List.exists_cons_of_ne_nil hne
    exact ⟨c, rfl, stands_of_isDigit (hdigits c List.mem_cons_self)⟩

theorem IsBound.boundBefore {bound after : List Char} (h : IsBound bound) (hafter : Breaks after ∨
      ∃ rest, after = ':' :: rest) : BoundBefore bound after := by
  have hword : ∀ d ∈ after.head?, ErDiagram.isWordChar d = false := by
    rcases hafter with hbreaks | ⟨rest, rfl⟩
    · exact fun d hd => (hbreaks d hd).1
    · intro d hd
      cases hd
      decide
  rcases h with rfl | rfl | ⟨hne, hdigits⟩
  · exact .letter (Or.inl rfl) hword
  · exact .letter (Or.inr rfl) hword
  · exact .digits hne hdigits fun d hd => not_isDigit_of_not_isWordChar (hword d hd)

theorem Breaks.not_joinsBound {text : List Char} (h : Breaks text) : ¬JoinsBound text := by
  rintro ⟨upper, after, rfl, -⟩
  exact (breaks_cons.1 h).2 rfl

/-- What stands behind three characters does not matter to the token in front of them. -/
theorem akin_of_three (a b c : Char) (rest text image : List Char) :
    Akin (a :: b :: c :: rest ++ text) (a :: b :: c :: rest ++ image) where
  word := rfl
  digit := rfl
  bound := rfl
  pair := by
    by_cases h : a = ':'
    · subst h
      rfl
    · exact (joinsBound_cons h _).trans (joinsBound_cons h _).symm

def cardWord : List Char :=
  ['c', 'a', 'r', 'd']

theorem tokenBefore_cardWord {after : List Char} (h : Breaks after) :
    TokenBefore (.reserved .cardinality) cardWord after := by
  apply TokenBefore.reserved
  · exact ⟨by decide, List.all_eq_true.1 (by decide), fun d hd => (h d hd).1, nofun⟩
  · decide

theorem length_utf8Bytes_pos {text : List Char} (h : text ≠ []) : 0 < (utf8Bytes text).length := by
  obtain ⟨c, rest, rfl⟩ := List.exists_cons_of_ne_nil h
  have hpos := c.utf8Size_pos
  rw [utf8Bytes_cons, List.length_append, String.length_utf8EncodeChar]
  omega

/-- Of two fronts of a text, the one that takes no fewer bytes goes on from the other. -/
theorem exists_append_of_le {front word text after : List Char} (h : front ++ text = word ++ after)
    (hle : (utf8Bytes word).length ≤ (utf8Bytes front).length) :
    ∃ more, front = word ++ more ∧ after = more ++ text := by
  rcases List.append_eq_append_iff.1 h with ⟨more, rfl, rfl⟩ | hmore
  · -- here the other front would be longer, so it is not
    have hnil : more = [] := by
      by_contra hne
      have hpos := length_utf8Bytes_pos hne
      rw [utf8Bytes_append, List.length_append] at hle
      omega
    exact ⟨[], by simp [hnil], by simp [hnil]⟩
  · exact hmore

/-! ### The two texts -/

section

variable {lead lower gap upper back : List Char}

/-- A text that a pair behind `card` stands in, with a gap in front of the pair. -/
def joinedText (front lead lower upper back : List Char) : List Char :=
  front ++ (cardWord ++ (lead ++ ((lower ++ ':' :: upper) ++ back)))

/-- The same text with a gap in place of the colon. -/
def splitText (front lead lower gap upper back : List Char) : List Char :=
  front ++ (cardWord ++ (lead ++ (lower ++ (gap ++ (upper ++ back)))))

/-- Nothing is split in a text that stands elsewhere. -/
theorem splitsTo_scan (offset offset' : Nat) (text : List Char) :
    SplitsTo (scan offset text) (scan offset' text) := by
  have hshift (start : Nat) : scan start text = (scan 0 text).map (·.shift start) := by
    rw [← scan_shift, Nat.zero_add]
  rw [hshift offset, hshift offset']
  have hspelled := spelled_scan 0 text
  generalize scan 0 text = tokens at hspelled ⊢
  induction tokens with
  | nil => exact .nil
  | cons token rest ih =>
      obtain ⟨htoken, hrest⟩ := List.forall_mem_cons.1 hspelled
      exact .keep rfl htoken (ih hrest)

/-- Where `card` and a pair come next, either text is cut into `card` and the form that it has. -/
theorem splitsTo_front {front : List Char} (hfront : IsTrivia front) (hlead : IsTrivia lead)
    (hspaced : lead ≠ []) (hlower : IsBound lower) (hgap : IsTrivia gap) (hapart : gap ≠ [])
    (hupper : BoundBefore upper back) (halone : ¬JoinsBound back) (offset offset' : Nat) :
    SplitsTo (scan offset (joinedText front lead lower upper back))
      (scan offset' (splitText front lead lower gap upper back)) := by
  have hcard (after : List Char) : TokenBefore (.reserved .cardinality) cardWord (lead ++ after) :=
    tokenBefore_cardWord (hlead.breaks hspaced after)
  have hstands : Stands 'c' := ⟨by decide, by decide⟩
  have hbreaks := hgap.breaks hapart (upper ++ back)
  obtain ⟨c, hc, hcstands⟩ := hlower.exists_first
  obtain ⟨d, hd, hdstands⟩ := hupper.isBound.exists_first
  have hfirst : (lower ++ ':' :: upper).head? = some c := by simp [hc]
  have hpair : TokenBefore .cardinal (lower ++ ':' :: upper) back :=
    .pair (hlower.boundBefore (Or.inr ⟨_, rfl⟩)) hupper
  have hsingle : TokenBefore .cardinal lower (gap ++ (upper ++ back)) :=
    .single (hlower.boundBefore (Or.inl hbreaks)) hbreaks.not_joinsBound
  have hjoins (first second third : Nat) : Token.Joins
      ⟨.cardinal, String.ofList (lower ++ ':' :: upper), first⟩
      ⟨.cardinal, String.ofList lower, second⟩ ⟨.cardinal, String.ofList upper, third⟩ :=
    { text := String.toList_inj.1 (by simp)
      kind := rfl
      lower := ⟨rfl, by simpa using hlower⟩
      upper := ⟨rfl, by simpa using hupper.isBound⟩ }
  have hspelled : Keyword.isSpelled .cardinality (String.ofList cardWord) := by decide
  rw [joinedText, splitText, scan_token hfront (hcard _) rfl hstands,
    scan_token hlead hpair hfirst hcstands, scan_token hfront (hcard _) rfl hstands,
    scan_token hlead hsingle hc hcstands, scan_token hgap (.single hupper halone) hd hdstands]
  exact .split rfl rfl (Keyword.isToken_of_isSpelled hspelled) (hjoins _ _ _) (splitsTo_scan _ _ _)

/-- Up to the pair, what goes on a token goes on it in the other text too. -/
theorem akin_splitText (front : List Char) :
    Akin (joinedText front lead lower upper back) (splitText front lead lower gap upper back) := by
  obtain ⟨a, b, c, rest, hfront⟩ : ∃ a b c rest, front ++ cardWord = a :: b :: c :: rest := by
    rcases front with _ | ⟨a, _ | ⟨b, _ | ⟨c, front⟩⟩⟩ <;> exact ⟨_, _, _, _, rfl⟩
  rw [joinedText, splitText, ← List.append_assoc front, ← List.append_assoc front, hfront]
  exact akin_of_three a b c rest _ _

/-- Where `card` and a pair come anywhere in a text, splitting the pair splits one literal. -/
theorem splitsTo_joinedText {front : List Char} (hlead : IsTrivia lead) (hspaced : lead ≠ [])
    (hlower : IsBound lower) (hgap : IsTrivia gap) (hapart : gap ≠ [])
    (hupper : BoundBefore upper back) (halone : ¬JoinsBound back) (offset offset' : Nat)
    (hcard : ⟨.reserved .cardinality, "card", offset + (utf8Bytes front).length⟩ ∈
      scan offset (joinedText front lead lower upper back)) :
    SplitsTo (scan offset (joinedText front lead lower upper back))
      (scan offset' (splitText front lead lower gap upper back)) := by
  generalize htext : joinedText front lead lower upper back = text at hcard ⊢
  induction text using front_induction generalizing front offset offset' with
  | trivia text htrivia =>
      obtain ⟨stop, hskip⟩ := htrivia offset
      rw [scan_of_skipTrivia_nil hskip] at hcard
      cases hcard
  | token skipped c rest kind word after hskipped hc hcut ih =>
      obtain ⟨hsplit, htoken⟩ := isToken_cutToken c rest
      rw [hcut] at hsplit htoken
      dsimp only at hsplit htoken
      obtain ⟨first, tail, rfl, -⟩ := id htoken
      obtain rfl := (List.cons.inj hsplit).1
      have hscan (start : Nat) := scan_of_skipTrivia_cons (skipTrivia_front hskipped hc start rest)
      simp only [hcut] at hscan
      rw [hsplit] at htext
      rw [hscan offset] at hcard
      rcases List.mem_cons.1 hcard with hfirst | hlater
      · -- the word is the next token, so that just trivia stand in front of it
        have hlength := congrArg Token.offset hfirst
        dsimp only at hlength
        obtain ⟨more, rfl, -⟩ := exists_append_of_le htext (by omega)
        have hmore : more = [] := by
          by_contra hne
          have hpos := length_utf8Bytes_pos hne
          rw [utf8Bytes_append, List.length_append] at hlength
          omega
        rw [hsplit, ← htext, hmore, List.append_nil]
        exact splitsTo_front hskipped hlead hspaced hlower hgap hapart hupper halone _ _
      · -- the word comes later, so that the next token stands in front of it in both texts
        have hle := (mem_scan hlater).2.2.1
        dsimp only at hle
        rw [joinedText, ← List.append_assoc skipped] at htext
        obtain ⟨more, rfl, rfl⟩ := exists_append_of_le htext (by
          rw [utf8Bytes_append, List.length_append]
          omega)
        have hother : splitText (skipped ++ c :: tail ++ more) lead lower gap upper back =
            skipped ++ c :: (tail ++ splitText more lead lower gap upper back) := by
          simp [splitText]
        rw [hscan, hother, scan_of_skipTrivia_cons (skipTrivia_front hskipped hc offset' _),
          cutToken_recut hcut (akin_splitText more)]
        refine .keep rfl (by rwa [Token.Spelled, String.toList_ofList]) (ih _ _ rfl ?_)
        rwa [utf8Bytes_append, utf8Bytes_append, List.length_append, List.length_append,
          ← Nat.add_assoc, ← Nat.add_assoc] at hlater

end

/-! ### Literals and cardinalities -/

/-- The lexer, the decoders and the readers agree on what cardinalities are. -/
structure CardinalitiesAgree : Prop where
  /-- What is decoded is one literal. -/
  lexed : ∀ text, ((∃ bound, Bound.ofString text = .ok bound) ∨
      ∃ cardinality, Cardinality.ofString text = .ok cardinality) →
    Lexer.tokens text = [⟨.cardinal, text, 0⟩, ⟨.endOfInput, "", byteLength text⟩]
  /-- A literal is decoded, unless a number in it does not fit a word. -/
  decoded : ∀ source, ∀ literal ∈ Lexer.tokens source, literal.kind = .cardinal →
    (literal.Decodes ↔ FitsWords literal.text.toList)
  /-- An attribute takes its cardinality from a pair and from its bounds alike. -/
  taken : ∀ joined lower upper card : Token, joined.Joins lower upper →
    card.kind = .reserved .cardinality → ∀ rest rest' depth builder,
      TakenAlike joined lower upper
        (fun cardinality => .ok () ⟨rest, depth, builder.setCardinality cardinality⟩)
        (fun cardinality => .ok () ⟨rest', depth, builder.setCardinality cardinality⟩)
        (Reader.details Builder.meaning .attribute ⟨card :: joined :: rest, depth, builder⟩)
        (Reader.details Builder.meaning .attribute
          ⟨card :: lower :: upper :: rest', depth, builder⟩)
  /-- And so does a branch to an entity in reach. -/
  branched : ∀ joined lower upper card entity : Token, joined.Joins lower upper →
    card.kind = .reserved .cardinality → entity.kind = .identifier →
    ∀ rest rest' depth (builder : Builder) id keyword,
      builder.findVisible .entity entity.text = .ok id →
      TakenAlike joined lower upper
        (fun cardinality => .ok () ⟨rest, depth, builder.branched id cardinality⟩)
        (fun cardinality => .ok () ⟨rest', depth, builder.branched id cardinality⟩)
        (Reader.branch Builder.meaning keyword ⟨entity :: card :: joined :: rest, depth, builder⟩)
        (Reader.branch Builder.meaning keyword
          ⟨entity :: card :: lower :: upper :: rest', depth, builder⟩)
  /-- Whole fields are read alike where pairs are split. -/
  read : ∀ budget owner (before before' : Reading Builder), SplitsTo.Shows before before' →
    SplitsTo.Ends (fun _ _ => True) (Reader.field Builder.meaning budget owner before)
      (Reader.field Builder.meaning budget owner before')
  /-- So where `card` is read in front of a pair, a gap in place of the colon makes no difference to
  whether the source text compiles, and to which graph. -/
  compiled : ∀ front lead lower gap upper back, IsTrivia lead → lead ≠ [] → IsBound lower →
    IsTrivia gap → gap ≠ [] → BoundBefore upper back → ¬JoinsBound back →
    ⟨.reserved .cardinality, "card", (utf8Bytes front).length⟩ ∈
      Lexer.tokens (String.ofList (joinedText front lead lower upper back)) →
    ∀ graph, compile (String.ofList (joinedText front lead lower upper back)) = .ok graph ↔
      compile (String.ofList (splitText front lead lower gap upper back)) = .ok graph

/-- What the lexer takes for a literal, what decodes, and what either form of a cardinality is read
as are one and the same. -/
theorem cardinalities_agree : CardinalitiesAgree where
  lexed _ h := tokens_of_isCardinal (isCardinal_of_decoded h)
  decoded _ _ hmem hkind := Token.decodes_iff (isCardinal_of_mem_tokens hmem hkind)
  taken _ _ _ _ hjoins hcard rest rest' depth builder :=
    details_alike hjoins hcard rest rest' depth builder
  branched _ _ _ _ _ hjoins hcard hentity rest rest' depth _ _ keyword hid :=
    branch_alike hjoins hcard rest rest' depth hentity hid keyword
  read budget owner _ _ hshows := SplitsTo.Reads.field budget owner _ _ hshows
  compiled front lead lower gap upper back hlead hspaced hlower hgap hapart hupper halone hcard := by
    apply SplitsTo.compile_split
    rw [String.toList_ofList, String.toList_ofList]
    apply splitsTo_joinedText hlead hspaced hlower hgap hapart hupper halone
    rw [tokens_eq, String.toList_ofList] at hcard
    rcases List.mem_append.1 hcard with hscan | hend
    · rwa [Nat.zero_add]
    · cases List.mem_singleton.1 hend

example : ∃ graph, compile "(entity a (attr x card 01:n))" = .ok graph ∧
    compile "(entity a (attr x card 01 n))" = .ok graph ∧
    graph.nodes.map (·.cardinality) = [none, none, some ⟨.count 1, .many⟩] := by
  refine ⟨⟨[⟨.start, 0, "start", [1], none, none⟩, ⟨.entity, 1, "a", [2], none, none⟩,
    ⟨.attribute, 2, "x", [], some ⟨.count 1, .many⟩, none⟩], by decide⟩, ?_⟩
  decide +kernel

end ErDiagram
