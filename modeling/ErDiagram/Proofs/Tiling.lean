import ErDiagram.Proofs.Cursors
import ErDiagram.Proofs.Pointing
import ErDiagram.Proofs.Resynchronizing

/-!
The tokens of a source text tile it. They follow one another through the text, each where its own
text stands, and what they leave out is trivia: every byte belongs to one token or to the trivia
between two neighbours. The iterator answers just these tokens, the end of input last, and going
through the text byte by byte comes to the same.
-/

namespace ErDiagram

/-! ### Places of tokens and of trivia -/

def Token.stop (token : Token) : Nat :=
  token.offset + (utf8Bytes token.text.toList).length

/-- The byte at a place is one of the token's. -/
def Token.Covers (token : Token) (place : Nat) : Prop :=
  token.offset ≤ place ∧ place < token.stop

/-- From one place to another, a source text holds trivia only. A comment in it ends with a line
feed, or else with the text. -/
def Lexer.Gap (source : String) (start stop : Nat) : Prop :=
  ∃ front gap back, source.toList = front ++ (gap ++ back) ∧ start = (utf8Bytes front).length ∧
    stop = start + (utf8Bytes gap).length ∧ (IsTrivia gap ∨ back = [] ∧ IsTrailing gap)

/-- The place behind the last of some tokens, or the start of the text. -/
def Token.stopOf (tokens : List Token) : Nat :=
  tokens.getLast?.elim 0 Token.stop

/-- How the tokens of a source text tile it. -/
structure Lexer.Tiles (source : String) : Prop where
  /-- Byte by byte, no slice fails, and whatever is asked has the same answer. -/
  sliced : ∀ calls : List Lexer.Call,
    (Cursor.ofSource source).answers? calls = some ((Lexer.ofSource source).answers calls)
  /-- The iterator answers the tokens one by one, and then nothing any more. -/
  iterated : ∀ calls : Nat, (Lexer.ofSource source).answers (List.replicate calls .next) =
    ((Lexer.tokens source).map Lexer.Reply.token ++
      List.replicate calls Lexer.Reply.nothing).take calls
  count : (Lexer.tokens source).length ≤ byteLength source + 1
  /-- The end of input is the last token, it has no text, and no other token is one. -/
  ends : ∃ front, Lexer.tokens source = front ++ [⟨.endOfInput, "", byteLength source⟩] ∧
    ∀ token ∈ front, token.kind ≠ .endOfInput
  ascending : (Lexer.tokens source).Pairwise (·.offset < ·.offset)
  /-- The texts of all other tokens stand in the source text, between characters. -/
  stands : ∀ token ∈ Lexer.tokens source, token.kind ≠ .endOfInput →
    token.text ≠ "" ∧ token.StandsIn source
  apart : (Lexer.tokens source).Pairwise (·.stop ≤ ·.offset)
  /-- In front of each token, from the one before or from the start on, there is trivia only. -/
  gaps : ∀ front token back, Lexer.tokens source = front ++ token :: back →
    Lexer.Gap source (Token.stopOf front) token.offset
  /-- Every byte is of one token, or else of trivia. -/
  covered : ∀ place < byteLength source,
    (∃! token, token ∈ Lexer.tokens source ∧ token.Covers place) ∨
      (∀ token ∈ Lexer.tokens source, ¬token.Covers place) ∧
        ∃ start stop, Lexer.Gap source start stop ∧ start ≤ place ∧ place < stop

/-! ### Tokens one behind the other -/

/-- From an offset on, a text is trivia and tokens in turn, and the end of input is behind it. -/
inductive Tiled : Nat → List Char → List Token → Prop where
  | done {offset : Nat} {gap : List Char} (hgap : IsTrailing gap) :
    Tiled offset gap [⟨.endOfInput, "", offset + (utf8Bytes gap).length⟩]
  | next {offset : Nat} {gap rest : List Char} {token : Token} {tokens : List Token}
    (hgap : IsTrivia gap) (hoffset : token.offset = offset + (utf8Bytes gap).length)
    (hrest : Tiled token.stop rest tokens) :
    Tiled offset (gap ++ (token.text.toList ++ rest)) (token :: tokens)

theorem tiled_scan (offset : Nat) (text : List Char) :
    Tiled offset text
      (scan offset text ++ [⟨.endOfInput, "", offset + (utf8Bytes text).length⟩]) := by
  induction text using front_induction generalizing offset with
  | trivia text htrivia =>
      obtain ⟨stop, hskip⟩ := htrivia offset
      rw [scan_of_skipTrivia_nil hskip]
      exact .done (isTrailing_of_skipTrivia hskip)
  | token gap c rest kind word after hgap hc hcut ih =>
      have hsplit := (isToken_cutToken c rest).1
      rw [hcut] at hsplit
      rw [scan_of_skipTrivia_cons (skipTrivia_front hgap hc offset rest), hcut, hsplit]
      dsimp only
      have hword : (String.ofList word).toList = word := String.toList_ofList
      have hrest := ih (offset + (utf8Bytes gap).length + (utf8Bytes word).length)
      rw [utf8Bytes_append, utf8Bytes_append, List.length_append, List.length_append,
        ← Nat.add_assoc, ← Nat.add_assoc]
      have htiled := @Tiled.next offset gap after
        ⟨kind, String.ofList word, offset + (utf8Bytes gap).length⟩ _ hgap rfl
        (by rwa [Token.stop, hword])
      rwa [hword] at htiled

theorem Tiled.le_offset {offset : Nat} {text : List Char} {tokens : List Token}
    (h : Tiled offset text tokens) : ∀ token ∈ tokens, offset ≤ token.offset := by
  induction h with
  | done => simp
  | next hgap hoffset hrest ih =>
      refine List.forall_mem_cons.2 ⟨by omega, fun token htoken => ?_⟩
      have hle := ih token htoken
      rw [Token.stop] at hle
      omega

theorem Tiled.apart {offset : Nat} {text : List Char} {tokens : List Token}
    (h : Tiled offset text tokens) : tokens.Pairwise (·.stop ≤ ·.offset) := by
  induction h with
  | done => exact List.pairwise_singleton _ _
  | next hgap hoffset hrest ih => exact List.pairwise_cons.2 ⟨hrest.le_offset, ih⟩

theorem Tiled.gap {source : String} {offset : Nat} {lead text : List Char} {tokens : List Token}
    (h : Tiled offset text tokens) (hsource : source.toList = lead ++ text)
    (hoffset : offset = (utf8Bytes lead).length) {front back : List Token} {token : Token}
    (htokens : tokens = front ++ token :: back) :
    Lexer.Gap source (front.getLast?.elim offset Token.stop) token.offset := by
  induction h generalizing lead front with
  | @done offset gap hgap =>
      cases front with
      | nil =>
          cases htokens
          exact ⟨lead, gap, [], by rw [hsource, List.append_nil], hoffset, rfl, Or.inr ⟨rfl, hgap⟩⟩
      | cons first front => simp at htokens
  | @next offset gap rest first tokens hgap hfirst hrest ih =>
      cases front with
      | nil =>
          cases htokens
          exact ⟨lead, gap, _, hsource, hoffset, hfirst, Or.inl hgap⟩
      | cons other front =>
          cases htokens
          have hlead : source.toList = lead ++ (gap ++ first.text.toList) ++ rest := by
            rw [hsource, List.append_assoc, List.append_assoc]
          have hstop : first.stop = (utf8Bytes (lead ++ (gap ++ first.text.toList))).length := by
            rw [Token.stop, hfirst, hoffset, utf8Bytes_append, utf8Bytes_append, List.length_append,
              List.length_append, Nat.add_assoc]
          have hlater := ih hlead hstop rfl
          rw [List.getLast?_cons]
          cases hlast : front.getLast? with
          | none => rwa [hlast] at hlater
          | some last => rwa [hlast] at hlater

theorem tiled_tokens (source : String) : Tiled 0 source.toList (Lexer.tokens source) := by
  have htiled := tiled_scan 0 source.toList
  rwa [Nat.zero_add, ← tokens_eq] at htiled

/-- In front of each token there is trivia only. -/
theorem gap_of_tokens {source : String} {front back : List Token} {token : Token}
    (h : Lexer.tokens source = front ++ token :: back) :
    Lexer.Gap source (Token.stopOf front) token.offset :=
  @Tiled.gap source 0 [] _ _ (tiled_tokens source) rfl rfl _ _ _ h

/-! ### Bytes -/

/-- The first token that ends behind a place, unless all end before it. -/
theorem exists_first_behind {tokens : List Token} {place : Nat}
    (h : ∃ token ∈ tokens, place < token.stop) :
    ∃ front token back, tokens = front ++ token :: back ∧ place < token.stop ∧
      ∀ before ∈ front, before.stop ≤ place := by
  obtain ⟨behind, hbehind, hplace⟩ := h
  have hfound : (tokens.find? (place < ·.stop)).isSome :=
    List.find?_isSome.2 ⟨behind, hbehind, decide_eq_true hplace⟩
  obtain ⟨token, htoken⟩ := Option.isSome_iff_exists.1 hfound
  obtain ⟨hstop, front, back, hsplit, hfront⟩ := List.find?_eq_some_iff_append.1 htoken
  exact ⟨front, token, back, hsplit, of_decide_eq_true hstop,
    fun before hbefore => by simpa using hfront before hbefore⟩

/-- Where the tokens are parted by gaps, every byte before the end is of one token or in a gap. -/
theorem covers_or_gap {source : String} {tokens : List Token} {place : Nat}
    (hapart : tokens.Pairwise (·.stop ≤ ·.offset))
    (hgaps : ∀ front token back, tokens = front ++ token :: back →
      Lexer.Gap source (Token.stopOf front) token.offset)
    (hplace : ∃ token ∈ tokens, place < token.stop) :
    (∃! token, token ∈ tokens ∧ token.Covers place) ∨
      (∀ token ∈ tokens, ¬token.Covers place) ∧
        ∃ start stop, Lexer.Gap source start stop ∧ start ≤ place ∧ place < stop := by
  obtain ⟨front, token, back, rfl, hstop, hfront⟩ := exists_first_behind hplace
  obtain ⟨-, hback, -⟩ := List.pairwise_append.1 hapart
  have hbehind := (List.pairwise_cons.1 hback).1
  have hothers : ∀ other ∈ front ++ token :: back, other.Covers place → other = token := by
    rintro other hother ⟨hlow, hhigh⟩
    rcases List.mem_append.1 hother with hother | hother
    · exact absurd hhigh (Nat.not_lt.2 (hfront other hother))
    · rcases List.mem_cons.1 hother with rfl | hother
      · rfl
      · have hle := hbehind other hother
        omega
  by_cases hoffset : token.offset ≤ place
  · exact Or.inl ⟨token, ⟨by simp, hoffset, hstop⟩, fun other hother => hothers other hother.1 hother.2⟩
  · refine Or.inr ⟨fun other hother hcovers => ?_, _, _, hgaps front token back rfl, ?_, by omega⟩
    · obtain rfl := hothers other hother hcovers
      exact hoffset hcovers.1
    · rw [Token.stopOf]
      cases hlast : front.getLast? with
      | none => exact Nat.zero_le _
      | some last => exact hfront last (List.mem_of_getLast? hlast)

/-! ### The iterator -/

theorem answers_of_finished {lexer : Lexer} (h : lexer.finished = true) (calls : Nat) :
    lexer.answers (List.replicate calls .next) = List.replicate calls Lexer.Reply.nothing := by
  induction calls with
  | zero => rfl
  | succ calls ih =>
      have hnext : lexer.next? = (none, lexer) := if_pos h
      rw [List.replicate_succ, List.replicate_succ, Lexer.answers, Lexer.answer, hnext]
      exact congrArg _ ih

/-- What an iterator answers that has not answered the end of input yet. -/
theorem answers_replicate_next {lexer : Lexer} (h : lexer.finished = false) (calls : Nat) :
    lexer.answers (List.replicate calls .next) =
      ((Lexer.tokensOnto [] lexer).map Lexer.Reply.token ++
        List.replicate calls Lexer.Reply.nothing).take calls := by
  induction calls generalizing lexer with
  | zero => rfl
  | succ calls ih =>
      have hnext : lexer.next? = (some lexer.nextToken.1,
          { lexer.nextToken.2 with finished := lexer.nextToken.1.kind = .endOfInput }) := by
        rw [Lexer.next?, if_neg (by simp [h])]
      rw [List.replicate_succ, Lexer.answers, Lexer.answer, hnext]
      dsimp only
      by_cases hend : lexer.nextToken.1.kind = .endOfInput
      · rw [answers_of_finished (decide_eq_true hend), Lexer.tokensOnto, if_pos hend]
        simp
      · have hrest : Lexer.tokensOnto [] lexer = lexer.nextToken.1 :: Lexer.tokensOnto []
            { lexer.nextToken.2 with finished := decide (lexer.nextToken.1.kind = .endOfInput) } := by
          rw [Lexer.tokensOnto, if_neg hend, tokensOnto_eq, tokensOnto_eq]
          rfl
        have htake : ∀ replies : List Lexer.Reply,
            (replies ++ List.replicate (calls + 1) Lexer.Reply.nothing).take calls =
              (replies ++ List.replicate calls Lexer.Reply.nothing).take calls := by
          intro replies
          rw [List.replicate_succ', ← List.append_assoc, List.take_append_of_le_length (by simp)]
        rw [ih (decide_eq_false hend), hrest, List.map_cons, List.cons_append, List.take_succ_cons,
          htake]

/-! ### The tiling -/

/-- The tokens of every source text tile it. -/
theorem tokens_tile (source : String) : Lexer.Tiles source where
  sliced := (Cursor.follows_ofSource source).answers?
  iterated := answers_replicate_next rfl
  count := by
    rw [tokens_eq, List.length_append]
    exact Nat.succ_le_succ (length_scan_le _)
  ends := ⟨scan 0 source.toList, tokens_eq source, fun token htoken => (mem_scan htoken).2.1⟩
  ascending := pairwise_tokens source
  stands token htoken hkind := by
    rw [tokens_eq] at htoken
    rcases List.mem_append.1 htoken with htoken | htoken
    · exact ⟨text_ne_empty_of_mem_scan htoken, standsIn_of_mem_scan htoken⟩
    · rw [List.mem_singleton.1 htoken] at hkind
      exact absurd rfl hkind
  apart := (tiled_tokens source).apart
  gaps _ _ _ htokens := gap_of_tokens htokens
  covered place hplace := by
    refine covers_or_gap (tiled_tokens source).apart (fun _ _ _ htokens => gap_of_tokens htokens) ?_
    refine ⟨⟨.endOfInput, "", byteLength source⟩, ?_, hplace⟩
    rw [tokens_eq]
    exact List.mem_append_right _ (List.mem_singleton.2 rfl)

end ErDiagram
