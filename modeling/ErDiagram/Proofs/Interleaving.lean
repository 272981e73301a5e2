import ErDiagram.Proofs.Tiling

/-!
A lexer asked in any order. It can be read token by token and as an iterator, and it makes no difference
to the tokens which of the two each of them is asked from: together the answers are the tokens of the
source text in order, and then the end of input again and again. What differs is how they end. The
iterator is silent once it has answered the end of input itself, however often the end has been answered
otherwise.
-/

namespace ErDiagram.Lexer

def Reply.token? : Reply → Option Token
  | .token found => some found
  | .nothing => none
  | .source _ => none

def tokensAnswered (lexer : Lexer) (calls : List Call) : List Token :=
  (lexer.answers calls).filterMap Reply.token?

def dialogue (lexer : Lexer) (calls : List Call) : List (Call × Reply) :=
  calls.zip (lexer.answers calls)

/-! ### One call -/

/-- What is answered behind the next token goes on with what is in front of the lexer. -/
theorem cons_isPrefix {lexer : Lexer} {tokens : List Token} {copies : Nat}
    (h : tokens <+: lexer.nextToken.2.tokensLeft ++
      List.replicate copies lexer.nextToken.2.endToken) :
    lexer.nextToken.1 :: tokens <+:
      lexer.tokensLeft ++ List.replicate (copies + 1) lexer.endToken := by
  obtain ⟨hnext | ⟨hnone, hend, hstill⟩, hsame⟩ := lexer.nextToken_cases
  · rw [hsame] at h
    rw [hnext, List.cons_append, List.cons_prefix_cons, List.replicate_succ', ← List.append_assoc]
    exact ⟨rfl, h.trans (List.prefix_append _ _)⟩
  · rw [hstill, hsame, List.nil_append] at h
    rw [hnone, hend, List.nil_append, List.replicate_succ, List.cons_prefix_cons]
    exact ⟨rfl, h⟩

section

variable {lexer : Lexer}

theorem answer_next_of_finished (h : lexer.finished = true) :
    lexer.answer .next = (.nothing, lexer) := by
  have hnext : lexer.next? = (none, lexer) := if_pos h
  rw [answer, hnext]

theorem answer_next_of_not_finished (h : lexer.finished = false) :
    lexer.answer .next = (.token lexer.nextToken.1,
      { lexer.nextToken.2 with finished := lexer.nextToken.1.kind = .endOfInput }) := by
  have hnext : lexer.next? = (some lexer.nextToken.1,
      { lexer.nextToken.2 with finished := lexer.nextToken.1.kind = .endOfInput }) := by
    rw [next?, if_neg (by simp [h])]
  rw [answer, hnext]

theorem source_answer (lexer : Lexer) (call : Call) :
    (lexer.answer call).2.source = lexer.source := by
  cases call with
  | nextToken => exact lexer.nextToken_unchanged.1
  | next =>
      cases h : lexer.finished with
      | true => rw [answer_next_of_finished h]
      | false =>
          rw [answer_next_of_not_finished h]
          exact lexer.nextToken_unchanged.1
  | source => rfl

/-- The iterator is finished behind a call if it was before, or if it answers the end of input to it. -/
theorem finished_answer (lexer : Lexer) (call : Call) :
    (lexer.answer call).2.finished = true ↔ lexer.finished = true ∨
      call = .next ∧ ∃ token, (lexer.answer call).1 = .token token ∧ token.kind = .endOfInput := by
  cases call with
  | nextToken =>
      rw [answer, lexer.nextToken_unchanged.2]
      simp
  | next =>
      cases h : lexer.finished with
      | true => simp [answer_next_of_finished h, h]
      | false => simp [answer_next_of_not_finished h]
  | source => simp [answer]

/-! ### Calls in any order -/

theorem dialogue_cons (lexer : Lexer) (call : Call) (calls : List Call) :
    lexer.dialogue (call :: calls) =
      (call, (lexer.answer call).1) :: (lexer.answer call).2.dialogue calls := rfl

theorem tokensAnswered_cons (lexer : Lexer) (call : Call) (calls : List Call) :
    lexer.tokensAnswered (call :: calls) =
      (lexer.answer call).1.token?.toList ++ (lexer.answer call).2.tokensAnswered calls := by
  rw [tokensAnswered, answers, List.filterMap_cons]
  cases (lexer.answer call).1.token? <;> rfl

theorem length_answers (lexer : Lexer) (calls : List Call) :
    (lexer.answers calls).length = calls.length := by
  induction calls generalizing lexer with
  | nil => rfl
  | cons call calls ih => rw [answers, List.length_cons, ih, List.length_cons]

/-- The tokens that are answered are those in front of the lexer, in order, with the end of input behind
them as often as it is asked for. -/
theorem tokensAnswered_isPrefix (lexer : Lexer) (calls : List Call) :
    ∃ copies, lexer.tokensAnswered calls <+:
      lexer.tokensLeft ++ List.replicate copies lexer.endToken := by
  induction calls generalizing lexer with
  | nil => exact ⟨0, List.nil_prefix⟩
  | cons call calls ih =>
      rw [tokensAnswered_cons]
      cases call with
      | nextToken =>
          obtain ⟨copies, hprefix⟩ := ih lexer.nextToken.2
          exact ⟨copies + 1, cons_isPrefix hprefix⟩
      | next =>
          cases h : lexer.finished with
          | true =>
              rw [answer_next_of_finished h]
              exact ih lexer
          | false =>
              rw [answer_next_of_not_finished h]
              -- the mark that the iterator is finished has no part in what stands in front of it
              obtain ⟨copies, hprefix⟩ := ih
                { lexer.nextToken.2 with finished := lexer.nextToken.1.kind = .endOfInput }
              exact ⟨copies + 1, cons_isPrefix hprefix⟩
      | source => exact ih lexer

/-- Each answer in a dialogue is given by a lexer of the same source text. -/
theorem exists_lexer_of_mem_dialogue {calls : List Call} {call : Call} {reply : Reply}
    (h : (call, reply) ∈ lexer.dialogue calls) :
    ∃ asked : Lexer, asked.source = lexer.source ∧ (asked.answer call).1 = reply := by
  induction calls generalizing lexer with
  | nil => cases h
  | cons first calls ih =>
      rw [dialogue_cons] at h
      rcases List.mem_cons.1 h with heq | h
      · cases heq
        exact ⟨lexer, rfl, rfl⟩
      · obtain ⟨asked, hsource, hreply⟩ := ih h
        exact ⟨asked, hsource.trans (lexer.source_answer first), hreply⟩

/-- The iterator is silent if it was finished at first or has answered the end of input since. -/
theorem eq_nothing_iff {calls : List Call} {earlier later : List (Call × Reply)} {reply : Reply}
    (h : lexer.dialogue calls = earlier ++ (.next, reply) :: later) :
    reply = .nothing ↔ lexer.finished = true ∨
      ∃ token, (.next, .token token) ∈ earlier ∧ token.kind = .endOfInput := by
  induction calls generalizing lexer earlier with
  | nil => simp [dialogue] at h
  | cons call calls ih =>
      rw [dialogue_cons] at h
      cases earlier with
      | nil =>
          obtain ⟨hfirst, -⟩ := List.cons.inj h
          obtain ⟨rfl, rfl⟩ := Prod.mk.inj hfirst
          cases hfinished : lexer.finished with
          | true => simp [answer_next_of_finished hfinished]
          | false => simp [answer_next_of_not_finished hfinished]
      | cons first earlier =>
          obtain ⟨rfl, hrest⟩ := List.cons.inj h
          rw [ih hrest, finished_answer, or_assoc]
          refine or_congr_right ?_
          constructor
          · rintro (⟨rfl, token, htoken, hkind⟩ | ⟨token, htoken, hkind⟩)
            · exact ⟨token, List.mem_cons.2 (Or.inl (congrArg _ htoken.symm)), hkind⟩
            · exact ⟨token, List.mem_cons_of_mem _ htoken, hkind⟩
          · rintro ⟨token, htoken, hkind⟩
            rcases List.mem_cons.1 htoken with heq | htoken
            · obtain ⟨hcall, hreply⟩ := Prod.mk.inj heq
              exact Or.inl ⟨hcall.symm, token, hreply.symm, hkind⟩
            · exact Or.inr ⟨token, htoken, hkind⟩

end

/-- How a lexer serves calls in any order. -/
structure Serves (source : String) (calls : List Call) : Prop where
  /-- Going through the text byte by byte, every call is answered, and the same. -/
  sliced : (Cursor.ofSource source).answers? calls = some ((ofSource source).answers calls)
  complete : ((ofSource source).answers calls).length = calls.length
  /-- The tokens that are answered are those that the iterator would answer on its own, in order, with
  copies of the end of input behind them. -/
  tokens : ∃ copies, (ofSource source).tokensAnswered calls <+:
    Lexer.tokens source ++ List.replicate copies ⟨.endOfInput, "", byteLength source⟩
  /-- On its own the iterator answers the tokens of the source text, and then nothing any more. -/
  iterated : ∀ count, (ofSource source).answers (List.replicate count .next) =
    ((Lexer.tokens source).map Reply.token ++ List.replicate count Reply.nothing).take count
  /-- The next token is answered whenever it is asked for. -/
  token : ∀ reply, (.nextToken, reply) ∈ (ofSource source).dialogue calls →
    ∃ token, reply = .token token
  /-- The iterator answers a token or nothing, and nothing just if it has answered the end of input
  before. -/
  next : ∀ earlier reply later,
    (ofSource source).dialogue calls = earlier ++ (.next, reply) :: later →
      ((∃ token, reply = .token token) ∨ reply = .nothing) ∧ (reply = .nothing ↔
        ∃ token, (.next, .token token) ∈ earlier ∧ token.kind = .endOfInput)
  source : ∀ reply, (.source, reply) ∈ (ofSource source).dialogue calls → reply = .source source

/-- Whatever a lexer is asked in whatever order, the tokens come once each and in order. -/
theorem serves (source : String) (calls : List Call) : Serves source calls where
  sliced := (Cursor.follows_ofSource source).answers? calls
  complete := length_answers _ calls
  tokens := by
    obtain ⟨copies, hprefix⟩ := (ofSource source).tokensAnswered_isPrefix calls
    have hleft : Lexer.tokens source =
        (ofSource source).tokensLeft ++ [⟨.endOfInput, "", byteLength source⟩] := tokens_eq source
    have hend : (ofSource source).endToken = ⟨.endOfInput, "", byteLength source⟩ := by
      rw [endToken, ofSource, Nat.zero_add, byteLength]
    refine ⟨copies, hprefix.trans ?_⟩
    rw [hend, hleft, List.append_assoc, List.singleton_append, ← List.replicate_succ,
      List.replicate_succ', ← List.append_assoc]
    exact List.prefix_append _ _
  iterated := answers_replicate_next rfl
  token _ hreply := by
    obtain ⟨asked, -, rfl⟩ := exists_lexer_of_mem_dialogue hreply
    exact ⟨_, rfl⟩
  next earlier reply later hdialogue := by
    have hmem : (.next, reply) ∈ (ofSource source).dialogue calls := by simp [hdialogue]
    obtain ⟨asked, -, hreply⟩ := exists_lexer_of_mem_dialogue hmem
    have hnothing := eq_nothing_iff hdialogue
    rw [show (ofSource source).finished = false from rfl] at hnothing
    refine ⟨?_, by simpa using hnothing⟩
    cases hfinished : asked.finished with
    | true => exact Or.inr (hreply ▸ congrArg Prod.fst (answer_next_of_finished hfinished))
    | false =>
        exact Or.inl ⟨_, hreply ▸ congrArg Prod.fst (answer_next_of_not_finished hfinished)⟩
  source reply hreply := by
    obtain ⟨asked, hsource, rfl⟩ := exists_lexer_of_mem_dialogue hreply
    exact congrArg Reply.source hsource

-- The iterator answers an end of input of its own behind those that were answered to other calls.
example : (ofSource "(").answers [.nextToken, .nextToken, .next, .source, .next, .nextToken] =
    [.token ⟨.leftParen, "(", 0⟩, .token ⟨.endOfInput, "", 1⟩, .token ⟨.endOfInput, "", 1⟩,
      .source "(", .nothing, .token ⟨.endOfInput, "", 1⟩] := by
  decide +kernel

end ErDiagram.Lexer
