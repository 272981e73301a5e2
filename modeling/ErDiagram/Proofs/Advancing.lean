import ErDiagram.Pass.Declaration
import ErDiagram.Proofs.Stacking
import ErDiagram.Proofs.Stops

/-!
A pass and a reading side by side. The reading has before it the tokens that the pass has still to take
from its lexer, without the invalid ones; the pass has told of the invalid ones that lie behind it. As a
parenthesis takes a byte, a 32-bit word counts the depth without running over.
-/

namespace ErDiagram

theorem length_scan_le_length (offset : Nat) (text : List Char) :
    (scan offset text).length ≤ text.length := by
  fun_induction scan offset text with
  | case1 => exact Nat.zero_le _
  | case2 offset text start c rest hskip ih =>
      have hle := Lexer.length_skipTrivia_le false offset text
      have hlt := Lexer.length_cutToken_lt c rest
      rw [hskip] at hle
      rw [List.length_cons]
      dsimp only at hle
      omega

/-! ### Complaints -/

theorem complaint_eq {token : Token} (hend : token.kind ≠ .endOfInput)
    (hvalid : token.kind ≠ .invalid) (source : String) (category : Diagnostic.Category)
    (message : String) :
    complaint source token category message =
      Compile.diagnosticAt (utf8Bytes source.toList) (some token) category message := by
  obtain ⟨kind, text, offset⟩ := token
  cases kind with
  | endOfInput => exact absurd rfl hend
  | invalid => exact absurd rfl hvalid
  | leftParen | rightParen | identifier | cardinal | reserved => rfl

theorem invalidComplaint_eq {token : Token} (h : token.kind = .invalid) (source : String) :
    invalidComplaint source token =
      (Compile.lexicalFinding (utf8Bytes source.toList) token).diagnostic := by
  obtain ⟨kind, text, offset⟩ := token
  cases h
  rfl

/-! ### Valid tokens from a lexer -/

/-- What is told of the invalid ones among some tokens. -/
def complaintsIn (source : String) (tokens : List Token) : List Diagnostic :=
  (tokens.filter (·.kind = .invalid)).map (invalidComplaint source)

theorem complaintsIn_append (source : String) (front back : List Token) :
    complaintsIn source (front ++ back) = complaintsIn source front ++ complaintsIn source back := by
  rw [complaintsIn, List.filter_append, List.map_append]
  rfl

theorem complaintsIn_cons {token : Token} (h : token.kind = .invalid) (source : String)
    (rest : List Token) :
    complaintsIn source (token :: rest) =
      invalidComplaint source token :: complaintsIn source rest := by
  rw [complaintsIn, List.filter_cons_of_pos (by simpa using h), List.map_cons]
  rfl

theorem complaintsIn_cons_of_ne {token : Token} (h : token.kind ≠ .invalid) (source : String)
    (rest : List Token) : complaintsIn source (token :: rest) = complaintsIn source rest := by
  rw [complaintsIn, List.filter_cons_of_neg (by simpa using h)]
  rfl

namespace Lexer

theorem kind_ne_of_mem_tokensLeft {lexer : Lexer} {token : Token} (h : token ∈ lexer.tokensLeft) :
    token.kind ≠ .endOfInput :=
  (mem_scan h).2.1

/-- The tokens that come next, the first of which has been taken from the lexer. -/
def ahead (next : Token) (lexer : Lexer) : List Token :=
  if next.kind = .endOfInput then [] else next :: lexer.tokensLeft

theorem ahead_of_ne {next : Token} (h : next.kind ≠ .endOfInput) (lexer : Lexer) :
    ahead next lexer = next :: lexer.tokensLeft :=
  if_neg h

theorem ahead_of_eq {next : Token} (h : next.kind = .endOfInput) (lexer : Lexer) :
    ahead next lexer = [] :=
  if_pos h

/-- How a lexer comes to its first valid token: it passes over invalid tokens, and what is told is told
of these. -/
structure Passes (lexer : Lexer) (told : List Diagnostic) (next : Token) (after : Lexer)
    (toldAfter : List Diagnostic) : Prop where
  source_eq : after.source = lexer.source
  endToken_eq : after.endToken = lexer.endToken
  valid : next.kind ≠ .invalid
  ended : next.kind = .endOfInput → next = lexer.endToken
  passed : ∃ invalid : List Token, (∀ token ∈ invalid, token.kind = .invalid) ∧
    lexer.tokensLeft = invalid ++ ahead next after ∧
      toldAfter = told ++ complaintsIn lexer.source invalid

theorem passes_nextValid (lexer : Lexer) (told : List Diagnostic) :
    lexer.Passes told (lexer.nextValid told).1 (lexer.nextValid told).2.1
      (lexer.nextValid told).2.2 := by
  fun_induction Lexer.nextValid lexer told with
  | case1 lexer told hkind ih =>
      obtain ⟨hcases, hend⟩ := lexer.nextToken_cases
      have hsource := lexer.nextToken_unchanged.1
      obtain ⟨invalid, hinvalid, hleft, htold⟩ := ih.passed
      refine ⟨ih.source_eq.trans hsource, ih.endToken_eq.trans hend, ih.valid,
        fun h => (ih.ended h).trans hend, lexer.nextToken.1 :: invalid, ?_, ?_, ?_⟩
      · exact List.forall_mem_cons.2 ⟨hkind, hinvalid⟩
      · rcases hcases with hnext | ⟨-, hnext, -⟩
        · rw [hnext, hleft, List.cons_append]
        · rw [hnext] at hkind
          cases hkind
      · rw [htold, hsource, complaintsIn_cons hkind, List.append_assoc, List.singleton_append]
  | case2 lexer told hkind =>
      obtain ⟨hcases, hend⟩ := lexer.nextToken_cases
      refine ⟨lexer.nextToken_unchanged.1, hend, hkind, fun h => ?_, [], by simp, ?_,
        (List.append_nil told).symm⟩
      · rcases hcases with hnext | ⟨-, hnext, -⟩
        · exact absurd h (kind_ne_of_mem_tokensLeft (hnext ▸ List.mem_cons_self))
        · exact hnext
      · rcases hcases with hnext | ⟨hnone, hnext, -⟩
        · rw [List.nil_append, ahead_of_ne, hnext]
          exact kind_ne_of_mem_tokensLeft (hnext ▸ List.mem_cons_self)
        · rw [List.nil_append, ahead_of_eq (hnext ▸ rfl), hnone]

end Lexer

namespace Pass

/-- The tokens that a pass has before it, the invalid ones among them. -/
def ahead (pass : Pass) : List Token :=
  Lexer.ahead pass.next pass.lexer

def next? (pass : Pass) : Option Token :=
  if pass.next.kind = .endOfInput then none else some pass.next

theorem ahead_eq {pass : Pass} (h : pass.next.kind ≠ .endOfInput) :
    pass.ahead = pass.next :: pass.lexer.tokensLeft :=
  Lexer.ahead_of_ne h _

theorem ahead_eq_nil {pass : Pass} (h : pass.next.kind = .endOfInput) : pass.ahead = [] :=
  Lexer.ahead_of_eq h _

/-- A pass over a source text, somewhere in it. -/
structure Placed (source : String) (pass : Pass) : Prop where
  source_eq : pass.lexer.source = source
  endToken_eq : pass.lexer.endToken = ⟨.endOfInput, "", byteLength source⟩
  valid : pass.next.kind ≠ .invalid
  ended : pass.next.kind = .endOfInput → pass.next = ⟨.endOfInput, "", byteLength source⟩
  ahead : pass.ahead <:+ scan 0 source.toList

section

variable {source : String} {pass : Pass}

/-- Going on leads to the next valid token, and the invalid ones before it are told. -/
theorem advance_spec (hsource : pass.lexer.source = source)
    (hend : pass.lexer.endToken = ⟨.endOfInput, "", byteLength source⟩)
    (hleft : pass.lexer.tokensLeft <:+ scan 0 source.toList) :
    pass.advance.Placed source ∧ ∃ invalid : List Token,
      (∀ token ∈ invalid, token.kind = .invalid) ∧
        pass.lexer.tokensLeft = invalid ++ pass.advance.ahead ∧
          pass.advance.told = pass.told ++ complaintsIn source invalid := by
  have hpasses := pass.lexer.passes_nextValid pass.told
  obtain ⟨invalid, hinvalid, htokens, htold⟩ := hpasses.passed
  refine ⟨⟨hpasses.source_eq.trans hsource, hpasses.endToken_eq.trans hend, hpasses.valid,
    fun h => (hpasses.ended h).trans hend, ?_⟩, invalid, hinvalid, htokens, hsource ▸ htold⟩
  exact (htokens ▸ List.suffix_append invalid _).trans hleft

theorem placed_start (source : String) : (start source).Placed source ∧
    ∃ invalid : List Token, (∀ token ∈ invalid, token.kind = .invalid) ∧
      scan 0 source.toList = invalid ++ (start source).ahead ∧
        (start source).told = complaintsIn source invalid := by
  refine advance_spec rfl ?_ (List.suffix_refl _)
  rw [Lexer.endToken, Lexer.ofSource, Nat.zero_add, byteLength]

namespace Placed

variable (h : pass.Placed source)
include h

theorem tokensLeft_suffix (hnext : pass.next.kind ≠ .endOfInput) :
    pass.lexer.tokensLeft <:+ scan 0 source.toList := by
  have hahead := h.ahead
  rw [ahead_eq hnext] at hahead
  exact (List.suffix_cons _ _).trans hahead

theorem advance (hnext : pass.next.kind ≠ .endOfInput) : pass.advance.Placed source :=
  (advance_spec h.source_eq h.endToken_eq (h.tokensLeft_suffix hnext)).1

/-- The token that comes next starts inside the text, or where it ends. -/
theorem offset_le : pass.next.offset ≤ byteLength source := by
  by_cases hend : pass.next.kind = .endOfInput
  · rw [h.ended hend]
  · have hmem : pass.next ∈ scan 0 source.toList :=
      h.ahead.subset (ahead_eq hend ▸ List.mem_cons_self)
    have hlt := (mem_scan hmem).2.2.2
    rw [byteLength]
    omega

/-- What comes later starts later, and so does the end of input. -/
theorem offset_lt (hnext : pass.next.kind ≠ .endOfInput) :
    pass.next.offset < byteLength source ∧
      ∀ token ∈ pass.lexer.tokensLeft, pass.next.offset < token.offset := by
  have hahead := h.ahead
  rw [ahead_eq hnext] at hahead
  have hlt := (mem_scan (hahead.subset List.mem_cons_self)).2.2.2
  rw [byteLength]
  exact ⟨by omega, (List.pairwise_cons.1 ((pairwise_scan 0 _).sublist hahead.sublist)).1⟩

/-- Going on leads further on. -/
theorem offset_lt_advance (hnext : pass.next.kind ≠ .endOfInput) :
    pass.next.offset < pass.advance.next.offset := by
  obtain ⟨hbefore, hlater⟩ := h.offset_lt hnext
  obtain ⟨hplaced, invalid, -, hleft, -⟩ :=
    advance_spec h.source_eq h.endToken_eq (h.tokensLeft_suffix hnext)
  by_cases hend : pass.advance.next.kind = .endOfInput
  · rw [hplaced.ended hend]
    exact hbefore
  · refine hlater _ ?_
    rw [hleft, ahead_eq hend]
    simp

/-- A complaint about a token that was read is about a token of the reading. -/
theorem complaint_next (category : Diagnostic.Category) (message : String) :
    complaint source pass.next category message =
      Compile.diagnosticAt (utf8Bytes source.toList) pass.next? category message := by
  by_cases hend : pass.next.kind = .endOfInput
  · rw [h.ended hend, next?, if_pos hend]
    rfl
  · rw [next?, if_neg hend]
    exact complaint_eq hend h.valid source category message

end Placed
end

/-! ### A pass and a reading -/

/-- A pass that began a declaration somewhere, and a reading at the same place: the same tokens come
next, the same is open, the same has been built, and the invalid tokens passed over since have been
told. -/
structure Shows (source : String) (base pass : Pass) (reading : Reading Builder) : Prop where
  placed : pass.Placed source
  passed : ∃ skipped, base.ahead = skipped ++ pass.ahead ∧
    pass.told = base.told ++ complaintsIn source skipped
  unread_eq : reading.unread = Compile.significant pass.ahead
  depth_eq : pass.depth.toInt = reading.depth
  depth_le : reading.depth.natAbs ≤ pass.next.offset
  built_eq : pass.built = Builder.Stacks.ofBuilder reading.state

theorem significant_of_invalid {tokens : List Token} (h : ∀ token ∈ tokens, token.kind = .invalid) :
    Compile.significant tokens = [] := by
  refine List.filter_eq_nil_iff.2 fun token htoken => ?_
  simp [h token htoken]

/-- A 32-bit word goes up and down by one like a number, as long as it is not too large. -/
theorem depth_advance {pass : Pass} (h : pass.depth.toInt.natAbs + 1 < 2 ^ 31) :
    pass.advance.depth.toInt = pass.depth.toInt + pass.next.nesting := by
  have hone : (1 : Int32).toInt = 1 := rfl
  unfold Pass.advance Token.nesting
  dsimp only
  cases pass.next.kind with
  | leftParen =>
      dsimp only
      rw [Int32.toInt_add, hone]
      exact Int.bmod_eq_of_le (by omega) (by omega)
  | rightParen =>
      dsimp only
      rw [Int32.toInt_sub, hone]
      exact Int.bmod_eq_of_le (by omega) (by omega)
  | endOfInput | invalid | identifier | cardinal | reserved => exact (Int.add_zero _).symm

namespace Shows

variable {source : String} {base pass : Pass} {reading : Reading Builder}
variable (h : Shows source base pass reading)
include h

theorem next?_eq : reading.next? = pass.next? := by
  rw [Reading.next?, h.unread_eq, next?]
  by_cases hend : pass.next.kind = .endOfInput
  · rw [ahead_eq_nil hend, if_pos hend]
    rfl
  · have hvalid := h.placed.valid
    rw [ahead_eq hend, if_neg hend, Compile.significant, List.filter_cons_of_pos (by simp [*])]
    rfl

theorem unread_of_ne (hend : pass.next.kind ≠ .endOfInput) :
    reading.unread = pass.next :: Compile.significant pass.lexer.tokensLeft := by
  have hvalid := h.placed.valid
  rw [h.unread_eq, ahead_eq hend, Compile.significant, List.filter_cons_of_pos (by simp [*])]
  rfl

/-- Both go on by one token. -/
theorem advance (hbytes : byteLength source < 2 ^ 31) (hend : pass.next.kind ≠ .endOfInput) :
    Shows source base pass.advance reading.advance := by
  obtain ⟨skipped, hskipped, htold⟩ := h.passed
  obtain ⟨hplaced, invalid, hinvalid, hleft, htold'⟩ :=
    advance_spec h.placed.source_eq h.placed.endToken_eq (h.placed.tokensLeft_suffix hend)
  have hfurther := h.placed.offset_lt_advance hend
  have hword := hplaced.offset_le
  have hadvance : reading.advance =
      ⟨Compile.significant pass.lexer.tokensLeft, reading.depth + pass.next.nesting,
        reading.state⟩ := by
    rw [Reading.advance, h.unread_of_ne hend]
  have hdepth : pass.advance.depth.toInt = reading.depth + pass.next.nesting := by
    have hle := h.depth_le
    rw [← h.depth_eq] at hle ⊢
    exact depth_advance (by omega)
  rw [hadvance]
  refine ⟨hplaced, ⟨skipped ++ pass.next :: invalid, ?_, ?_⟩, ?_, hdepth, ?_, h.built_eq⟩
  · rw [hskipped, ahead_eq hend, hleft, List.append_assoc, List.cons_append]
  · rw [htold', htold, complaintsIn_append, complaintsIn_cons_of_ne h.placed.valid,
      List.append_assoc]
  · rw [hleft, Compile.significant_append, significant_of_invalid hinvalid, List.nil_append]
  · have hle := h.depth_le
    have hone : pass.next.nesting.natAbs ≤ 1 := by
      unfold Token.nesting
      split <;> decide
    dsimp only
    omega

/-- What comes next when the input ends. -/
theorem unread_eq_nil (hend : pass.next.kind = .endOfInput) : reading.unread = [] := by
  rw [h.unread_eq, ahead_eq_nil hend]
  rfl

theorem spelled : ∀ token ∈ reading.unread, token.Spelled := by
  rw [h.unread_eq]
  exact fun token htoken => spelled_scan _ _ token
    (h.placed.ahead.subset (Compile.mem_of_mem_significant htoken))

/-- The bound of a pass is large enough. -/
theorem length_unread_le : reading.unread.length ≤ pass.bound := by
  rw [h.unread_eq, bound]
  refine List.length_filter_le _ _ |>.trans ?_
  by_cases hend : pass.next.kind = .endOfInput
  · rw [ahead_eq_nil hend]
    exact Nat.zero_le _
  · rw [ahead_eq hend, List.length_cons]
    exact Nat.succ_le_succ (length_scan_le_length _ _)

theorem outermost : Shows source base { pass with depth := 0 } { reading with depth := 0 } where
  placed := ⟨h.placed.source_eq, h.placed.endToken_eq, h.placed.valid, h.placed.ended, h.placed.ahead⟩
  passed := h.passed
  unread_eq := h.unread_eq
  depth_eq := rfl
  depth_le := Nat.zero_le _
  built_eq := h.built_eq

theorem leaveGroupWithin (hbytes : byteLength source < 2 ^ 31) {bound : Nat}
    (hbound : reading.unread.length ≤ bound) :
    ∃ depth, Shows source base (Pass.leaveGroupWithin bound pass)
      ⟨Reading.afterGroup reading.depth reading.unread, depth, reading.state⟩ := by
  have hempty : ∀ reading : Reading Builder, reading.unread = [] →
      reading = ⟨Reading.afterGroup reading.depth reading.unread, reading.depth, reading.state⟩ := by
    rintro ⟨unread, depth, state⟩ rfl
    rfl
  induction bound generalizing pass reading with
  | zero =>
      have hnil : reading.unread = [] := List.eq_nil_of_length_eq_zero (Nat.le_zero.1 hbound)
      exact ⟨reading.depth, hempty reading hnil ▸ h⟩
  | succ bound ih =>
      rw [Pass.leaveGroupWithin]
      by_cases hend : pass.next.kind = .endOfInput
      · rw [if_pos hend]
        exact ⟨reading.depth, hempty reading (h.unread_eq_nil hend) ▸ h⟩
      · obtain ⟨unread, depth, state⟩ := reading
        obtain rfl := h.unread_of_ne hend
        have hadvance := h.advance hbytes hend
        have hdepth : pass.advance.depth ≤ 0 ↔ depth + pass.next.nesting ≤ 0 := by
          rw [Int32.le_iff_toInt_le, hadvance.depth_eq]
          rfl
        rw [if_neg hend]
        dsimp only
        rw [Reading.afterGroup]
        by_cases hclosed : depth + pass.next.nesting ≤ 0
        · rw [if_pos (hdepth.2 hclosed), if_pos hclosed]
          exact ⟨_, hadvance⟩
        · rw [if_neg (mt hdepth.1 hclosed), if_neg hclosed]
          exact ih hadvance (Nat.le_of_succ_le_succ hbound)

/-- Both leave the group of parentheses that they are in. -/
theorem leaveGroup (hbytes : byteLength source < 2 ^ 31) :
    Shows source base pass.leaveGroup reading.leaveGroup := by
  obtain ⟨depth, hleft⟩ := h.leaveGroupWithin hbytes h.length_unread_le
  exact hleft.outermost

end Shows

/-- A pass and a reading begin alike. -/
theorem shows_start (source : String) :
    Shows source (start source) (start source) (Compile.start (Lexer.tokens source)) := by
  obtain ⟨hplaced, invalid, hinvalid, hscan, -⟩ := placed_start source
  refine ⟨hplaced, ⟨[], rfl, (List.append_nil _).symm⟩, ?_, rfl, Nat.zero_le _, ?_⟩
  · rw [Compile.start, Compile.significant_tokens_eq, hscan, Compile.significant_append,
      significant_of_invalid hinvalid, List.nil_append]
  · exact Builder.Stacks.ofBuilder_empty.symm

end Pass
end ErDiagram
