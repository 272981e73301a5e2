import ErDiagram.Proofs.Chunks
import ErDiagram.Proofs.Ordering
import Mathlib.Data.List.ReduceOption
import Mathlib.Logic.Function.Iterate

/-!
Reading follows the parentheses. Each pass of the loop over declarations begins at the first token of
a chunk and ends behind its last one, at the outermost level, wherever the declaration stops or
whether it stops at all. So each chunk is complained about once at most, and what is complained about
is in the chunk. The depth is a signed 32-bit word in the program, which it never leaves.
-/

namespace ErDiagram

variable {σ ε α : Type}

namespace Reading

/-- The depth is a signed 32-bit word. -/
def FitsWord (reading : Reading σ) : Prop :=
  -2 ^ 31 ≤ reading.depth ∧ reading.depth < 2 ^ 31

/-- Two readings with the same tokens left and the same number of parentheses open. -/
def SamePlace (reading other : Reading σ) : Prop :=
  reading.unread = other.unread ∧ reading.depth = other.depth

theorem iterate_advance (reading : Reading σ) (count : Nat) :
    advance^[count] reading = ⟨reading.unread.drop count,
      reading.depth + openedBy (reading.unread.take count), reading.state⟩ := by
  induction count generalizing reading with
  | zero => simp
  | succ count ih =>
      obtain ⟨unread, depth, state⟩ := reading
      rw [Function.iterate_succ_apply, ih]
      cases unread with
      | nil => simp [advance]
      | cons token rest =>
          rw [next?_advance_cons]
          simp only [List.drop_succ_cons, List.take_succ_cons, openedBy_cons, Int.add_assoc]

/-- A place that is reached is reached token by token. -/
theorem Reaches.samePlace {before after : Reading σ} (h : before.Reaches after) :
    ∃ count, count + after.unread.length = before.unread.length ∧
      after.SamePlace (advance^[count] before) := by
  obtain ⟨front, hfront⟩ := h.suffix
  have hbalance := h.balance
  rw [← hfront, openedBy_append] at hbalance
  refine ⟨front.length, by rw [← hfront, List.length_append], ?_⟩
  rw [iterate_advance, ← hfront]
  constructor
  · exact List.drop_left.symm
  · change after.depth = before.depth + openedBy ((front ++ after.unread).take front.length)
    rw [List.take_left]
    omega

end Reading

theorem openedBy_bounds (tokens : List Token) :
    -(tokens.length : Int) ≤ openedBy tokens ∧ openedBy tokens ≤ tokens.length := by
  induction tokens with
  | nil => simp
  | cons token rest ih =>
      have hnesting : -1 ≤ token.nesting ∧ token.nesting ≤ 1 := by
        unfold Token.nesting
        split <;> decide
      rw [openedBy_cons, List.length_cons]
      omega

/-- Where a reader ends, whether it stops or not. -/
def Reader.endsAt (reader : Reader σ ε α) (before : Reading σ) : Reading σ :=
  match reader before with
  | .ok _ after => after
  | .error _ after => after

/-- A fault is blamed on a token of a chunk, or on the end of input if nothing closes the chunk. -/
def Fault.BlamedIn (fault : Fault ε) (chunk : List Token) : Prop :=
  (∃ token ∈ chunk, fault.token = some token) ∨ IsUnterminated chunk ∧ fault.token = none

/-! ### One pass -/

/-- One pass of the loop over declarations goes over one chunk. -/
structure Crosses (chunk : List Token) (before : Reading Builder) (stop : Option (Stop Refusal))
    (after : Reading Builder) : Prop where
  reads : before.declaration Builder.meaning (maxDepth + 1) = (stop, after)
  /-- It begins at the first token of the chunk and ends at the first token behind the chunk. -/
  unread : before.unread = chunk ++ after.unread
  /-- It begins and ends at the outermost level. -/
  outermost : before.depth = 0 ∧ after.depth = 0
  /-- Where the declaration ends or stops, some tokens of the chunk have been taken one by one. -/
  ended : ∃ count ≤ chunk.length,
    ((Reader.field Builder.meaning (maxDepth + 1) .start).endsAt before).SamePlace
      (Reading.advance^[count] before)
  /-- However many tokens of the chunk are taken, the depth is a word. -/
  fits : ∀ count ≤ chunk.length, (Reading.advance^[count] before).FitsWord
  /-- What is no complete group stops. -/
  stops : ¬IsGroup chunk → stop.isSome
  /-- What stops is blamed inside the chunk. -/
  blamed : ∀ found ∈ stop, found.fault.BlamedIn chunk

/-- One pass goes over one chunk, however long it is. -/
structure Covers (chunk : List Token) (before : Reading Builder) (stop : Option (Stop Refusal))
    (after : Reading Builder) : Prop where
  reads : before.declaration Builder.meaning (maxDepth + 1) = (stop, after)
  unread : before.unread = chunk ++ after.unread
  stands : before.Stands 0 0 []
  depth_eq : after.depth = 0
  ended : ∃ count ≤ chunk.length,
    ((Reader.field Builder.meaning (maxDepth + 1) .start).endsAt before).SamePlace
      (Reading.advance^[count] before)
  stops : ¬IsGroup chunk → stop.isSome
  blamed : ∀ found ∈ stop, found.fault.BlamedIn chunk
  /-- What stops would stop for the same reason if nothing followed the chunk. -/
  alone : ∀ found ∈ stop, ∃ ended, Reader.field Builder.meaning (maxDepth + 1) .start
    ⟨chunk, 0, before.state⟩ = .error found.fault ended

section

variable {chunk rest : List Token} {before : Reading Builder} (hunread : before.unread = chunk ++ rest)
include hunread

theorem ended_of_reaches {after : Reading Builder} (hreach : before.Reaches after)
    (hrest : rest.length ≤ after.unread.length) :
    ∃ count ≤ chunk.length, after.SamePlace (Reading.advance^[count] before) := by
  obtain ⟨count, hcount, hsame⟩ := hreach.samePlace
  refine ⟨count, ?_, hsame⟩
  rw [hunread, List.length_append] at hcount
  omega

variable (hstands : before.Stands 0 0 [])
include hstands

theorem fits_of_length_lt (hlength : chunk.length < 2 ^ 31) {count : Nat}
    (hcount : count ≤ chunk.length) : (Reading.advance^[count] before).FitsWord := by
  rw [Reading.iterate_advance, hunread, List.take_append_of_le_length hcount, hstands.depth_eq]
  have hbounds := openedBy_bounds (chunk.take count)
  rw [List.length_take_of_le hcount] at hbounds
  constructor <;> simp only <;> omega

/-- A declaration that does not stop goes over a complete group. -/
theorem covers_of_ok (hgroup : IsGroup chunk) {after : Reading Builder}
    (hfield : Reader.field Builder.meaning (maxDepth + 1) .start before = .ok () after)
    (hafter : after.unread = rest) : Covers chunk before none after := by
  have hends : (Reader.field Builder.meaning (maxDepth + 1) .start).endsAt before = after := by
    rw [Reader.endsAt, hfield]
  refine ⟨?_, hafter ▸ hunread, hstands, (Sound.declaration.ok hstands hfield).depth_eq, ?_,
    absurd hgroup, ?_, ?_⟩
  · rw [Reading.declaration, hfield]
  · rw [hends]
    exact ended_of_reaches hunread (Confined.declaration.ok hstands.spelled hfield).1
      (Nat.le_of_eq (congrArg List.length hafter.symm))
  · intro found hfound
    cases hfound
  · intro found hfound
    cases hfound

/-- A declaration that stops is left behind the chunk that it is in. -/
theorem covers_of_error {fault : Fault Refusal} {ended : Reading Builder}
    (hfield : Reader.field Builder.meaning (maxDepth + 1) .start before = .error fault ended)
    (hrest : rest.length ≤ ended.unread.length)
    (hleave : Reading.afterGroup ended.depth ended.unread = rest) (hblamed : fault.BlamedIn chunk)
    (halone : ∃ ended, Reader.field Builder.meaning (maxDepth + 1) .start
      ⟨chunk, 0, before.state⟩ = .error fault ended) :
    ∃ stop after, after.unread = rest ∧ Covers chunk before stop after := by
  have hends : (Reader.field Builder.meaning (maxDepth + 1) .start).endsAt before = ended := by
    rw [Reader.endsAt, hfield]
  refine ⟨some ⟨fault, ended.next?⟩, { ended with
    state := Builder.meaning.undo before.state ended.state }.leaveGroup, hleave, ?_,
    ?_, hstands, rfl, ?_, fun _ => rfl, ?_, ?_⟩
  · rw [Reading.declaration, hfield]
  · exact hunread.trans (congrArg (chunk ++ ·) hleave.symm)
  · rw [hends]
    exact ended_of_reaches hunread (Confined.declaration.error hstands.spelled hfield).1 hrest
  · intro found hfound
    obtain rfl := Option.some.inj hfound
    exact hblamed
  · intro found hfound
    obtain rfl := Option.some.inj hfound
    exact halone

end

theorem covers_stray {token : Token} {rest : List Token} {before : Reading Builder}
    (hstands : before.Stands 0 0 []) (hunread : before.unread = token :: rest)
    (hkind : token.kind ≠ .leftParen) :
    ∃ stop after, after.unread = rest ∧ Covers [token] before stop after := by
  obtain ⟨unread, depth, state⟩ := before
  obtain rfl : unread = token :: rest := hunread
  obtain rfl : depth = 0 := hstands.depth_eq
  have hnesting : 0 + token.nesting ≤ 0 := Int.add_le_add_left (nesting_nonpos hkind) 0
  refine @covers_of_error [token] rest _ rfl hstands _ _
    (Reader.field_stray hkind maxDepth .start rest 0 state) ?_ ?_ ?_ ?_
  · exact Nat.le_succ _
  · rw [Reading.afterGroup, if_pos hnesting]
  · exact Or.inl ⟨token, List.mem_singleton_self token, rfl⟩
  · exact ⟨_, Reader.field_stray hkind maxDepth .start [] 0 state⟩

theorem covers_group {front rest : List Token} {before : Reading Builder}
    (hstands : before.Stands 0 0 []) (hunread : before.unread = front ++ rest)
    (hgroup : IsGroup front) :
    ∃ stop after, after.unread = rest ∧ Covers front before stop after := by
  obtain ⟨unread, depth, state⟩ := before
  obtain rfl : unread = front ++ rest := hunread
  obtain rfl : depth = 0 := hstands.depth_eq
  have hspelled : ∀ token ∈ front, token.Spelled := fun token htoken =>
    hstands.spelled token (List.mem_append_left rest htoken)
  rcases Reader.field_group hgroup hspelled maxDepth .start state with
    ⟨state', hread⟩ | ⟨fault, ended, hblame, -, hcloses, hread⟩
  · exact ⟨none, _, rfl, covers_of_ok rfl hstands hgroup (hread rest) rfl⟩
  · refine covers_of_error rfl hstands (hread rest) ?_ (hcloses.afterGroup rest) ?_ ?_
    · change rest.length ≤ (ended.unread ++ rest).length
      rw [List.length_append]
      omega
    · cases hblamed : fault.token with
      | none =>
          have hnil := (Sound.declaration.error hstands (hread rest)).unread_eq_nil hblamed
          exact absurd (List.append_eq_nil_iff.1 hnil).1 hcloses.ne_nil
      | some token => exact Or.inl ⟨token, hblame token hblamed, hblamed⟩
    · have halone := hread []
      rw [List.append_nil] at halone
      exact ⟨_, halone⟩

theorem covers_unterminated {before : Reading Builder} (hstands : before.Stands 0 0 [])
    (hopen : IsUnterminated before.unread) :
    ∃ stop after, after.unread = [] ∧ Covers before.unread before stop after := by
  obtain ⟨hconfined, hprogress⟩ := @Confined.field _ _ (· ∈ before.unread) Builder.meaning
    hstands.spelled (maxDepth + 1) .start
  have hall : ∀ token ∈ before.unread, token ∈ before.unread := fun _ htoken => htoken
  -- What has been taken opens more than it closes.
  have htaken : ∀ {after : Reading Builder} {front : List Token}, before.Reaches after →
      front ++ after.unread = before.unread → after.depth = openedBy front := by
    intro after front hreach hfront
    have hbalance := hreach.balance
    rw [← hfront, openedBy_append, hstands.depth_eq] at hbalance
    omega
  cases hfield : Reader.field Builder.meaning (maxDepth + 1) .start before with
  | ok u after =>
      obtain ⟨hreach, hdepth, -⟩ := hconfined.ok hall hfield
      obtain ⟨front, hfront⟩ := hreach.suffix
      have hfewer := hprogress _ _ _ hall hfield
      have hne : front ≠ [] := by
        rintro rfl
        rw [← hfront] at hfewer
        exact absurd hfewer (Nat.lt_irrefl _)
      rw [← hfront] at hopen
      have hpos := hopen.pos hne
      rw [htaken hreach hfront, hstands.depth_eq] at hdepth
      omega
  | error fault ended =>
      obtain ⟨hreach, -, hblame⟩ := hconfined.error hall hfield
      obtain ⟨front, hfront⟩ := hreach.suffix
      refine covers_of_error (List.append_nil _).symm hstands hfield (Nat.zero_le _) ?_ ?_ ?_
      · rw [htaken hreach hfront]
        rw [← hfront] at hopen
        exact hopen.afterGroup
      · cases hblamed : fault.token with
        | none => exact Or.inr ⟨hopen, hblamed⟩
        | some token => exact Or.inl ⟨token, hblame token hblamed, hblamed⟩
      · rw [← hstands.depth_eq]
        exact ⟨ended, hfield⟩

/-- In a chunk that is no longer than a word counts, the depth is a word. -/
theorem Covers.crosses {chunk : List Token} {before after : Reading Builder}
    {stop : Option (Stop Refusal)} (h : Covers chunk before stop after)
    (hlength : chunk.length < 2 ^ 31) : Crosses chunk before stop after where
  reads := h.reads
  unread := h.unread
  outermost := ⟨h.stands.depth_eq, h.depth_eq⟩
  ended := h.ended
  fits _ := fits_of_length_lt h.unread h.stands hlength
  stops := h.stops
  blamed := h.blamed

/-! ### One pass after another -/

/-- The passes of the loop over declarations, one for each chunk, up to the end of input. -/
inductive CrossesAll : List (List Token) → Reading Builder → List (Option (Stop Refusal)) →
    Reading Builder → Prop where
  | nil {reading : Reading Builder} (hunread : reading.unread = []) (hdepth : reading.depth = 0) :
    CrossesAll [] reading [] reading
  | cons {chunk : List Token} {later : List (List Token)} {before middle after : Reading Builder}
    {stop : Option (Stop Refusal)} {stops : List (Option (Stop Refusal))}
    (hfirst : Crosses chunk before stop middle) (hlater : CrossesAll later middle stops after) :
    CrossesAll (chunk :: later) before (stop :: stops) after

/-- The passes over chunks of any length. -/
inductive CoversAll : List (List Token) → Reading Builder → List (Option (Stop Refusal)) →
    Reading Builder → Prop where
  | nil {reading : Reading Builder} (hunread : reading.unread = []) (hdepth : reading.depth = 0) :
    CoversAll [] reading [] reading
  | cons {chunk : List Token} {later : List (List Token)} {before middle after : Reading Builder}
    {stop : Option (Stop Refusal)} {stops : List (Option (Stop Refusal))}
    (hfirst : Covers chunk before stop middle) (hlater : CoversAll later middle stops after) :
    CoversAll (chunk :: later) before (stop :: stops) after

theorem CoversAll.crossesAll {all : List (List Token)} {before after : Reading Builder}
    {stops : List (Option (Stop Refusal))} (h : CoversAll all before stops after)
    (hlength : before.unread.length < 2 ^ 31) : CrossesAll all before stops after := by
  induction h with
  | nil hunread hdepth => exact .nil hunread hdepth
  | cons hfirst _ ih =>
      rw [hfirst.unread, List.length_append] at hlength
      exact .cons (hfirst.crosses (by omega)) (ih (by omega))

theorem CoversAll.forall₂ {all : List (List Token)} {before after : Reading Builder}
    {stops : List (Option (Stop Refusal))} (h : CoversAll all before stops after) :
    List.Forall₂ (fun chunk stop => ∃ before after, Covers chunk before stop after) all stops := by
  induction h with
  | nil => exact .nil
  | cons hfirst _ ih => exact .cons ⟨_, _, hfirst⟩ ih

theorem exists_covers {before : Reading Builder} (hstands : before.Stands 0 0 [])
    (hne : before.unread ≠ []) :
    ∃ chunk stop after, chunks before.unread = chunk :: chunks after.unread ∧
      Covers chunk before stop after := by
  rcases chunks_cases hne with
    ⟨token, rest, hkind, hunread⟩ | ⟨front, back, hgroup, hunread⟩ | hopen
  · obtain ⟨stop, after, hafter, hcover⟩ := covers_stray hstands hunread hkind
    refine ⟨[token], stop, after, ?_, hcover⟩
    rw [hunread, hafter, chunks_stray hkind]
  · obtain ⟨stop, after, hafter, hcover⟩ := covers_group hstands hunread hgroup
    refine ⟨front, stop, after, ?_, hcover⟩
    rw [hunread, hafter, chunks_group hgroup]
  · obtain ⟨stop, after, hafter, hcover⟩ := covers_unterminated hstands hopen
    refine ⟨before.unread, stop, after, ?_, hcover⟩
    rw [hafter, chunks_unterminated hopen, chunks_nil]

/-- The loop over declarations makes one pass for each chunk. -/
theorem exists_coversAll {before : Reading Builder} (hstands : before.Stands 0 0 []) :
    ∃ stops after, CoversAll (chunks before.unread) before stops after ∧
      before.declarations Builder.meaning (maxDepth + 1) = (stops.reduceOption, after) := by
  generalize hcount : before.unread.length = count
  induction count using Nat.strong_induction_on generalizing before with
  | h count ih =>
      by_cases hnil : before.unread = []
      · refine ⟨[], before, ?_, ?_⟩
        · rw [hnil, chunks_nil]
          exact .nil hnil hstands.depth_eq
        · exact Reading.declarationsWithin_of_unread Builder.meaning _ hnil _
      · obtain ⟨chunk, stop, middle, hchunks, hcover⟩ := exists_covers hstands hnil
        obtain ⟨-, hless, -⟩ :=
          Reading.declaration_spec Builder.meaning (fun _ => id) (maxDepth + 1) hstands.spelled hnil
        have hmiddle := hstands.declaration.1
        rw [hcover.reads] at hless hmiddle
        obtain ⟨stops, after, hlater, hread⟩ := ih _ (hcount ▸ hless) hmiddle rfl
        refine ⟨stop :: stops, after, hchunks ▸ .cons hcover hlater, ?_⟩
        rw [Reading.declarations_step Builder.meaning _ hstands.spelled hnil, hcover.reads, hread]
        cases stop <;> rfl

/-! ### What is told about a chunk -/

/-- What a source text is told about one of its chunks, if anything. -/
structure Judges (source : String) (chunk : List Token) (verdict : Option Diagnostic) : Prop where
  /-- It is told something about a token outside all groups. -/
  stray : (∀ token ∈ chunk.head?, token.kind ≠ .leftParen) → verdict.isSome
  /-- It is told something about a group that nothing closes. -/
  unterminated : IsUnterminated chunk → verdict.isSome
  /-- What it is told points at a token of the chunk, or at the end of input if nothing closes it. -/
  placed : ∀ diagnostic ∈ verdict,
    (∃ token ∈ chunk, diagnostic.offset = token.offset ∧ diagnostic.near = .token token.text) ∨
      IsUnterminated chunk ∧ diagnostic.offset = byteLength source ∧ diagnostic.near = .endOfFile

theorem Finding.Reports.judges {source : String} {finding : Finding} {stop : Stop Refusal}
    (h : finding.Reports (utf8Bytes source.toList) stop) {chunk : List Token}
    (hblamed : stop.fault.BlamedIn chunk) : Judges source chunk (some finding.diagnostic) where
  stray _ := rfl
  unterminated _ := rfl
  placed := by
    intro diagnostic hdiagnostic
    obtain rfl := Option.some.inj hdiagnostic
    obtain ⟨category, message, -, heq⟩ := h.about
    rw [heq]
    rcases hblamed with ⟨token, htoken, hfault⟩ | ⟨hopen, hfault⟩
    · rw [hfault]
      exact Or.inl ⟨token, htoken, rfl, rfl⟩
    · rw [hfault]
      exact Or.inr ⟨hopen, rfl, rfl⟩

/-- Nothing may be told about a complete group. -/
theorem IsGroup.judges {chunk : List Token} (h : IsGroup chunk) (source : String) :
    Judges source chunk none where
  stray hkind := by
    obtain ⟨hopen, -⟩ := h
    exact absurd hopen (hkind _ rfl)
  unterminated hopen := absurd h hopen.not_isGroup
  placed diagnostic hdiagnostic := by cases hdiagnostic

/-- What is told about a chunk is what is found where it stops. -/
theorem Covers.judges {source : String} {chunk : List Token} {before after : Reading Builder}
    {stop : Option (Stop Refusal)} (h : Covers chunk before stop after)
    {finding : Stop Refusal → Finding}
    (hreports : ∀ found ∈ stop, (finding found).Reports (utf8Bytes source.toList) found) :
    Judges source chunk (stop.map fun found => (finding found).diagnostic) := by
  cases stop with
  | none =>
      by_cases hgroup : IsGroup chunk
      · exact hgroup.judges source
      · cases h.stops hgroup
  | some found => exact (hreports found rfl).judges (h.blamed found rfl)

/-- What each pass makes sure of holds chunk by chunk. -/
theorem CoversAll.forall₂_map {all : List (List Token)} {before after : Reading Builder}
    {stops : List (Option (Stop Refusal))} (h : CoversAll all before stops after)
    (told : Stop Refusal → Diagnostic) {tells : List Token → Option Diagnostic → Prop}
    (htells : ∀ {chunk before after stop}, Covers chunk before stop after →
      (∀ found ∈ stop, found ∈ stops.reduceOption) → tells chunk (stop.map told)) :
    List.Forall₂ tells all (stops.map (Option.map told)) := by
  have hcovers := h.forall₂
  refine List.forall₂_map_right_iff.2 (List.forall₂_iff_zip.2 ⟨hcovers.length_eq, ?_⟩)
  intro chunk stop hmem
  obtain ⟨before, after, hcover⟩ := (List.forall₂_iff_zip.1 hcovers).2 hmem
  refine htells hcover fun found hfound => List.reduceOption_mem_iff.2 ?_
  exact Option.mem_def.1 hfound ▸ (List.of_mem_zip hmem).2

/-- There are no more tokens than bytes. -/
theorem length_scan_le (text : List Char) : (scan 0 text).length ≤ (utf8Bytes text).length := by
  have hnodup : ((scan 0 text).map (·.offset)).Nodup :=
    List.pairwise_map.2 ((pairwise_scan 0 text).imp Nat.ne_of_lt)
  have hsubset : (scan 0 text).map (·.offset) ⊆ List.range (utf8Bytes text).length := by
    intro offset hoffset
    obtain ⟨token, htoken, rfl⟩ := List.mem_map.1 hoffset
    have hhigh := (mem_scan htoken).2.2.2
    rw [Nat.zero_add] at hhigh
    exact List.mem_range.2 hhigh
  have hle := List.Nodup.length_le_of_subset hnodup hsubset
  rwa [List.length_map, List.length_range] at hle

/-- How a source text is read: in one pass for each chunk of its tokens, and it is told one thing about
a chunk at most. -/
structure FollowsChunks (source : String) : Prop where
  passes : ∃ stops after, CrossesAll (chunks (Compile.significant (Lexer.tokens source)))
    (Compile.start (Lexer.tokens source)) stops after ∧
      declarationsOf source = (stops.reduceOption, after)
  verdicts : ∃ verdicts, List.Forall₂ (Judges source)
    (chunks (Compile.significant (Lexer.tokens source))) verdicts ∧
      (diagnosticsOf source).filter (·.category ≠ .lexical) = verdicts.reduceOption

theorem followsChunks_of_byteLength_lt {source : String} (h : byteLength source < 2 ^ 31) :
    FollowsChunks source := by
  have hlength : (Compile.start (Lexer.tokens source)).unread.length < 2 ^ 31 := by
    rw [Compile.start, Compile.significant_tokens_eq]
    exact Nat.lt_of_le_of_lt ((List.filter_sublist).length_le.trans (length_scan_le _)) h
  obtain ⟨stops, after, hcover, hread⟩ := exists_coversAll (Compile.stands_start source)
  obtain ⟨finding, hreports, htold⟩ := exists_findings source
  have hstops : (declarationsOf source).1 = stops.reduceOption := by rw [declarationsOf, hread]
  refine ⟨⟨stops, after, hcover.crossesAll hlength, hread⟩, _,
    hcover.forall₂_map (fun stop => (finding stop).diagnostic) ?_, ?_⟩
  · intro chunk before after stop hchunk hmem
    exact hchunk.judges fun found hfound => hreports found (hstops ▸ hmem found hfound)
  · rw [filter_faults_diagnosticsOf hreports htold, hstops, List.reduceOption_map]

theorem followsChunks_four_chunks :
    byteLength "(entity a)) (entity a (attr b)) (fk" < 2 ^ 31 ∧
      FollowsChunks "(entity a)) (entity a (attr b)) (fk" ∧
      (chunks (Compile.significant (Lexer.tokens "(entity a)) (entity a (attr b)) (fk"))).map
        List.length = [4, 1, 8, 2] ∧
      (diagnosticsOf "(entity a)) (entity a (attr b)) (fk").map (fun told => (told.offset, told.near)) =
        [(10, .token ")"), (20, .token "a"), (35, .endOfFile)] := by
  have hlength : byteLength "(entity a)) (entity a (attr b)) (fk" < 2 ^ 31 := by decide +kernel
  exact ⟨hlength, followsChunks_of_byteLength_lt hlength, by decide +kernel, by decide +kernel⟩

end ErDiagram
