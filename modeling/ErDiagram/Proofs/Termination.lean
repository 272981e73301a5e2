import ErDiagram.Proofs.Loops
import ErDiagram.Proofs.Stops

/-!
How a compilation ends: with a graph, or with something to tell. No loop of the reader goes round
without a token less, nothing is read beyond the end of input, and the builder is never misused.
-/

namespace ErDiagram

variable {σ ε α : Type}

/-! ### At the end of input -/

namespace Reader

/-- A reader that needs a token stops in place at the end of input. -/
theorem Peeks.of_unread {reader : Reader σ ε α} {take : Token → Option α} {error : SyntaxError}
    (h : reader.Peeks take error) {reading : Reading σ} (hnil : reading.unread = []) :
    reader reading = .error ⟨.malformed error, none⟩ reading := by
  have hnext : reading.next? = none := List.head?_eq_none_iff.2 hnil
  rw [h, hnext]
  rfl

theorem accept_of_unread {reading : Reading σ} (hnil : reading.unread = []) (kind : Token.Kind) :
    (accept kind : Reader σ ε Bool) reading = .ok false reading := by
  have hnext : reading.isNext kind = false := by
    rw [Reading.isNext, Reading.next?, hnil]
    rfl
  rw [accept, hnext]
  rfl

end Reader

/-- Nothing takes a token where none is left: a reader that needs one stops in place and blames the
end of input, and leaving a group leads nowhere. -/
structure Reading.TakesNothing (reading : Reading Builder) : Prop where
  expect : ∀ kind error, (Reader.expect kind error : Reader Builder Refusal Token) reading =
    .error ⟨.malformed error, none⟩ reading
  decode : ∀ (value? : String → Option Bool) error,
    (Reader.decode value? error : Reader Builder Refusal Bool) reading =
      .error ⟨.malformed error, none⟩ reading
  fieldKeyword : ∀ owner, ∃ error,
    (Reader.fieldKeyword owner : Reader Builder Refusal (Token × Field)) reading =
      .error ⟨.malformed error, none⟩ reading
  accept : ∀ kind, (Reader.accept kind : Reader Builder Refusal Bool) reading = .ok false reading
  leaveGroup : reading.leaveGroup.unread = []

theorem Reading.takesNothing_of_unread {reading : Reading Builder} (hnil : reading.unread = []) :
    reading.TakesNothing where
  expect kind error := (Reader.expect_peeks kind error).of_unread hnil
  decode value? error := (Reader.decode_peeks value? error).of_unread hnil
  fieldKeyword owner := ⟨_, (Reader.fieldKeyword_peeks owner).of_unread hnil⟩
  accept kind := Reader.accept_of_unread hnil kind
  leaveGroup := by
    rw [Reading.leaveGroup, hnil]
    rfl

/-! ### The end of a compilation -/

theorem Loops.exists_last {S R : Type} {unread : S → List Token} {pass : S → S ⊕ R} {state : S}
    {result : R} (h : Loops unread pass state result) : ∃ last, pass last = .inr result := by
  induction h with
  | ends hpass => exact ⟨_, hpass⟩
  | goes _ _ _ ih => exact ih

/-- Declarations are read up to the end of input. -/
theorem Reading.unread_declarations (meaning : Interpretation σ ε) (budget : Nat)
    {reading : Reading σ} (hspelled : ∀ token ∈ reading.unread, token.Spelled) :
    (reading.declarations meaning budget).2.unread = [] := by
  obtain ⟨last, hpass⟩ := (loops_declarations meaning budget hspelled).exists_last
  unfold declarationPass at hpass
  split at hpass
  · rename_i hend
    rw [← Sum.inr.inj hpass]
    exact List.isEmpty_iff.1 hend
  · split at hpass <;> cases hpass

theorem Fault.Reportable.cause_ne {fault : Fault Refusal} (h : fault.Reportable) :
    fault.cause ≠ .exhausted ∧ ∀ misuse, fault.cause ≠ .refused (.scope (.misuse misuse)) := by
  obtain ⟨cause, token⟩ := fault
  constructor
  · rintro rfl
    exact h
  · rintro misuse rfl
    cases h

/-- How the compilation of a source text ends. -/
structure Concludes (source : String) : Prop where
  /-- There is a graph, or there is something to tell. -/
  verdict : (∃ graph, compile source = .ok graph) ∨
    ∃ diagnostics, diagnostics ≠ [] ∧ compile source = .error (.rejected diagnostics)
  /-- Every declaration takes a token at least, whether it stops or not, up to the end of input. -/
  declarations : Loops (fun state => state.2.unread)
    (Reading.declarationPass Builder.meaning (maxDepth + 1))
    ([], Compile.start (Lexer.tokens source)) (declarationsOf source)
  /-- Wherever fields are read, every field takes a token at least or stops. -/
  fields : ∀ reading : Reading Builder, reading.unread <:+ (Compile.start (Lexer.tokens source)).unread →
    ∀ budget owner, Loops Reading.unread (Reader.itemPass (Reader.field Builder.meaning budget owner))
      reading (Reader.items (Reader.field Builder.meaning budget owner) reading)
  /-- Wherever the names of a primary key are read, every name takes a token at least or stops. -/
  names : ∀ reading : Reading Builder, reading.unread <:+ (Compile.start (Lexer.tokens source)).unread →
    Loops (fun state => state.2.unread) (Reader.namePass Builder.meaning) ([], reading)
      (Reader.keyNames Builder.meaning [] reading.unread reading)
  /-- The lexer answers the end of input last, and not before. -/
  tokens : ∃ front, Lexer.tokens source = front ++ [⟨.endOfInput, "", byteLength source⟩] ∧
    ∀ token ∈ front, token.kind ≠ .endOfInput
  /-- There is nothing to take at the end of input, and reading ends there. -/
  atEnd : (∀ reading : Reading Builder, reading.unread = [] → reading.TakesNothing) ∧
    (declarationsOf source).2.unread = []
  /-- No stop is the fault of the compiler: no nesting that it did not provide for, and no misuse of
  the builder. -/
  stops : ∀ stop ∈ (declarationsOf source).1, stop.fault.cause ≠ .exhausted ∧
    ∀ misuse, stop.fault.cause ≠ .refused (.scope (.misuse misuse))
  /-- At the end only the start node is open. -/
  finish : ∃ graph, (declarationsOf source).2.state.finish = .ok graph

/-- Every compilation ends with a graph or with something to tell, and never by a fault of the
compiler. -/
theorem compile_concludes (source : String) : Concludes source := by
  have hstart := Compile.stands_start source
  obtain ⟨hlast, hplaced, -⟩ := hstart.declarations
  refine ⟨?_, ?_, ?_, ?_, ?_, ⟨?_, ?_⟩, ?_, ?_⟩
  · rcases compile_cases source with hok | ⟨hne, hrejected⟩
    · exact Or.inl hok
    · exact Or.inr ⟨_, hne, hrejected⟩
  · exact Reading.loops_declarations Builder.meaning (maxDepth + 1) hstart.spelled
  · intro reading hsuffix budget owner
    obtain ⟨hconfined, hprogress⟩ :=
      Confined.field Builder.meaning (fun _ hspelled => hspelled) budget owner
    exact Reader.loops_items hconfined hprogress fun token htoken =>
      hstart.spelled token (hsuffix.subset htoken)
  · exact fun reading _ => Reader.loops_keyNames Builder.meaning reading
  · exact ⟨_, tokens_eq source, fun token htoken => (mem_scan htoken).2.1⟩
  · exact fun reading => Reading.takesNothing_of_unread
  · exact Reading.unread_declarations Builder.meaning (maxDepth + 1) hstart.spelled
  · exact fun stop hstop => (hplaced stop hstop).reportable.cause_ne
  · have hinner : (declarationsOf source).2.state.inner = [] :=
      List.eq_nil_of_length_eq_zero hlast.constructs_eq
    rw [Builder.finish, hinner]
    exact ⟨_, rfl⟩

end ErDiagram
