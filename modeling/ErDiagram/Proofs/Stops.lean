import ErDiagram.Proofs.Faults
import ErDiagram.Proofs.Isolation

/-!
The stops of a source text, one behind the other. A declaration that stops is left for good: what it
is blamed on comes before all tokens that are left, so later declarations stop at later tokens. All
stops are reported, and behind the last declaration nothing is left open, so a source text either
compiles or is rejected.
-/

namespace ErDiagram

/-- A stop that is reported, at the token that comes next or at one before it, or at the end of input
if nothing comes next. -/
structure Stop.Placed (stop : Stop Refusal) : Prop where
  reportable : stop.fault.Reportable
  next_eq_none : stop.fault.token = none → stop.next = none
  le_next : ∀ token ∈ stop.fault.token, ∀ next ∈ stop.next, token.offset ≤ next.offset

/-- A stop is blamed on a token, and all that a later stop is blamed on stands behind it. -/
def Stop.Precedes (stop later : Stop Refusal) : Prop :=
  ∃ token ∈ stop.fault.token, ∀ blamed ∈ later.fault.token, token.offset < blamed.offset

theorem Fault.Placed.stop {fault : Fault Refusal} {after : Reading Builder} (h : fault.Placed after) :
    (Stop.mk fault after.next?).Placed where
  reportable := h.reportable
  next_eq_none hnone := List.head?_eq_none_iff.2 (h.unread_eq_nil hnone)
  le_next token htoken next hnext := h.behind_le token htoken next (Reading.mem_of_next? hnext)

/-- A declaration is read from the tokens that are left, and all of them are spelled. -/
theorem Confined.declaration :
    Confined Token.Spelled (fun _ => True) 0 (Reader.field Builder.meaning (maxDepth + 1) .start) :=
  (Confined.field Builder.meaning (fun _ hspelled => hspelled) (maxDepth + 1) .start).1

namespace Reading

/-- Leaving a group leaves the next token behind. -/
theorem afterGroup_cons_suffix (depth : Int) (token : Token) (rest : List Token) :
    afterGroup depth (token :: rest) <:+ rest := by
  rw [afterGroup]
  split
  · exact List.suffix_refl _
  · exact afterGroup_suffix _ rest

namespace Stands

variable {before : Reading Builder}

/-- A declaration leads from the outermost level to the outermost level. If it stops, it is blamed on
a token before all that are left. -/
theorem declaration (h : before.Stands 0 0 []) :
    (before.declaration Builder.meaning (maxDepth + 1)).2.Stands 0 0 [] ∧
      ∀ stop ∈ (before.declaration Builder.meaning (maxDepth + 1)).1, stop.Placed ∧
        (stop.fault.token = none →
          (before.declaration Builder.meaning (maxDepth + 1)).2.unread = []) ∧
        ∀ token ∈ stop.fault.token,
          ∀ left ∈ (before.declaration Builder.meaning (maxDepth + 1)).2.unread,
            token.offset < left.offset := by
  cases hfield : Reader.field Builder.meaning (maxDepth + 1) .start before with
  | ok _ after =>
      simp only [Reading.declaration, hfield]
      exact ⟨Sound.declaration.ok h hfield, fun stop hstop => by cases hstop⟩
  | error fault after =>
      have hplaced := Sound.declaration.error h hfield
      have hsuffix := (Confined.declaration.error h.spelled hfield).1.suffix
      have hordered := h.ordered.sublist hsuffix.sublist
      have hleft := afterGroup_suffix after.depth after.unread
      simp only [Reading.declaration, hfield]
      refine ⟨⟨rfl, rfl, ?_, hordered.sublist hleft.sublist, ?_⟩, ?_⟩
      · exact fun token htoken => h.spelled token ((hleft.trans hsuffix).subset htoken)
      · intro token htoken
        cases htoken
      · intro stop hstop
        obtain rfl := Option.some.inj hstop
        refine ⟨hplaced.stop, fun hnone => ?_, fun token htoken left hmem => ?_⟩
        · change afterGroup after.depth after.unread = []
          rw [hplaced.unread_eq_nil hnone]
          rfl
        · change left ∈ afterGroup after.depth after.unread at hmem
          cases hunread : after.unread with
          | nil =>
              rw [hunread] at hmem
              cases hmem
          | cons next rest =>
              rw [hunread] at hmem hordered
              have hnext := hplaced.behind_le token htoken next (hunread ▸ List.mem_cons_self)
              have hlater := (List.pairwise_cons.1 hordered).1 left
                ((afterGroup_cons_suffix _ next rest).subset hmem)
              exact Nat.lt_of_le_of_lt hnext hlater

/-- Declarations lead to the outermost level, and each stop precedes all later ones. -/
theorem declarations (h : before.Stands 0 0 []) :
    (before.declarations Builder.meaning (maxDepth + 1)).2.Stands 0 0 [] ∧
      (∀ stop ∈ (before.declarations Builder.meaning (maxDepth + 1)).1, stop.Placed) ∧
        (before.declarations Builder.meaning (maxDepth + 1)).1.Pairwise Stop.Precedes := by
  generalize hlength : before.unread.length = length
  induction length using Nat.strong_induction_on generalizing before with
  | h length ih =>
      by_cases hnil : before.unread = []
      · rw [Reading.declarations, declarationsWithin_of_unread Builder.meaning _ hnil]
        refine ⟨h, ?_, List.Pairwise.nil⟩
        intro stop hstop
        cases hstop
      · obtain ⟨-, hlt, -⟩ :=
          declaration_spec Builder.meaning (fun _ => id) (maxDepth + 1) h.spelled hnil
        obtain ⟨hstands, hstop⟩ := h.declaration
        obtain ⟨hlast, hplaced, hpairwise⟩ := ih _ (hlength ▸ hlt) hstands rfl
        have hwithin := within_of_mem_declarations Builder.meaning hstands.spelled (maxDepth + 1)
          fun _ htoken => htoken
        rw [declarations_step Builder.meaning _ h.spelled hnil]
        refine ⟨hlast, fun stop hmem => ?_, ?_⟩
        · rcases List.mem_append.1 hmem with hmem | hmem
          · exact (hstop stop (Option.mem_toList.1 hmem)).1
          · exact hplaced stop hmem
        · refine List.pairwise_append.2 ⟨?_, hpairwise, fun stop hmem later hlater => ?_⟩
          · cases (before.declaration Builder.meaning (maxDepth + 1)).1 <;> simp
          · obtain ⟨-, hnone, hbefore⟩ := hstop stop (Option.mem_toList.1 hmem)
            cases hblamed : stop.fault.token with
            | none =>
                rw [Reading.declarations, declarationsWithin_of_unread Builder.meaning _
                  (hnone hblamed)] at hlater
                cases hlater
            | some token =>
                exact ⟨token, hblamed, fun blamed hmem =>
                  hbefore token hblamed blamed ((hwithin later hlater).blames blamed hmem)⟩

end Stands
end Reading

/-! ### What is found -/

/-- What is found where a declaration stops: a complaint, not about a character, that points at what
is blamed. -/
structure Finding.Reports (bytes : List UInt8) (finding : Finding) (stop : Stop Refusal) : Prop where
  reached_eq : finding.reached = Compile.offsetOf bytes stop.next
  about : ∃ category message, category ≠ .lexical ∧
    finding.diagnostic = Compile.diagnosticAt bytes stop.fault.token category message

theorem Finding.Reports.category_ne {bytes : List UInt8} {finding : Finding} {stop : Stop Refusal}
    (h : finding.Reports bytes stop) : finding.diagnostic.category ≠ .lexical := by
  obtain ⟨category, message, hcategory, heq⟩ := h.about
  rw [heq]
  exact hcategory

theorem Finding.Reports.offset_eq {bytes : List UInt8} {finding : Finding} {stop : Stop Refusal}
    (h : finding.Reports bytes stop) :
    finding.diagnostic.offset = Compile.offsetOf bytes stop.fault.token := by
  obtain ⟨category, message, -, heq⟩ := h.about
  rw [heq]
  rfl

theorem Refusal.category?_ne (refusal : Refusal) : refusal.category? ≠ some .lexical := by
  rcases refusal with ⟨_ | _ | _ | _⟩ | _ <;> simp [category?]

namespace Compile

theorem faultFinding_refused {refusal : Refusal} {category : Diagnostic.Category}
    (h : refusal.category? = some category) (bytes : List UInt8) (token next : Option Token) :
    faultFinding bytes ⟨⟨.refused refusal, token⟩, next⟩ =
      .ok ⟨offsetOf bytes next, diagnosticAt bytes token category refusal.message⟩ := by
  simp only [faultFinding, diagnosticOf, h]
  rfl

theorem exists_reports (bytes : List UInt8) {stop : Stop Refusal} (h : stop.fault.Reportable) :
    ∃ finding, faultFinding bytes stop = .ok finding ∧ finding.Reports bytes stop := by
  obtain ⟨⟨cause, token⟩, next⟩ := stop
  cases cause with
  | malformed error => exact ⟨_, rfl, rfl, .malformed, error.message, by decide, rfl⟩
  | refused refusal =>
      obtain ⟨category, hcategory⟩ := Option.isSome_iff_exists.1 h
      refine ⟨_, faultFinding_refused hcategory bytes token next, rfl, category, refusal.message, ?_,
        rfl⟩
      rintro rfl
      exact refusal.category?_ne hcategory
  | exhausted => exact h.elim

theorem mapM_eq_map {α β ε : Type} {f : α → Except ε β} {g : α → β} {things : List α}
    (h : ∀ thing ∈ things, f thing = .ok (g thing)) : things.mapM f = .ok (things.map g) := by
  induction things with
  | nil => rfl
  | cons first rest ih =>
      obtain ⟨hfirst, hrest⟩ := List.forall_mem_cons.1 h
      exact mapM_cons_ok.2 ⟨_, _, hfirst, ih hrest, rfl⟩

/-- The tokens that declarations are read from stand at the outermost level. -/
theorem stands_start (source : String) : (start (Lexer.tokens source)).Stands 0 0 [] where
  depth_eq := rfl
  constructs_eq := rfl
  spelled := by
    rw [start, significant_tokens_eq]
    exact spelled_significant _ _
  ordered := by
    rw [start, significant_tokens_eq]
    exact (pairwise_scan 0 source.toList).filter _
  behind_le token htoken := by cases htoken

end Compile

/-- Stops of a source text involve none but its tokens. -/
theorem within_of_mem_declarationsOf {source : String} {stop : Stop Refusal}
    (h : stop ∈ (declarationsOf source).1) :
    stop.Within (· ∈ Compile.significant (Lexer.tokens source)) :=
  Reading.within_of_mem_declarations Builder.meaning
    (Compile.stands_start source).spelled (maxDepth + 1) (fun _ htoken => htoken) stop h

/-- All stops of a source text give findings. -/
theorem exists_faults (source : String) :
    ∃ finding : Stop Refusal → Finding,
      (∀ stop ∈ (declarationsOf source).1, (finding stop).Reports (utf8Bytes source.toList) stop) ∧
        (declarationsOf source).1.mapM (Compile.faultFinding (utf8Bytes source.toList)) =
          .ok ((declarationsOf source).1.map finding) := by
  obtain ⟨-, hplaced, -⟩ := (Compile.stands_start source).declarations
  have : Nonempty Finding := ⟨Compile.lexicalFinding [] ⟨.invalid, "", 0⟩⟩
  choose! finding hfinding hreports using fun (stop : Stop Refusal) (h : stop.fault.Reportable) =>
    Compile.exists_reports (utf8Bytes source.toList) h
  exact ⟨finding, fun stop hstop => hreports stop (hplaced stop hstop).reportable,
    Compile.mapM_eq_map fun stop hstop => hfinding stop (hplaced stop hstop).reportable⟩

def diagnosticsOf (source : String) : List Diagnostic :=
  match compile source with
  | .ok _ => []
  | .error error => error.diagnostics

/-- A source text compiles, or it is rejected with something to tell. The compiler is never at
fault. -/
theorem compile_cases (source : String) :
    (∃ graph, compile source = .ok graph) ∨
      (diagnosticsOf source ≠ [] ∧ compile source = .error (.rejected (diagnosticsOf source))) := by
  obtain ⟨finding, -, hfaults⟩ := exists_faults source
  generalize hfindings : Compile.mergeFindings (Compile.lexicalFindings (utf8Bytes source.toList)
    (Lexer.tokens source)) ((declarationsOf source).1.map finding) = findings
  by_cases hnil : findings = []
  · rw [hnil, Compile.mergeFindings_eq_nil, List.map_eq_nil_iff] at hfindings
    exact Or.inl (compile_ok_of_nothing_found rfl (Compile.lexicalFindings_eq_nil.1 hfindings.1)
      hfindings.2)
  · have hne : findings.map (·.diagnostic) ≠ [] := fun h => hnil (List.map_eq_nil_iff.1 h)
    have hrejected : compile source = .error (.rejected (findings.map (·.diagnostic))) :=
      (compile_rejected_iff rfl).2 ⟨hne, _, hfaults, hfindings ▸ rfl⟩
    have htold : diagnosticsOf source = findings.map (·.diagnostic) := by
      rw [diagnosticsOf, hrejected]
      rfl
    exact Or.inr (htold ▸ ⟨hne, hrejected⟩)

/-- What is found at all stops is told, together with what is found at invalid tokens. -/
theorem diagnosticsOf_of_faults {source : String} {finding : Stop Refusal → Finding}
    (hfaults : (declarationsOf source).1.mapM (Compile.faultFinding (utf8Bytes source.toList)) =
      .ok ((declarationsOf source).1.map finding)) :
    diagnosticsOf source = (Compile.mergeFindings
      (Compile.lexicalFindings (utf8Bytes source.toList) (Lexer.tokens source))
      ((declarationsOf source).1.map finding)).map (·.diagnostic) := by
  rcases compile_cases source with ⟨graph, hok⟩ | ⟨-, hrejected⟩
  · obtain ⟨hlexical, last, hstops, -⟩ := compile_ok_iff_declarations.1 hok
    have hnone : (declarationsOf source).1 = [] := congrArg Prod.fst hstops
    rw [diagnosticsOf, hok, hnone, Compile.lexicalFindings_eq_nil.2 hlexical]
    rfl
  · have hread : (Compile.start (Lexer.tokens source)).declarations Builder.meaning (maxDepth + 1) =
        ((declarationsOf source).1, (declarationsOf source).2) := rfl
    obtain ⟨-, faults, hfaults', hdiagnostics⟩ := (compile_rejected_iff hread).1 hrejected
    rw [hfaults] at hfaults'
    cases hfaults'
    exact hdiagnostics

/-- A source text is told what was found, at every stop and at every invalid token, and nothing
else. -/
theorem exists_findings (source : String) :
    ∃ finding : Stop Refusal → Finding,
      (∀ stop ∈ (declarationsOf source).1, (finding stop).Reports (utf8Bytes source.toList) stop) ∧
        diagnosticsOf source = (Compile.mergeFindings
          (Compile.lexicalFindings (utf8Bytes source.toList) (Lexer.tokens source))
          ((declarationsOf source).1.map finding)).map (·.diagnostic) := by
  obtain ⟨finding, hreports, hfaults⟩ := exists_faults source
  exact ⟨finding, hreports, diagnosticsOf_of_faults hfaults⟩

end ErDiagram
