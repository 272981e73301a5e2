import ErDiagram.Proofs.Blanking
import ErDiagram.Proofs.Recovery
import ErDiagram.Proofs.Reporting

/-!
A declaration that stops is isolated from the rest of its source text. If it is a group of its own,
then nothing but its own complaint goes away when it is blanked out: what stands before it is read
without regard to it, it has no effect, and reading goes on right behind it.
-/

namespace ErDiagram

/-- Three texts, each on lines of its own. -/
def onLines (before text after : String) : String :=
  before ++ "\n" ++ text ++ "\n" ++ after

def byteLength (text : String) : Nat :=
  (utf8Bytes text.toList).length

theorem toList_onLines (before text after : String) :
    (onLines before text after).toList =
      before.toList ++ '\n' :: (text.toList ++ '\n' :: after.toList) := by
  have hnewline : "\n".toList = ['\n'] := by decide
  simp only [onLines, String.toList_append, hnewline, List.append_assoc, List.cons_append,
    List.nil_append]

theorem scan_onLines (before text after : String) :
    scan 0 (onLines before text after).toList =
      scan 0 before.toList ++ (scan (byteLength before + 1) text.toList ++
        scan (byteLength before + 1 + byteLength text + 1) after.toList) := by
  rw [toList_onLines, scan_append_newline, Nat.zero_add, scan_append_newline]
  rfl

theorem lineFeeds_onLines (before text after : String) :
    lineFeeds (utf8Bytes (onLines before text after).toList) =
      lineFeeds (utf8Bytes before.toList) ++ true ::
        (lineFeeds (utf8Bytes text.toList) ++ true :: lineFeeds (utf8Bytes after.toList)) := by
  rw [toList_onLines, utf8Bytes_append, lineFeeds_append]
  congr 1
  rw [utf8Bytes_cons, utf8Bytes_append, lineFeeds_append, lineFeeds_append, utf8Bytes_cons,
    lineFeeds_append]
  rfl

theorem lineFeeds_onLines_blanked (before text after : String) :
    lineFeeds (utf8Bytes (onLines before (blanked text) after).toList) =
      lineFeeds (utf8Bytes (onLines before text after).toList) := by
  rw [lineFeeds_onLines, lineFeeds_onLines, lineFeeds_blanked]

theorem byteLength_blanked (text : String) : byteLength (blanked text) = byteLength text :=
  length_eq_of_lineFeeds (lineFeeds_blanked text)

theorem byteLength_onLines (before text after : String) :
    byteLength (onLines before text after) =
      byteLength before + 1 + byteLength text + 1 + byteLength after := by
  unfold byteLength
  have hlength := congrArg List.length (lineFeeds_onLines before text after)
  simp only [lineFeeds, List.length_map, List.length_append, List.length_cons] at hlength
  omega

/-! ### The tokens of the parts -/

namespace Compile

theorem lexicalFindings_append (bytes : List UInt8) (front back : List Token) :
    lexicalFindings bytes (front ++ back) =
      lexicalFindings bytes front ++ lexicalFindings bytes back := by
  rw [lexicalFindings, List.filter_append, List.map_append]
  rfl

theorem lexicalFindings_tokens_eq (bytes : List UInt8) (source : String) :
    lexicalFindings bytes (Lexer.tokens source) = lexicalFindings bytes (scan 0 source.toList) := by
  rw [tokens_eq, lexicalFindings_append]
  exact List.append_nil _

/-- What holds of the offsets of tokens and of the end holds of what is blamed. -/
theorem offsetOf_of {P : Nat → Prop} {bytes : List UInt8} {token : Option Token}
    (h : ∀ known ∈ token, P known.offset) (hend : P bytes.length) : P (offsetOf bytes token) := by
  cases token with
  | none => exact hend
  | some known => exact h known rfl

end Compile

/-- A text that lexes does so wherever it stands. -/
theorem valid_scan {text : String} (hvalid : ∀ token ∈ Lexer.tokens text, token.kind ≠ .invalid)
    (offset : Nat) : ∀ token ∈ scan offset text.toList, token.kind ≠ .invalid := by
  intro token htoken
  rw [← Nat.zero_add offset, scan_shift] at htoken
  obtain ⟨first, hfirst, rfl⟩ := List.mem_map.1 htoken
  rw [tokens_eq] at hvalid
  exact hvalid first (List.mem_append_left _ hfirst)

/-- A text that is a group is one wherever it stands. -/
theorem isGroup_scan {text : String} (h : IsGroup (Lexer.tokens text).dropLast) (offset : Nat) :
    IsGroup (scan offset text.toList) := by
  rw [dropLast_tokens] at h
  rw [← Nat.zero_add offset, scan_shift]
  exact h.shift offset

/-! ### The stops of the parts -/

section

variable {bytes : List UInt8} {stops : List (Stop Refusal)} {faults : List Finding}
  (h : stops.mapM (Compile.faultFinding bytes) = .ok faults)
include h

/-- Stops that involve no token between two places give no finding that points there. -/
theorem outside_of_within (low high : Nat) (hend : high ≤ bytes.length)
    (hwithin : ∀ stop ∈ stops, stop.Within fun token => token.offset < low ∨ high ≤ token.offset) :
    ∀ fault ∈ faults, fault.diagnostic.offset < low ∨ high ≤ fault.diagnostic.offset := by
  intro fault hfault
  obtain ⟨stop, hstop, hfinding⟩ := Compile.exists_of_mem_mapM h hfault
  rw [(Compile.faultFinding_ok hfinding).2]
  exact @Compile.offsetOf_of (fun offset => offset < low ∨ high ≤ offset) _ _
    (hwithin stop hstop).blames (Or.inr hend)

/-- Stops that involve only tokens behind a place give findings that are made behind it. -/
theorem le_reached_of_within (place : Nat) (hend : place ≤ bytes.length)
    (hwithin : ∀ stop ∈ stops, stop.Within fun token => place ≤ token.offset) :
    ∀ fault ∈ faults, place ≤ fault.reached := by
  intro fault hfault
  obtain ⟨stop, hstop, hfinding⟩ := Compile.exists_of_mem_mapM h hfault
  rw [(Compile.faultFinding_ok hfinding).1]
  exact @Compile.offsetOf_of (fun offset => place ≤ offset) _ _ (hwithin stop hstop).next hend

end

def declarationsOf (source : String) : List (Stop Refusal) × Reading Builder :=
  (Compile.start (Lexer.tokens source)).declarations Builder.meaning (maxDepth + 1)

theorem declarationsOf_eq (source : String) :
    declarationsOf source =
      (Reading.mk (Compile.significant (scan 0 source.toList)) 0
        (Diagram.builder [])).declarations Builder.meaning (maxDepth + 1) := by
  rw [declarationsOf, Compile.start, Compile.significant_tokens_eq]
  rfl

section

variable {before text : String}
  (hbefore : openGroups 0 (Compile.significant (Lexer.tokens before)) = 0)
  (hvalid : ∀ token ∈ Lexer.tokens text, token.kind ≠ .invalid)
  (hgroup : IsGroup (Compile.significant (Lexer.tokens text)))
include hbefore hvalid hgroup

/-- No declaration stops inside the text, or one does, and all others stop just as if the text was
not there. -/
theorem declarationsOf_onLines (after : String) :
    ∃ (front back : List (Stop Refusal)) (own : Option (Stop Refusal)) (last : Reading Builder),
      (∀ stop ∈ front, stop.Within (·.offset < byteLength before)) ∧
      (∀ stop ∈ own, stop.next.isSome ∧
        stop.Within (·.offset < byteLength before + 1 + byteLength text)) ∧
      (∀ stop ∈ back, stop.Within (byteLength before + 1 + byteLength text < ·.offset)) ∧
      declarationsOf (onLines before text after) = (front ++ (own.toList ++ back), last) ∧
      (own.isSome → declarationsOf (onLines before (blanked text) after) = (front ++ back, last)) := by
  have hgroup := isGroup_scan (significant_tokens hvalid ▸ hgroup) (byteLength before + 1)
  rw [Compile.significant_tokens_eq] at hbefore
  have hspelled : ∀ offset source, ∀ token ∈ Compile.significant (scan offset source), token.Spelled :=
    Compile.spelled_significant
  have hown := Compile.significant_scan (valid_scan hvalid (byteLength before + 1))
  have hspelledOwn := hspelled (byteLength before + 1) text.toList
  rw [hown] at hspelledOwn
  -- What stands before the text, the text, and what stands behind it.
  obtain ⟨front, earlier, hearlier, hfront, htakes⟩ :=
    Diagram.takes_pieces (pieces_of_openGroups hbefore) (hspelled 0 before.toList) Diagram.allFit_nil
  obtain ⟨own, later, -, hstop, hread⟩ := Diagram.declaration_group hearlier hgroup hspelledOwn
  have htakesOwn :=
    Reading.takes_of_declaration Builder.meaning hspelledOwn hgroup.ne_nil hread
  have hspelledBack := hspelled (byteLength before + 1 + byteLength text + 1) after.toList
  generalize hback : (Reading.mk (Compile.significant
    (scan (byteLength before + 1 + byteLength text + 1) after.toList)) 0
      later.builder).declarations Builder.meaning (maxDepth + 1) = result
  obtain ⟨back, last⟩ := result
  refine ⟨front, back, own, last, fun stop h => ?_, fun stop h => ?_, fun stop h => ?_, ?_, ?_⟩
  · refine (hfront stop h).mono fun token htoken => ?_
    have hoffset := (mem_scan (Compile.mem_of_mem_significant htoken)).2.2.2
    rwa [Nat.zero_add] at hoffset
  · obtain ⟨hwithin, hnext, -⟩ := hstop stop h
    exact ⟨hnext, hwithin.mono fun token htoken => (mem_scan htoken).2.2.2⟩
  · have hmem : stop ∈ ((Reading.mk (Compile.significant
        (scan (byteLength before + 1 + byteLength text + 1) after.toList)) 0
          later.builder).declarations Builder.meaning (maxDepth + 1)).1 := by
      rw [hback]
      exact h
    have hwithin := Reading.within_of_mem_declarations Builder.meaning hspelledBack (maxDepth + 1)
      (fun _ htoken => htoken) stop hmem
    exact hwithin.mono fun token htoken =>
      (mem_scan (Compile.mem_of_mem_significant htoken)).2.2.1
  · rw [declarationsOf_eq, scan_onLines, Compile.significant_append, Compile.significant_append,
      hown, htakes _ (fun token htoken => ?_), htakesOwn _ hspelledBack, hback]
    exact (List.mem_append.1 htoken).elim (hspelledOwn token) (hspelledBack token)
  · intro hsome
    obtain ⟨stop, hown⟩ := Option.isSome_iff_exists.1 hsome
    rw [declarationsOf_eq, scan_onLines, scan_blanked, byteLength_blanked, List.nil_append,
      Compile.significant_append, htakes _ hspelledBack, ← (hstop stop hown).2.2, hback]

omit hbefore hgroup in
/-- Blanking out a text that lexes changes nothing about the invalid tokens. -/
theorem lexicalFindings_blanked (after : String) :
    Compile.lexicalFindings (utf8Bytes (onLines before (blanked text) after).toList)
        (Lexer.tokens (onLines before (blanked text) after)) =
      Compile.lexicalFindings (utf8Bytes (onLines before text after).toList)
        (Lexer.tokens (onLines before text after)) := by
  have hnone : Compile.lexicalFindings (utf8Bytes (onLines before text after).toList)
      (scan (byteLength before + 1) text.toList) = [] := by
    rw [Compile.lexicalFindings_eq_nil]
    exact valid_scan hvalid (byteLength before + 1)
  rw [Compile.lexicalFindings_of_lineFeeds (lineFeeds_onLines_blanked before text after),
    Compile.lexicalFindings_tokens_eq, Compile.lexicalFindings_tokens_eq, scan_onLines, scan_onLines,
    scan_blanked, byteLength_blanked]
  simp only [Compile.lexicalFindings_append, hnone, List.nil_append]

/-- A diagnostic that points into the text, and is not about a character, is that of the one stop
there. All other stops give the findings that they give without the text. -/
theorem exists_own_finding {after : String} {diagnostics : List Diagnostic} {diagnostic : Diagnostic}
    (hrejected : compile (onLines before text after) = .error (.rejected diagnostics))
    (hmem : diagnostic ∈ diagnostics) (hcategory : diagnostic.category ≠ .lexical)
    (hlow : byteLength before + 1 ≤ diagnostic.offset)
    (hhigh : diagnostic.offset < byteLength before + 1 + byteLength text) :
    ∃ (early late : List Finding) (own : Finding) (stops : List (Stop Refusal))
      (last : Reading Builder), own.diagnostic = diagnostic ∧
        diagnostics = (Compile.mergeFindings
          (Compile.lexicalFindings (utf8Bytes (onLines before text after).toList)
            (Lexer.tokens (onLines before text after))) (early ++ own :: late)).map (·.diagnostic) ∧
        (∀ other ∈ early, other.diagnostic ≠ diagnostic) ∧
        (∀ later ∈ late, own.reached ≤ later.reached) ∧
        declarationsOf (onLines before (blanked text) after) = (stops, last) ∧
        stops.mapM (Compile.faultFinding (utf8Bytes (onLines before text after).toList)) =
          .ok (early ++ late) := by
  obtain ⟨front, back, own, last, hfront, hown, hback, hread, hread'⟩ :=
    declarationsOf_onLines hbefore hvalid hgroup after
  obtain ⟨-, faults, hfaults, hdiagnostics⟩ := (compile_rejected_iff hread).1 hrejected
  obtain ⟨early, rest, hearly, hrest, rfl⟩ := Compile.mapM_append_ok.1 hfaults
  obtain ⟨middle, late, hmiddle, hlate, rfl⟩ := Compile.mapM_append_ok.1 hrest
  have hend : byteLength before + 1 + byteLength text ≤
      (utf8Bytes (onLines before text after).toList).length := by
    have hlength := byteLength_onLines before text after
    unfold byteLength at hlength ⊢
    omega
  -- The findings of the other stops point elsewhere.
  have hearly' := outside_of_within hearly (byteLength before + 1) _ hend fun stop h =>
    (hfront stop h).mono fun token htoken => Or.inl (Nat.lt_succ_of_lt htoken)
  have hlate' := outside_of_within hlate (byteLength before + 1) _ hend fun stop h =>
    (hback stop h).mono fun token htoken => Or.inr (Nat.le_of_lt htoken)
  have hreached := le_reached_of_within hlate _ hend fun stop h =>
    (hback stop h).mono fun token htoken => Nat.le_of_lt htoken
  rw [hdiagnostics] at hmem
  obtain ⟨finding, hfinding, rfl⟩ := List.mem_map.1 hmem
  have hfault : finding ∈ middle := by
    rcases Compile.mem_mergeFindings hfinding with h | h
    · exact absurd (Compile.category_of_mem_lexicalFindings h) hcategory
    · rcases List.mem_append.1 h with h | h
      · have := hearly' finding h
        omega
      · rcases List.mem_append.1 h with h | h
        · exact h
        · have := hlate' finding h
          omega
  cases own with
  | none =>
      cases hmiddle
      cases hfault
  | some stop =>
      obtain ⟨fault, _, hstop, hnil, rfl⟩ := Compile.mapM_cons_ok.1 hmiddle
      cases hnil
      obtain rfl := List.mem_singleton.1 hfault
      obtain ⟨hnext, hwithin⟩ := hown stop rfl
      obtain ⟨next, hnext⟩ := Option.isSome_iff_exists.1 hnext
      have hplace : finding.reached < byteLength before + 1 + byteLength text := by
        rw [(Compile.faultFinding_ok hstop).1, hnext]
        exact hwithin.next next hnext
      refine ⟨early, late, finding, front ++ back, last, rfl, hdiagnostics, ?_, ?_, hread' rfl,
        Compile.mapM_append_ok.2 ⟨early, late, hearly, hlate, rfl⟩⟩
      · intro other hother heq
        have := hearly' other hother
        rw [heq] at this
        omega
      · exact fun later hlater => Nat.le_trans (Nat.le_of_lt hplace) (hreached later hlater)

/-- A diagnostic about a declaration that is a group of its own goes away when the declaration is
blanked out. Nothing else changes: all other diagnostics stay as they are, and if there are none, the
rest compiles. -/
theorem compile_blanked {after : String} {diagnostics : List Diagnostic} {diagnostic : Diagnostic}
    (hrejected : compile (onLines before text after) = .error (.rejected diagnostics))
    (hmem : diagnostic ∈ diagnostics) (hcategory : diagnostic.category ≠ .lexical)
    (hlow : byteLength before + 1 ≤ diagnostic.offset)
    (hhigh : diagnostic.offset < byteLength before + 1 + byteLength text) :
    (diagnostics.erase diagnostic = [] →
      ∃ graph, compile (onLines before (blanked text) after) = .ok graph) ∧
    (diagnostics.erase diagnostic ≠ [] →
      compile (onLines before (blanked text) after) =
        .error (.rejected (diagnostics.erase diagnostic))) := by
  obtain ⟨early, late, own, stops, last, rfl, hdiagnostics, hearly, hlate, hread, hfaults⟩ :=
    exists_own_finding hbefore hvalid hgroup hrejected hmem hcategory hlow hhigh
  have herase : diagnostics.erase own.diagnostic =
      (Compile.mergeFindings (Compile.lexicalFindings (utf8Bytes (onLines before text after).toList)
        (Lexer.tokens (onLines before text after))) (early ++ late)).map (·.diagnostic) := by
    rw [hdiagnostics]
    apply Compile.erase_mergeFindings hlate _ hearly
    intro other hother heq
    exact hcategory (heq ▸ Compile.category_of_mem_lexicalFindings hother)
  rw [← lexicalFindings_blanked hvalid] at herase
  rw [← Compile.faultFinding_of_lineFeeds (lineFeeds_onLines_blanked before text after)] at hfaults
  constructor
  · intro hnothing
    rw [hnothing, eq_comm, List.map_eq_nil_iff, Compile.mergeFindings_eq_nil] at herase
    rw [herase.2] at hfaults
    exact compile_ok_of_nothing_found hread (Compile.lexicalFindings_eq_nil.1 herase.1)
      (Compile.mapM_eq_nil.1 hfaults)
  · intro hmore
    exact (compile_rejected_iff hread).2 ⟨hmore, _, hfaults, herase⟩

end

/-- A declaration that stops behind attributes and inside a primary key; its name is declared again,
and a later declaration stops as well. -/
theorem compile_blanked_redeclared :
    compile (onLines "(entity a)" "(entity b (attr x) (attr y (attr z)) (pk x w))"
        "(entity b (attr x) (pk x))\n(assoc)") =
        .error (.rejected
          [⟨.unresolvedReference, 54, ⟨2, 44⟩, .token "w", "unresolved reference to Attr 'w'"⟩,
            ⟨.malformed, 91, ⟨4, 7⟩, .token ")", "expected association name"⟩]) ∧
      compile (onLines "(entity a)" (blanked "(entity b (attr x) (attr y (attr z)) (pk x w))")
        "(entity b (attr x) (pk x))\n(assoc)") =
        .error (.rejected
          [⟨.malformed, 91, ⟨4, 7⟩, .token ")", "expected association name"⟩]) := by
  have hrejected : compile (onLines "(entity a)" "(entity b (attr x) (attr y (attr z)) (pk x w))"
        "(entity b (attr x) (pk x))\n(assoc)") =
        .error (.rejected
          [⟨.unresolvedReference, 54, ⟨2, 44⟩, .token "w", "unresolved reference to Attr 'w'"⟩,
            ⟨.malformed, 91, ⟨4, 7⟩, .token ")", "expected association name"⟩]) := by
    decide +kernel
  refine ⟨hrejected, ?_⟩
  exact (compile_blanked (by decide +kernel) (by decide +kernel) (by decide +kernel) hrejected
    List.mem_cons_self (by decide) (by decide +kernel) (by decide +kernel)).2 (by decide)

end ErDiagram
