import ErDiagram.Proofs.Compiling

/-!
What a compilation reports: a finding for every stop and for every invalid token, in the order in
which one pass over the source makes them. The order of the others does not depend on any one
stop.
-/

namespace ErDiagram

namespace Compile

/-! ### Findings of stops -/

section

variable {α β ε : Type} {f : α → Except ε β}

theorem mapM_cons_ok {first : α} {rest : List α} {results : List β} :
    (first :: rest).mapM f = .ok results ↔
      ∃ b bs, f first = .ok b ∧ rest.mapM f = .ok bs ∧ results = b :: bs := by
  rw [List.mapM_cons]
  cases f first with
  | error error => simp [bind, Except.bind]
  | ok b =>
      cases rest.mapM f with
      | error error => simp [bind, Except.bind]
      | ok bs => simp [bind, Except.bind, pure, Except.pure, eq_comm]

theorem mapM_append_ok {front back : List α} {results : List β} :
    (front ++ back).mapM f = .ok results ↔
      ∃ bs cs, front.mapM f = .ok bs ∧ back.mapM f = .ok cs ∧ results = bs ++ cs := by
  rw [List.mapM_append]
  cases front.mapM f with
  | error error => simp [bind, Except.bind]
  | ok bs =>
      cases back.mapM f with
      | error error => simp [bind, Except.bind]
      | ok cs => simp [bind, Except.bind, pure, Except.pure, eq_comm]

theorem exists_of_mem_mapM {things : List α} {results : List β} (h : things.mapM f = .ok results)
    {b : β} (hb : b ∈ results) : ∃ a ∈ things, f a = .ok b := by
  induction things generalizing results with
  | nil =>
      cases h
      cases hb
  | cons first rest ih =>
      obtain ⟨c, cs, hfirst, hrest, rfl⟩ := mapM_cons_ok.1 h
      rcases List.mem_cons.1 hb with rfl | hb
      · exact ⟨first, List.mem_cons_self, hfirst⟩
      · obtain ⟨a, ha, hab⟩ := ih hrest hb
        exact ⟨a, List.mem_cons_of_mem _ ha, hab⟩

/-- What a function gives for each of some things. -/
theorem eq_of_mapM_eq_map {g : α → β} {things : List α} (h : things.mapM f = .ok (things.map g))
    {a : α} (ha : a ∈ things) : f a = .ok (g a) := by
  induction things with
  | nil => cases ha
  | cons first rest ih =>
      obtain ⟨b, bs, hfirst, hrest, heq⟩ := mapM_cons_ok.1 h
      obtain ⟨rfl, rfl⟩ := List.cons.inj heq
      rcases List.mem_cons.1 ha with rfl | ha
      · exact hfirst
      · exact ih hrest ha

end

theorem offset_of_diagnosticOf {bytes : List UInt8} {fault : Fault Refusal} {diagnostic : Diagnostic}
    (h : diagnosticOf bytes fault = .ok diagnostic) :
    diagnostic.offset = offsetOf bytes fault.token := by
  unfold diagnosticOf at h
  split at h
  · cases h
    rfl
  · split at h
    · cases h
      rfl
    · cases h
  · cases h

/-- A finding is made at the token that comes next, and points at the token that is blamed. -/
theorem faultFinding_ok {bytes : List UInt8} {stop : Stop Refusal} {finding : Finding}
    (h : faultFinding bytes stop = .ok finding) :
    finding.reached = offsetOf bytes stop.next ∧
      finding.diagnostic.offset = offsetOf bytes stop.fault.token := by
  unfold faultFinding at h
  cases hdiagnostic : diagnosticOf bytes stop.fault with
  | error cause =>
      rw [hdiagnostic] at h
      cases h
  | ok diagnostic =>
      rw [hdiagnostic] at h
      cases h
      exact ⟨rfl, offset_of_diagnosticOf hdiagnostic⟩

theorem category_of_mem_lexicalFindings {bytes : List UInt8} {tokens : List Token}
    {finding : Finding} (h : finding ∈ lexicalFindings bytes tokens) :
    finding.diagnostic.category = .lexical := by
  obtain ⟨token, -, rfl⟩ := List.mem_map.1 h
  rfl

/-! ### The order of findings -/

theorem mergeFindings_append (lexical front : List Finding) :
    ∃ found left, found ⊆ lexical ++ front ∧ left ⊆ lexical ∧
      ∀ back, mergeFindings lexical (front ++ back) = found ++ mergeFindings left back := by
  induction front generalizing lexical with
  | nil => exact ⟨[], lexical, List.nil_subset _, List.Subset.refl _, fun back => rfl⟩
  | cons fault front ih =>
      have htake := (List.takeWhile_sublist (fun finding : Finding =>
        finding.reached < fault.reached) (l := lexical)).subset
      have hdrop := (List.dropWhile_sublist (fun finding : Finding =>
        finding.reached < fault.reached) (l := lexical)).subset
      obtain ⟨found, left, hfound, hleft, hmerge⟩ :=
        ih (lexical.dropWhile (·.reached < fault.reached))
      refine ⟨lexical.takeWhile (·.reached < fault.reached) ++ fault :: found, left, ?_,
        List.Subset.trans hleft hdrop, fun back => ?_⟩
      · intro finding hfinding
        rcases List.mem_append.1 hfinding with hfinding | hfinding
        · exact List.mem_append_left _ (htake hfinding)
        · rcases List.mem_cons.1 hfinding with rfl | hfinding
          · exact List.mem_append_right _ List.mem_cons_self
          · rcases List.mem_append.1 (hfound hfinding) with hfinding | hfinding
            · exact List.mem_append_left _ (hdrop hfinding)
            · exact List.mem_append_right _ (List.mem_cons_of_mem _ hfinding)
      · rw [List.cons_append, mergeFindings, hmerge, List.append_assoc]
        rfl

/-- What is found before a place comes first if no fault is found before it. -/
theorem mergeFindings_of_le {lexical faults : List Finding} {place : Nat}
    (h : ∀ fault ∈ faults, place ≤ fault.reached) :
    mergeFindings lexical faults = lexical.takeWhile (·.reached < place) ++
      mergeFindings (lexical.dropWhile (·.reached < place)) faults := by
  induction lexical with
  | nil => rfl
  | cons finding lexical ih =>
      by_cases hbefore : finding.reached < place
      · rw [List.takeWhile_cons_of_pos (by simpa using hbefore),
          List.dropWhile_cons_of_pos (by simpa using hbefore), List.cons_append, ← ih]
        cases faults with
        | nil => rfl
        | cons fault faults =>
            have hfault : finding.reached < fault.reached :=
              Nat.lt_of_lt_of_le hbefore (h fault List.mem_cons_self)
            rw [mergeFindings, mergeFindings, List.takeWhile_cons_of_pos (by simpa using hfault),
              List.dropWhile_cons_of_pos (by simpa using hfault), List.cons_append]
      · rw [List.takeWhile_cons_of_neg (by simpa using hbefore),
          List.dropWhile_cons_of_neg (by simpa using hbefore), List.nil_append]

/-- If a fault is left out, the other findings stay in order. -/
theorem mergeFindings_without {lexical front back : List Finding} {fault : Finding}
    (h : ∀ later ∈ back, fault.reached ≤ later.reached) :
    ∃ before after, (∀ finding ∈ before, finding ∈ lexical ∨ finding ∈ front) ∧
      mergeFindings lexical (front ++ fault :: back) = before ++ fault :: after ∧
        mergeFindings lexical (front ++ back) = before ++ after := by
  obtain ⟨found, left, hfound, hleft, hmerge⟩ := mergeFindings_append lexical front
  refine ⟨found ++ left.takeWhile (·.reached < fault.reached),
    mergeFindings (left.dropWhile (·.reached < fault.reached)) back, ?_, ?_, ?_⟩
  · intro finding hfinding
    rcases List.mem_append.1 hfinding with hfinding | hfinding
    · exact List.mem_append.1 (hfound hfinding)
    · exact Or.inl (hleft ((List.takeWhile_sublist _).subset hfinding))
  · rw [hmerge, mergeFindings, List.append_assoc]
  · rw [hmerge, mergeFindings_of_le h, List.append_assoc]

/-- A diagnostic that no earlier finding gives is erased by leaving its fault out. -/
theorem erase_mergeFindings {lexical front back : List Finding} {fault : Finding}
    (hlater : ∀ later ∈ back, fault.reached ≤ later.reached)
    (hlexical : ∀ finding ∈ lexical, finding.diagnostic ≠ fault.diagnostic)
    (hfront : ∀ finding ∈ front, finding.diagnostic ≠ fault.diagnostic) :
    ((mergeFindings lexical (front ++ fault :: back)).map (·.diagnostic)).erase fault.diagnostic =
      (mergeFindings lexical (front ++ back)).map (·.diagnostic) := by
  obtain ⟨before, after, hbefore, hwith, hwithout⟩ := mergeFindings_without hlater
  have hnew : fault.diagnostic ∉ before.map (·.diagnostic) := by
    intro hmem
    obtain ⟨finding, hfinding, heq⟩ := List.mem_map.1 hmem
    rcases hbefore finding hfinding with h | h
    · exact hlexical finding h heq
    · exact hfront finding h heq
  rw [hwith, hwithout, List.map_append, List.map_cons, List.erase_append_right _ hnew,
    List.erase_cons_head, List.map_append]

theorem mem_mergeFindings {lexical faults : List Finding} {finding : Finding}
    (h : finding ∈ mergeFindings lexical faults) : finding ∈ lexical ∨ finding ∈ faults := by
  obtain ⟨found, left, hfound, hleft, hmerge⟩ := mergeFindings_append lexical faults
  have hall := hmerge []
  rw [List.append_nil] at hall
  rw [hall] at h
  rcases List.mem_append.1 h with h | h
  · exact List.mem_append.1 (hfound h)
  · exact Or.inl (hleft h)

end Compile

/-! ### What is reported -/

section

variable {source : String} {stops : List (Stop Refusal)} {after : Reading Builder}
  (hread : (Compile.start (Lexer.tokens source)).declarations Builder.meaning (maxDepth + 1) =
    (stops, after))
include hread

/-- The diagnostics are the findings in their order. -/
theorem compile_rejected_iff {diagnostics : List Diagnostic} :
    compile source = .error (.rejected diagnostics) ↔ diagnostics ≠ [] ∧
      ∃ faults, stops.mapM (Compile.faultFinding (utf8Bytes source.toList)) = .ok faults ∧
        diagnostics = (Compile.mergeFindings (Compile.lexicalFindings (utf8Bytes source.toList)
          (Lexer.tokens source)) faults).map (·.diagnostic) := by
  unfold compile compileWithin
  simp only [hread]
  cases stops.mapM (Compile.faultFinding (utf8Bytes source.toList)) with
  | error cause => simp
  | ok faults =>
      simp only [Except.ok.injEq, exists_eq_left']
      cases Compile.mergeFindings (Compile.lexicalFindings (utf8Bytes source.toList)
          (Lexer.tokens source)) faults with
      | nil =>
          cases after.state.finish <;> simp
      | cons finding findings =>
          simp only [Except.error.injEq, CompileError.rejected.injEq, List.map_cons]
          constructor
          · intro h
            exact ⟨h ▸ List.cons_ne_nil _ _, h.symm⟩
          · exact fun h => h.2.symm

/-- A source text compiles if it lexes and no declaration stops. -/
theorem compile_ok_of_nothing_found
    (hlexical : ∀ token ∈ Lexer.tokens source, token.kind ≠ .invalid) (hstops : stops = []) :
    ∃ graph, compile source = .ok graph := by
  rw [hstops] at hread
  obtain ⟨diagram, hwritten, hnests, hvalid, -⟩ := (declarations_eq_nil_iff hlexical).1 hread
  exact ⟨diagram.graph, compile_ok_iff.2 ⟨hlexical, diagram, hwritten, hnests, hvalid, rfl⟩⟩

end
end ErDiagram
