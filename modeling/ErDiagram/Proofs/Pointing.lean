import ErDiagram.Encoding
import ErDiagram.Proofs.Ordering
import ErDiagram.Proofs.Respelling

/-!
What diagnostics point at. Each is about a token of the source text, or about its end, and shows the
whole text of the token that stands at its offset. No token is written with a blank in it, so the
flat JSON form, which writes a token and the end of the file alike as a string, tells them apart and
loses nothing.
-/

namespace ErDiagram

/-! ### What tokens are written with -/

theorem isBlank_of_isWordChar {c : Char} (h : isWordChar c) : isBlank c = false := by
  rw [Bool.eq_false_iff]
  intro hblank
  simp only [isBlank, Bool.or_eq_true, decide_eq_true_eq] at hblank
  rcases hblank with ((rfl | rfl) | rfl) | rfl <;> exact absurd h (by decide)

theorem IsBound.isWordChar {text : List Char} (h : IsBound text) {c : Char} (hc : c ∈ text) :
    isWordChar c := by
  rcases h with rfl | rfl | ⟨-, hdigits⟩
  · rw [List.mem_singleton.1 hc]
    decide
  · rw [List.mem_singleton.1 hc]
    decide
  · simp [ErDiagram.isWordChar, hdigits c hc]

theorem IsCardinal.mem {text : List Char} (h : IsCardinal text) {c : Char} (hc : c ∈ text) :
    isWordChar c ∨ c = ':' := by
  rcases h with h | ⟨lower, upper, rfl, hlower, hupper⟩
  · exact Or.inl (h.isWordChar hc)
  · rcases List.mem_append.1 hc with hc | hc
    · exact Or.inl (hlower.isWordChar hc)
    · rcases List.mem_cons.1 hc with hc | hc
      · exact Or.inr hc
      · exact Or.inl (hupper.isWordChar hc)

/-- Behind its first character, a token has none but word characters and colons. -/
theorem mem_cutToken {c d : Char} {rest : List Char} (h : d ∈ (cutToken c rest).2.1) :
    d = c ∨ isWordChar d ∨ d = ':' := by
  by_cases hbound : startsBound (c :: rest)
  · rw [cutToken_cardinal hbound] at h
    exact Or.inr ((isCardinal_cutCardinal hbound).2.mem h)
  · unfold cutToken at h
    rw [if_neg hbound] at h
    split_ifs at h
    · exact Or.inl (List.mem_singleton.1 h)
    · exact Or.inl (List.mem_singleton.1 h)
    · rcases List.mem_cons.1 h with h | h
      · exact Or.inl h
      · exact Or.inr (Or.inl (List.mem_takeWhile_imp h))
    · exact Or.inl (List.mem_singleton.1 h)

theorem isBlank_of_mem_token {offset : Nat} {text : List Char} {token : Token}
    (h : token ∈ scan offset text) {c : Char} (hc : c ∈ token.text.toList) : isBlank c = false := by
  fun_induction scan offset text with
  | case1 => cases h
  | case2 offset text start first rest hskip ih =>
      rcases List.mem_cons.1 h with rfl | h
      · rw [String.toList_ofList] at hc
        rcases mem_cutToken hc with rfl | hword | rfl
        · exact (exists_trivia hskip).1.1
        · exact isBlank_of_isWordChar hword
        · decide
      · exact ih h

/-! ### What diagnostics are about -/

/-- The text of the token stands in the source text at its offset. -/
def Token.StandsIn (token : Token) (source : String) : Prop :=
  ∃ front back, source.toList = front ++ (token.text.toList ++ back) ∧
    token.offset = (utf8Bytes front).length

theorem standsIn_of_mem_scan {source : String} {token : Token} (h : token ∈ scan 0 source.toList) :
    token.StandsIn source := by
  obtain ⟨front, back, hsplit, hoffset⟩ := exists_place_of_mem_scan h
  exact ⟨front, back, hsplit, hoffset.trans (Nat.zero_add _)⟩

theorem text_ne_empty_of_mem_scan {source : String} {token : Token}
    (h : token ∈ scan 0 source.toList) : token.text ≠ "" := by
  intro hempty
  apply (mem_scan h).1.ne_nil
  rw [hempty]
  rfl

theorem offset_ne_of_mem_scan {source : String} {token : Token}
    (h : token ∈ scan 0 source.toList) : token.offset ≠ byteLength source := by
  have hlt := (mem_scan h).2.2.2
  rw [Nat.zero_add] at hlt
  exact Nat.ne_of_lt hlt

theorem mem_tokens_of_mem_scan {source : String} {token : Token} (h : token ∈ scan 0 source.toList) :
    token ∈ Lexer.tokens source := by
  rw [tokens_eq]
  exact List.mem_append_left _ h

namespace Compile

theorem diagnosticOf_of_faultFinding {bytes : List UInt8} {stop : Stop Refusal} {finding : Finding}
    (h : faultFinding bytes stop = .ok finding) :
    diagnosticOf bytes stop.fault = .ok finding.diagnostic := by
  unfold faultFinding at h
  cases hdiagnostic : diagnosticOf bytes stop.fault with
  | error cause =>
      rw [hdiagnostic] at h
      cases h
  | ok diagnostic =>
      rw [hdiagnostic] at h
      cases h
      rfl

/-- A fault is told at the token that is blamed. -/
theorem exists_diagnosticAt {bytes : List UInt8} {fault : Fault Refusal} {diagnostic : Diagnostic}
    (h : diagnosticOf bytes fault = .ok diagnostic) :
    ∃ category message, category ≠ .lexical ∧
      diagnostic = diagnosticAt bytes fault.token category message := by
  unfold diagnosticOf at h
  split at h
  · cases h
    exact ⟨.malformed, _, by decide, rfl⟩
  · rename_i refusal _
    split at h
    · rename_i category hcategory
      cases h
      refine ⟨category, _, ?_, rfl⟩
      rintro rfl
      exact refusal.category?_ne hcategory
    · cases h
  · cases h

end Compile

/-- What a source text is told is about a character, or about the fault of a stop. -/
theorem exists_of_mem_diagnosticsOf {source : String} {diagnostic : Diagnostic}
    (h : diagnostic ∈ diagnosticsOf source) :
    (∃ token ∈ scan 0 source.toList, token.kind = .invalid ∧
        diagnostic = aboutCharacter source token) ∨
      ∃ stop ∈ (declarationsOf source).1,
        Compile.diagnosticOf (utf8Bytes source.toList) stop.fault = .ok diagnostic := by
  rcases compile_cases source with ⟨graph, hok⟩ | ⟨-, hrejected⟩
  · rw [diagnosticsOf, hok] at h
    cases h
  have hread : (Compile.start (Lexer.tokens source)).declarations Builder.meaning (maxDepth + 1) =
      ((declarationsOf source).1, (declarationsOf source).2) := rfl
  obtain ⟨-, faults, hfaults, htold⟩ := (compile_rejected_iff hread).1 hrejected
  rw [htold] at h
  obtain ⟨finding, hfinding, rfl⟩ := List.mem_map.1 h
  rcases Compile.mem_mergeFindings hfinding with hfinding | hfinding
  · obtain ⟨token, htoken, hkind, rfl⟩ := exists_of_mem_lexicalFindings hfinding
    exact Or.inl ⟨token, htoken, hkind, diagnostic_lexicalFinding source token⟩
  · obtain ⟨stop, hstop, hfault⟩ := Compile.exists_of_mem_mapM hfaults hfinding
    exact Or.inr ⟨stop, hstop, Compile.diagnosticOf_of_faultFinding hfault⟩

/-- What a diagnostic shows agrees with the source text at its offset. -/
structure Diagnostic.PointsInto (diagnostic : Diagnostic) (source : String) : Prop where
  /-- It points at a token of the source, the end of input among them. -/
  token : ∃ token ∈ Lexer.tokens source, token.offset = diagnostic.offset
  /-- Its line and column are those of its offset. -/
  place : diagnostic.place = Position.ofOffset source diagnostic.offset
  /-- It stands next to nothing exactly if it is about a character. -/
  nothing : diagnostic.near = .nothing ↔ diagnostic.category = .lexical
  /-- It stands at the end of the file exactly if it points behind the last byte. -/
  endOfFile : diagnostic.near = .endOfFile ↔ diagnostic.offset = byteLength source
  /-- Otherwise it shows the whole token at its offset, as it is written there. -/
  text : ∀ text, diagnostic.near = .token text → text ≠ "" ∧
    ∃ token ∈ Lexer.tokens source, token.offset = diagnostic.offset ∧ token.text = text ∧
      token.StandsIn source

theorem pointsInto_aboutCharacter {source : String} {token : Token}
    (h : token ∈ scan 0 source.toList) : (aboutCharacter source token).PointsInto source where
  token := ⟨token, mem_tokens_of_mem_scan h, rfl⟩
  place := rfl
  nothing := iff_of_true rfl rfl
  endOfFile := iff_of_false (by simp [aboutCharacter]) (offset_ne_of_mem_scan h)
  text := by simp [aboutCharacter]

theorem pointsInto_endOfFile (source : String) {category : Diagnostic.Category}
    (hcategory : category ≠ .lexical) (message : String) :
    (Compile.diagnosticAt (utf8Bytes source.toList) none category message).PointsInto source where
  token := by
    rw [tokens_eq]
    exact ⟨_, List.mem_append_right _ (List.mem_singleton_self _), rfl⟩
  place := rfl
  nothing := iff_of_false (by simp [Compile.diagnosticAt]) hcategory
  endOfFile := iff_of_true rfl rfl
  text := by simp [Compile.diagnosticAt]

theorem pointsInto_token {source : String} {token : Token} (h : token ∈ scan 0 source.toList)
    {category : Diagnostic.Category} (hcategory : category ≠ .lexical) (message : String) :
    (Compile.diagnosticAt (utf8Bytes source.toList) (some token) category message).PointsInto
      source where
  token := ⟨token, mem_tokens_of_mem_scan h, rfl⟩
  place := rfl
  nothing := iff_of_false (by simp [Compile.diagnosticAt]) hcategory
  endOfFile := iff_of_false (by simp [Compile.diagnosticAt]) (offset_ne_of_mem_scan h)
  text := by
    intro text hnear
    cases hnear
    exact ⟨text_ne_empty_of_mem_scan h, token, mem_tokens_of_mem_scan h, rfl, rfl,
      standsIn_of_mem_scan h⟩

theorem pointsInto_of_mem_diagnosticsOf {source : String} {diagnostic : Diagnostic}
    (h : diagnostic ∈ diagnosticsOf source) : diagnostic.PointsInto source := by
  rcases exists_of_mem_diagnosticsOf h with ⟨token, htoken, -, rfl⟩ | ⟨stop, hstop, hfault⟩
  · exact pointsInto_aboutCharacter htoken
  · obtain ⟨category, message, hcategory, rfl⟩ := Compile.exists_diagnosticAt hfault
    have hblamed := (within_of_mem_declarationsOf hstop).blames
    cases htoken : stop.fault.token with
    | none => exact pointsInto_endOfFile source hcategory message
    | some token =>
        exact pointsInto_token (Compile.mem_scan_of_mem_significant (hblamed token htoken)) hcategory
          message

/-! ### The flat form -/

theorem Diagnostic.Category.text_injective : Function.Injective Category.text := by
  intro category other h
  cases category <;> cases other <;> first | rfl | exact absurd h (by decide)

/-- No token is written like the end of the file in the flat form. -/
theorem near_ne_of_mem_diagnosticsOf {source : String} {diagnostic : Diagnostic}
    (h : diagnostic ∈ diagnosticsOf source) : diagnostic.near ≠ .token "end of file" := by
  intro hnear
  obtain ⟨-, token, htoken, -, htext, -⟩ := (pointsInto_of_mem_diagnosticsOf h).text _ hnear
  rw [tokens_eq] at htoken
  rcases List.mem_append.1 htoken with htoken | htoken
  · have hspace : ' ' ∈ token.text.toList := by
      rw [htext]
      decide
    exact absurd (isBlank_of_mem_token htoken hspace) (by decide)
  · rw [List.mem_singleton.1 htoken] at htext
    simp at htext

theorem Diagnostic.Near.toJson_injOn {near other : Near} (h : near ≠ .token "end of file")
    (h' : other ≠ .token "end of file") (heq : near.toJson = other.toJson) : near = other := by
  cases near <;> cases other <;> simp only [toJson, Json.string.injEq, reduceCtorEq] at heq
  · rw [heq]
  · exact absurd (congrArg Near.token heq) h
  · exact absurd (congrArg Near.token heq.symm) h'
  · rfl
  · rfl

/-- The flat form loses nothing of a diagnostic that does not show a token like the end of the
file. -/
theorem Diagnostic.toJson_injOn {diagnostic other : Diagnostic}
    (h : diagnostic.near ≠ .token "end of file") (h' : other.near ≠ .token "end of file")
    (heq : diagnostic.toJson = other.toJson) : diagnostic = other := by
  obtain ⟨category, offset, ⟨line, column⟩, near, message⟩ := diagnostic
  obtain ⟨category', offset', ⟨line', column'⟩, near', message'⟩ := other
  simp only [toJson, toJsonWith, Json.object.injEq, List.cons.injEq, Prod.mk.injEq,
    Json.number.injEq, Json.string.injEq, true_and, and_true] at heq
  obtain ⟨hcolumn, hcategory, hline, rfl, hnear, rfl⟩ := heq
  obtain rfl := UInt32.toNat_inj.1 hcolumn
  obtain rfl := UInt32.toNat_inj.1 hline
  obtain rfl := Category.text_injective hcategory
  obtain rfl := Near.toJson_injOn h h' hnear
  rfl

/-- Every diagnostic of a source text points at one of its tokens and shows what stands there, and
the flat form tells it from every other diagnostic, of whatever source text. -/
theorem pointsInto_of_told {source source' : String} {diagnostic other : Diagnostic}
    (h : diagnostic ∈ diagnosticsOf source) (h' : other ∈ diagnosticsOf source') :
    diagnostic.PointsInto source ∧ (diagnostic.toJson = other.toJson → diagnostic = other) :=
  ⟨pointsInto_of_mem_diagnosticsOf h,
    Diagnostic.toJson_injOn (near_ne_of_mem_diagnosticsOf h) (near_ne_of_mem_diagnosticsOf h')⟩

/-- A name that is refused in the second line, and a text that ends too early. -/
theorem pointsInto_of_told_second_line :
    ∃ told other, (told ∈ diagnosticsOf "(entity a)\n(entity a ?)" ∧
        other ∈ diagnosticsOf "(entity a") ∧
      (told.near = .token "a" ∧ other.near = .endOfFile) ∧
        told.PointsInto "(entity a)\n(entity a ?)" ∧ (told.toJson = other.toJson → told = other) := by
  have htold : ⟨.duplicateDefinition, 19, ⟨2, 9⟩, .token "a", "duplicate definition of Entity 'a'"⟩ ∈
      diagnosticsOf "(entity a)\n(entity a ?)" := by
    decide +kernel
  have hother : ⟨.malformed, 9, ⟨1, 10⟩, .endOfFile, "expected ')'"⟩ ∈
      diagnosticsOf "(entity a" := by
    decide +kernel
  exact ⟨_, _, ⟨htold, hother⟩, ⟨rfl, rfl⟩, pointsInto_of_told htold hother⟩

end ErDiagram
