import ErDiagram.Proofs.Stops
import ErDiagram.Proofs.Streaming

/-!
The order of diagnostics. Characters that start no token are all reported, each once and in the order
of the source text, wherever they stand. So are the declarations that stop. A character may be
reported before a declaration that is blamed on an earlier token, because the reader looks one token
ahead, but never the other way round. This is the order in which one pass over the source text tells
them.
-/

namespace ErDiagram

/-! ### Characters that start no token -/

/-- The token is one character of the source text, at its offset. -/
def Token.IsCharacterOf (token : Token) (source : String) : Prop :=
  ∃ front c back, source.toList = front ++ c :: back ∧ token.text = String.ofList [c] ∧
    token.offset = (utf8Bytes front).length

/-- What is told about a character that starts no token. -/
def aboutCharacter (source : String) (token : Token) : Diagnostic where
  category := .lexical
  offset := token.offset
  place := Position.ofOffset source token.offset
  near := .nothing
  message := "unexpected character '" ++ token.text ++ "'"

theorem skipTrivia_suffix (inComment : Bool) (offset : Nat) (text : List Char) :
    (skipTrivia inComment offset text).2 <:+ text := by
  fun_induction skipTrivia inComment offset text with
  | case1 | case5 => exact List.suffix_refl _
  | case2 _ c _ ih => exact ih.trans (List.suffix_cons c _)
  | case3 _ _ c _ _ _ ih => exact ih.trans (List.suffix_cons c _)
  | case4 _ _ _ _ _ ih => exact ih.trans (List.suffix_cons ';' _)

/-- A token covers the characters that stand at its offset. -/
theorem exists_place_of_mem_scan {offset : Nat} {text : List Char} {token : Token}
    (h : token ∈ scan offset text) :
    ∃ front back, text = front ++ (token.text.toList ++ back) ∧
      token.offset = offset + (utf8Bytes front).length := by
  fun_induction scan offset text with
  | case1 => cases h
  | case2 offset text start c rest hskip ih =>
      obtain ⟨skipped, hskipped⟩ := skipTrivia_suffix false offset text
      have hstart := (offset_skipTrivia false offset text).2
      rw [hskip] at hskipped hstart
      dsimp only at hskipped hstart
      rw [← hskipped, utf8Bytes_append, List.length_append] at hstart
      have hcut := (isToken_cutToken c rest).1
      rw [← hskipped]
      rcases List.mem_cons.1 h with rfl | h
      · refine ⟨skipped, (cutToken c rest).2.2, ?_, by dsimp only; omega⟩
        rw [String.toList_ofList, ← hcut]
      · obtain ⟨front, back, hback, hoffset⟩ := ih h
        refine ⟨skipped ++ ((cutToken c rest).2.1 ++ front), back, ?_, ?_⟩
        · rw [List.append_assoc, List.append_assoc, ← hback, ← hcut]
        · rw [hoffset, utf8Bytes_append, utf8Bytes_append, List.length_append, List.length_append]
          omega

theorem ofWord_ne_invalid (word : String) : Token.Kind.ofWord word ≠ .invalid := by
  unfold Token.Kind.ofWord
  split <;> simp

theorem IsToken.exists_eq_singleton {text : List Char} (h : IsToken .invalid text) :
    ∃ c, text = [c] := by
  obtain ⟨c, rest, rfl, hcut⟩ := h
  unfold cutToken at hcut
  split_ifs at hcut with hopen hclose hbound hstart
  · cases hcut
  · cases hcut
  · cases hcut
  · exact absurd (congrArg Prod.fst hcut) (ofWord_ne_invalid _)
  · exact ⟨c, (congrArg (·.2.1) hcut).symm⟩

/-- An invalid token is one character of the source text. -/
theorem isCharacterOf_of_mem_tokens {source : String} {token : Token}
    (h : token ∈ Lexer.tokens source) (hkind : token.kind = .invalid) :
    token.IsCharacterOf source := by
  rw [tokens_eq] at h
  rcases List.mem_append.1 h with h | h
  · obtain ⟨front, back, hsplit, hoffset⟩ := exists_place_of_mem_scan h
    obtain ⟨c, htext⟩ := (hkind ▸ (mem_scan h).1).exists_eq_singleton
    refine ⟨front, c, back, ?_, ?_, ?_⟩
    · rw [hsplit, htext, List.singleton_append]
    · rw [← htext, String.ofList_toList]
    · rw [hoffset, Nat.zero_add]
  · rw [List.mem_singleton.1 h] at hkind
    cases hkind

theorem diagnostic_lexicalFinding (source : String) (token : Token) :
    (Compile.lexicalFinding (utf8Bytes source.toList) token).diagnostic =
      aboutCharacter source token := by
  have hmessage : Token.invalidMessage ++ " '" = "unexpected character '" := by decide
  simp only [Compile.lexicalFinding, aboutCharacter, hmessage, Position.ofOffset]

/-! ### Findings in order -/

namespace Compile

/-- What had not been looked at when a place was reached stands behind it. -/
theorem le_of_mem_dropWhile {lexical : List Finding}
    (hordered : lexical.Pairwise (·.reached < ·.reached)) {place : Nat} {finding : Finding}
    (h : finding ∈ lexical.dropWhile (·.reached < place)) : place ≤ finding.reached := by
  induction lexical with
  | nil => cases h
  | cons first rest ih =>
      obtain ⟨hfirst, hrest⟩ := List.pairwise_cons.1 hordered
      by_cases hbefore : first.reached < place
      · rw [List.dropWhile_cons_of_pos (by simpa using hbefore)] at h
        exact ih hrest h
      · rw [List.dropWhile_cons_of_neg (by simpa using hbefore)] at h
        rcases List.mem_cons.1 h with rfl | h
        · exact Nat.le_of_not_lt hbefore
        · exact Nat.le_trans (Nat.le_of_not_lt hbefore) (Nat.le_of_lt (hfirst finding h))

theorem forall_mem_takeWhile_dropWhile {α : Type} {P : α → Prop} {things : List α} (p : α → Bool)
    (h : ∀ thing ∈ things, P thing) :
    (∀ thing ∈ things.takeWhile p, P thing) ∧ ∀ thing ∈ things.dropWhile p, P thing :=
  ⟨fun thing hthing => h thing ((List.takeWhile_sublist p).subset hthing),
    fun thing hthing => h thing ((List.dropWhile_sublist p).subset hthing)⟩

section

variable {lexical faults : List Finding}
  (hlexical : ∀ finding ∈ lexical, finding.diagnostic.category = .lexical)
  (hfaults : ∀ fault ∈ faults, fault.diagnostic.category ≠ .lexical)
include hlexical hfaults

/-- No finding about a character is lost or repeated. -/
theorem filter_lexical_mergeFindings :
    (mergeFindings lexical faults).filter (·.diagnostic.category = .lexical) = lexical := by
  induction faults generalizing lexical with
  | nil => exact List.filter_eq_self.2 fun finding h => decide_eq_true (hlexical finding h)
  | cons fault faults ih =>
      obtain ⟨hfault, hfaults⟩ := List.forall_mem_cons.1 hfaults
      obtain ⟨htake, hdrop⟩ := forall_mem_takeWhile_dropWhile (·.reached < fault.reached) hlexical
      rw [mergeFindings, List.filter_append, List.filter_cons_of_neg (by simpa using hfault),
        ih hdrop hfaults, List.filter_eq_self.2 fun finding h => decide_eq_true (htake finding h)]
      exact List.takeWhile_append_dropWhile

/-- No finding about a declaration is lost or repeated. -/
theorem filter_faults_mergeFindings :
    (mergeFindings lexical faults).filter (·.diagnostic.category ≠ .lexical) = faults := by
  induction faults generalizing lexical with
  | nil => exact List.filter_eq_nil_iff.2 fun finding h => by simp [hlexical finding h]
  | cons fault faults ih =>
      obtain ⟨hfault, hfaults⟩ := List.forall_mem_cons.1 hfaults
      obtain ⟨htake, hdrop⟩ := forall_mem_takeWhile_dropWhile (·.reached < fault.reached) hlexical
      rw [mergeFindings, List.filter_append, List.filter_cons_of_pos (by simpa using hfault),
        ih hdrop hfaults, List.filter_eq_nil_iff.2 fun finding h => by simp [htake finding h]]
      rfl

/-- What is found about a character behind a fault had not been looked at before. -/
theorem pairwise_mergeFindings (hordered : lexical.Pairwise (·.reached < ·.reached)) :
    (mergeFindings lexical faults).Pairwise fun first second =>
      first.diagnostic.category ≠ .lexical → second.diagnostic.category = .lexical →
        first.reached ≤ second.reached := by
  induction faults generalizing lexical with
  | nil =>
      exact hordered.imp_of_mem fun hfirst _ _ hcategory =>
        absurd (hlexical _ hfirst) hcategory
  | cons fault faults ih =>
      obtain ⟨hfault, hfaults⟩ := List.forall_mem_cons.1 hfaults
      obtain ⟨htake, hdrop⟩ := forall_mem_takeWhile_dropWhile (·.reached < fault.reached) hlexical
      rw [mergeFindings]
      refine List.pairwise_append.2 ⟨?_, List.pairwise_cons.2 ⟨?_, ?_⟩, ?_⟩
      · exact (hordered.sublist (List.takeWhile_sublist _)).imp_of_mem fun hfirst _ _ hcategory =>
          absurd (htake _ hfirst) hcategory
      · intro later hlater _ hcategory
        rcases mem_mergeFindings hlater with hlater | hlater
        · exact le_of_mem_dropWhile hordered hlater
        · exact absurd hcategory (hfaults later hlater)
      · exact ih hdrop hfaults (hordered.sublist (List.dropWhile_sublist _))
      · exact fun first hfirst _ _ hcategory => absurd (htake first hfirst) hcategory

end

theorem mem_scan_of_mem_significant {source : String} {token : Token}
    (h : token ∈ significant (Lexer.tokens source)) : token ∈ scan 0 source.toList := by
  rw [significant_tokens_eq] at h
  exact mem_of_mem_significant h

end Compile

/-- Tokens of a text at the same offset are the same. -/
theorem eq_of_mem_scan {text : List Char} {token other : Token} (h : token ∈ scan 0 text)
    (hother : other ∈ scan 0 text) (hoffset : token.offset = other.offset) : token = other := by
  have hnodup : ((scan 0 text).map (·.offset)).Nodup :=
    List.pairwise_map.2 ((pairwise_scan 0 text).imp Nat.ne_of_lt)
  exact List.inj_on_of_nodup_map hnodup h hother hoffset

section

variable {source : String} {stop : Stop Refusal} {finding : Finding}
  (hfinding : finding.Reports (utf8Bytes source.toList) stop)
include hfinding

/-- A stop that precedes another is reported at a smaller offset. -/
theorem Stop.Precedes.offset_lt {later : Stop Refusal} {next : Finding} (h : stop.Precedes later)
    (hwithin : stop.Within (· ∈ Compile.significant (Lexer.tokens source)))
    (hnext : next.Reports (utf8Bytes source.toList) later) :
    finding.diagnostic.offset < next.diagnostic.offset := by
  obtain ⟨token, htoken, hlater⟩ := h
  rw [hfinding.offset_eq, hnext.offset_eq, htoken]
  have hend := (mem_scan (Compile.mem_scan_of_mem_significant (hwithin.blames token htoken))).2.2.2
  rw [Nat.zero_add] at hend
  exact @Compile.offsetOf_of (token.offset < ·) _ _ hlater hend

/-- A stop is reported at an offset before all characters that are found behind it. -/
theorem Stop.Placed.offset_lt (h : stop.Placed)
    (hwithin : stop.Within (· ∈ Compile.significant (Lexer.tokens source))) {token : Token}
    (htoken : token ∈ scan 0 source.toList) (hkind : token.kind = .invalid)
    (hreached : finding.reached ≤ token.offset) : finding.diagnostic.offset < token.offset := by
  have hend := (mem_scan htoken).2.2.2
  rw [hfinding.reached_eq] at hreached
  rw [hfinding.offset_eq]
  cases hnext : stop.next with
  | none =>
      rw [hnext] at hreached
      have : (utf8Bytes source.toList).length ≤ token.offset := hreached
      omega
  | some next =>
      cases hblamed : stop.fault.token with
      | none =>
          rw [h.next_eq_none hblamed] at hnext
          cases hnext
      | some blamed =>
          rw [hnext] at hreached
          have hle : blamed.offset ≤ token.offset :=
            Nat.le_trans (h.le_next blamed hblamed next hnext) hreached
          refine Nat.lt_of_le_of_ne hle fun heq => ?_
          -- What is blamed is not a character that starts no token.
          have hmem := hwithin.blames blamed hblamed
          have hsame := eq_of_mem_scan (Compile.mem_scan_of_mem_significant hmem) htoken heq
          have hvalid := (List.mem_filter.1 hmem).2
          simp [hsame, hkind] at hvalid

end

/-! ### Diagnostics in order -/

/-- What the diagnostics for a source text are: one for each invalid token in their order, and others
in the order of what they point at, each of which is pointed at before all characters that come
later. -/
structure InOrder (source : String) (diagnostics : List Diagnostic) : Prop where
  lexical : diagnostics.filter (·.category = .lexical) =
    ((Lexer.tokens source).filter (·.kind = .invalid)).map (aboutCharacter source)
  ascending : (diagnostics.filter (·.category ≠ .lexical)).Pairwise (·.offset < ·.offset)
  overtaken : diagnostics.Pairwise fun first second =>
    first.category ≠ .lexical → second.category = .lexical → first.offset < second.offset

theorem pairwise_lexicalFindings (bytes : List UInt8) (source : String) :
    (Compile.lexicalFindings bytes (Lexer.tokens source)).Pairwise (·.reached < ·.reached) := by
  rw [Compile.lexicalFindings_tokens_eq]
  exact List.pairwise_map.2 ((pairwise_scan 0 source.toList).filter _)

theorem exists_of_mem_lexicalFindings {bytes : List UInt8} {source : String} {finding : Finding}
    (h : finding ∈ Compile.lexicalFindings bytes (Lexer.tokens source)) :
    ∃ token ∈ scan 0 source.toList, token.kind = .invalid ∧
      finding = Compile.lexicalFinding bytes token := by
  rw [Compile.lexicalFindings_tokens_eq] at h
  obtain ⟨token, htoken, rfl⟩ := List.mem_map.1 h
  obtain ⟨hmem, hkind⟩ := List.mem_filter.1 htoken
  exact ⟨token, hmem, of_decide_eq_true hkind, rfl⟩

section

variable {source : String} {finding : Stop Refusal → Finding}
  (hreports : ∀ stop ∈ (declarationsOf source).1,
    (finding stop).Reports (utf8Bytes source.toList) stop)
include hreports

theorem category_ne_of_mem_map {fault : Finding}
    (h : fault ∈ (declarationsOf source).1.map finding) : fault.diagnostic.category ≠ .lexical := by
  obtain ⟨stop, hstop, rfl⟩ := List.mem_map.1 h
  exact (hreports stop hstop).category_ne

variable (htold : diagnosticsOf source = (Compile.mergeFindings
    (Compile.lexicalFindings (utf8Bytes source.toList) (Lexer.tokens source))
    ((declarationsOf source).1.map finding)).map (·.diagnostic))
include htold

/-- What a source text is told about characters. -/
theorem filter_lexical_diagnosticsOf :
    (diagnosticsOf source).filter (·.category = .lexical) =
      ((Lexer.tokens source).filter (·.kind = .invalid)).map (aboutCharacter source) := by
  rw [htold, List.filter_map]
  change ((Compile.mergeFindings _ _).filter (·.diagnostic.category = .lexical)).map _ = _
  rw [Compile.filter_lexical_mergeFindings (fun _ => Compile.category_of_mem_lexicalFindings)
    (fun _ => category_ne_of_mem_map hreports), Compile.lexicalFindings, List.map_map]
  exact List.map_congr_left fun token _ => diagnostic_lexicalFinding source token

/-- What a source text is told about declarations that stop. -/
theorem filter_faults_diagnosticsOf :
    (diagnosticsOf source).filter (·.category ≠ .lexical) =
      (declarationsOf source).1.map fun stop => (finding stop).diagnostic := by
  rw [htold, List.filter_map]
  change ((Compile.mergeFindings _ _).filter (·.diagnostic.category ≠ .lexical)).map _ = _
  rw [Compile.filter_faults_mergeFindings (fun _ => Compile.category_of_mem_lexicalFindings)
    (fun _ => category_ne_of_mem_map hreports), List.map_map]
  rfl

theorem pairwise_diagnosticsOf :
    (diagnosticsOf source).Pairwise fun first second =>
      first.category ≠ .lexical → second.category = .lexical → first.offset < second.offset := by
  obtain ⟨-, hplaced, -⟩ := (Compile.stands_start source).declarations
  rw [htold, List.pairwise_map]
  refine (Compile.pairwise_mergeFindings (fun _ => Compile.category_of_mem_lexicalFindings)
    (fun _ => category_ne_of_mem_map hreports) (pairwise_lexicalFindings _ source)).imp_of_mem ?_
  intro first second hfirst hsecond hreached hnot hcategory
  have hfault := (Compile.mem_mergeFindings hfirst).resolve_left fun h =>
    hnot (Compile.category_of_mem_lexicalFindings h)
  have hcharacter := (Compile.mem_mergeFindings hsecond).resolve_right fun h =>
    category_ne_of_mem_map hreports h hcategory
  obtain ⟨stop, hstop, rfl⟩ := List.mem_map.1 hfault
  obtain ⟨token, htoken, hkind, rfl⟩ := exists_of_mem_lexicalFindings hcharacter
  exact (hplaced stop hstop).offset_lt (hreports stop hstop) (within_of_mem_declarationsOf hstop)
    htoken hkind (hreached hnot hcategory)

end

theorem inOrder_diagnosticsOf (source : String) : InOrder source (diagnosticsOf source) := by
  obtain ⟨finding, hreports, htold⟩ := exists_findings source
  obtain ⟨-, -, hpairwise⟩ := (Compile.stands_start source).declarations
  refine ⟨filter_lexical_diagnosticsOf hreports htold, ?_, pairwise_diagnosticsOf hreports htold⟩
  rw [filter_faults_diagnosticsOf hreports htold, List.pairwise_map]
  exact hpairwise.imp_of_mem fun hstop hlater h =>
    h.offset_lt (hreports _ hstop) (within_of_mem_declarationsOf hstop) (hreports _ hlater)

/-- A source text that compiles has no invalid token. One that does not is told of each invalid token
exactly once, in the order of the source; everything else that it is told comes in the order of what
it points at, and an invalid token is never reported behind a fault at a later place. All of it is what
one pass tells that goes on token by token, if a 32-bit word can count the bytes of the source. -/
theorem compile_inOrder (source : String) :
    (∀ token ∈ Lexer.tokens source, token.kind = .invalid → token.IsCharacterOf source) ∧
      (match compile source with
      | .ok _ => ∀ token ∈ Lexer.tokens source, token.kind ≠ .invalid
      | .error (.rejected diagnostics) => InOrder source diagnostics
      | .error (.internal _) => False) ∧
        (byteLength source < 2 ^ 31 → Pass.compile source = compile source) := by
  refine ⟨fun token => isCharacterOf_of_mem_tokens, ?_, Pass.compile_eq⟩
  rcases compile_cases source with ⟨graph, hok⟩ | ⟨-, hrejected⟩
  · rw [hok]
    exact (compile_ok_iff.1 hok).1
  · rw [hrejected]
    exact inOrder_diagnosticsOf source

/-- The pass has looked at the question mark when the name in front of it is refused. -/
theorem compile_inOrder_overtaking :
    Pass.compile "(entity a)(entity a ?)" = compile "(entity a)(entity a ?)" ∧
      (diagnosticsOf "(entity a)(entity a ?)").map (fun told => (told.category, told.offset)) =
        [(.lexical, 20), (.duplicateDefinition, 18)] := by
  obtain ⟨-, -, hpass⟩ := compile_inOrder "(entity a)(entity a ?)"
  exact ⟨hpass (by decide +kernel), by decide +kernel⟩

end ErDiagram
