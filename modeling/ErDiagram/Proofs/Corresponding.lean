import ErDiagram.Proofs.Mirroring
import ErDiagram.Proofs.Stops

/-!
Source texts whose tokens correspond. Offsets, lines and the spelling of reserved words differ, but
the tokens are of the same kinds in the same order; then both texts compile, to graphs that differ in
names only, or both are rejected, with complaints of the same class about tokens with the same index.
-/

namespace ErDiagram

/-- The index, among the tokens of a source text, of the token that a diagnostic points at. -/
def Diagnostic.tokenIndex? (source : String) (diagnostic : Diagnostic) : Option Nat :=
  (Lexer.tokens source).findIdx? (·.offset = diagnostic.offset)

/-! ### Places in two source texts -/

/-- Two offsets where tokens with the same index start. -/
def SamePlace (source text : String) (offset offset' : Nat) : Prop :=
  ∃ (index : Nat) (token image : Token), (Lexer.tokens source)[index]? = some token ∧
    (Lexer.tokens text)[index]? = some image ∧ token.offset = offset ∧ image.offset = offset'

/-- The tokens of a source text come one behind the other, the end of input last. -/
theorem pairwise_tokens (source : String) :
    (Lexer.tokens source).Pairwise (·.offset < ·.offset) := by
  rw [tokens_eq]
  refine List.pairwise_append.2 ⟨pairwise_scan _ _, List.pairwise_singleton _ _, ?_⟩
  intro token htoken last hlast
  rw [List.mem_singleton.1 hlast]
  have hoffset := (mem_scan htoken).2.2.2
  rwa [Nat.zero_add] at hoffset

theorem offset_lt_of_index_lt {source : String} {index later : Nat} {token next : Token}
    (htoken : (Lexer.tokens source)[index]? = some token)
    (hnext : (Lexer.tokens source)[later]? = some next) (h : index < later) :
    token.offset < next.offset := by
  obtain ⟨hindex, rfl⟩ := List.getElem?_eq_some_iff.1 htoken
  obtain ⟨hlater, rfl⟩ := List.getElem?_eq_some_iff.1 hnext
  exact List.pairwise_iff_getElem.1 (pairwise_tokens source) index later hindex hlater h

namespace SamePlace

variable {source text : String} {offset offset' : Nat}

/-- Places come in the same order in both texts. -/
theorem lt_iff {other other' : Nat} (h : SamePlace source text offset offset')
    (hother : SamePlace source text other other') : offset < other ↔ offset' < other' := by
  obtain ⟨index, token, image, htoken, himage, rfl, rfl⟩ := h
  obtain ⟨later, next, next', hnext, hnext', rfl, rfl⟩ := hother
  rcases Nat.lt_trichotomy index later with h | rfl | h
  · exact iff_of_true (offset_lt_of_index_lt htoken hnext h) (offset_lt_of_index_lt himage hnext' h)
  · obtain rfl := Option.some.inj (htoken.symm.trans hnext)
    obtain rfl := Option.some.inj (himage.symm.trans hnext')
    exact iff_of_false (Nat.lt_irrefl _) (Nat.lt_irrefl _)
  · have hlt := offset_lt_of_index_lt hnext htoken h
    have hlt' := offset_lt_of_index_lt hnext' himage h
    exact iff_of_false (Nat.lt_asymm hlt) (Nat.lt_asymm hlt')

theorem findIdx?_eq {index : Nat} {token : Token}
    (htoken : (Lexer.tokens source)[index]? = some token) :
    (Lexer.tokens source).findIdx? (·.offset = token.offset) = some index := by
  obtain ⟨hindex, rfl⟩ := List.getElem?_eq_some_iff.1 htoken
  refine List.findIdx?_eq_some_iff_getElem.2 ⟨hindex, decide_eq_true rfl, fun earlier hlt => ?_⟩
  have hoffset := offset_lt_of_index_lt
    (List.getElem?_eq_getElem (Nat.lt_trans hlt hindex)) htoken hlt
  simpa using Nat.ne_of_lt hoffset

end SamePlace

/-! ### What is found -/

/-- Two diagnostics of the same class about tokens with the same index. They say the same if no name
is replaced. -/
structure Diagnostic.Matches (ρ : String → String) (source text : String)
    (diagnostic image : Diagnostic) : Prop where
  category : image.category = diagnostic.category
  place : SamePlace source text diagnostic.offset image.offset
  message : (∀ name, ρ name = name) → image.message = diagnostic.message

/-- Two findings that were made at the same place and match. -/
structure Finding.Matches (ρ : String → String) (source text : String)
    (finding image : Finding) : Prop where
  reached : SamePlace source text finding.reached image.reached
  diagnostic : finding.diagnostic.Matches ρ source text image.diagnostic

section

variable {α β : Type} {R : α → β → Prop} {p : α → Bool} {q : β → Bool}

theorem forall₂_takeWhile {things images : List _} (h : List.Forall₂ R things images)
    (hsame : ∀ thing image, R thing image → q image = p thing) :
    List.Forall₂ R (things.takeWhile p) (images.takeWhile q) := by
  induction h with
  | nil => exact .nil
  | @cons thing image _ _ hfirst _ ih =>
      rw [List.takeWhile_cons, List.takeWhile_cons, hsame thing image hfirst]
      split
      · exact .cons hfirst ih
      · exact .nil

theorem forall₂_dropWhile {things images : List _} (h : List.Forall₂ R things images)
    (hsame : ∀ thing image, R thing image → q image = p thing) :
    List.Forall₂ R (things.dropWhile p) (images.dropWhile q) := by
  induction h with
  | nil => exact .nil
  | @cons thing image _ _ hfirst hrest ih =>
      rw [List.dropWhile_cons, List.dropWhile_cons, hsame thing image hfirst]
      split
      · exact ih
      · exact .cons hfirst hrest

theorem forall₂_filter {things images : List _} (h : List.Forall₂ R things images)
    (hsame : ∀ thing image, R thing image → q image = p thing) :
    List.Forall₂ (fun thing image => p thing ∧ R thing image) (things.filter p)
      (images.filter q) := by
  refine (List.forall₂_and_left _ _).2 ⟨fun thing hthing => (List.mem_filter.1 hthing).2, ?_⟩
  exact List.rel_filter (fun thing image hR => iff_of_eq (congrArg (· = true) (hsame thing image hR).symm)) h

/-- Things that correspond one by one do so with their indices. -/
theorem forall₂_getElem? {things : List α} {images : List β} (h : List.Forall₂ R things images) :
    List.Forall₂ (fun thing image =>
      R thing image ∧ ∃ index : Nat, things[index]? = some thing ∧ images[index]? = some image)
      things images := by
  obtain ⟨hlength, hget⟩ := List.forall₂_iff_get.1 h
  refine List.forall₂_iff_get.2 ⟨hlength, fun index hindex hindex' => ⟨hget _ _ _, index, ?_, ?_⟩⟩
  · exact List.getElem?_eq_getElem hindex
  · exact List.getElem?_eq_getElem hindex'

end

namespace Compile

variable {ρ : String → String} {source text : String}

/-- Findings that match are merged in the same order. -/
theorem mergeFindings_matches {lexical lexical' faults faults' : List Finding}
    (hlexical : List.Forall₂ (Finding.Matches ρ source text) lexical lexical')
    (hfaults : List.Forall₂ (Finding.Matches ρ source text) faults faults') :
    List.Forall₂ (Finding.Matches ρ source text) (mergeFindings lexical faults)
      (mergeFindings lexical' faults') := by
  induction hfaults generalizing lexical lexical' with
  | nil => exact hlexical
  | @cons fault fault' _ _ hfault _ ih =>
      have hsame : ∀ finding image, Finding.Matches ρ source text finding image →
          decide (image.reached < fault'.reached) = decide (finding.reached < fault.reached) := by
        intro finding image hmatch
        exact decide_eq_decide.2 (hmatch.reached.lt_iff hfault.reached).symm
      rw [mergeFindings, mergeFindings]
      exact List.rel_append (forall₂_takeWhile hlexical hsame)
        (.cons hfault (ih (forall₂_dropWhile hlexical hsame)))

end Compile

/-! ### Two source texts -/

/-- Corresponding tokens of two source texts before the end of input. -/
structure Token.Paired (ρ : String → String) (source text : String) (token image : Token) :
    Prop where
  renamed : token.Renamed ρ image
  index : ∃ index : Nat, (Lexer.tokens source)[index]? = some token ∧
    (Lexer.tokens text)[index]? = some image
  kind_ne : token.kind ≠ .endOfInput

theorem spelled_of_mem_tokens {source : String} {token : Token} (h : token ∈ Lexer.tokens source)
    (hkind : token.kind ≠ .endOfInput) : token.Spelled := by
  rw [tokens_eq] at h
  rcases List.mem_append.1 h with h | h
  · exact (mem_scan h).1
  · rw [List.mem_singleton.1 h] at hkind
    exact absurd rfl hkind

/-- Two source texts are read in lockstep, each token with the one of the same index. -/
def Builder.mirror {ρ : String → String} (hρ : Function.Injective ρ) (source text : String) :
    Mirror Builder.meaning where
  names := ρ
  like := Token.Paired ρ source text
  move := Builder.rename ρ
  blame := Refusal.rename ρ
  renamed h := h.renamed
  spelled := by
    rintro token image ⟨hrenamed, ⟨index, htoken, himage⟩, hkind⟩
    exact ⟨spelled_of_mem_tokens (List.mem_of_getElem? htoken) hkind,
      spelled_of_mem_tokens (List.mem_of_getElem? himage) (hrenamed.kind_eq ▸ hkind)⟩
  act := Builder.act_rename hρ
  undo := Builder.rename_undo

section

variable {ρ : String → String} (hρ : Function.Injective ρ) {source text : String}
  (h : List.Forall₂ (Token.Renamed ρ) (Lexer.tokens source) (Lexer.tokens text))

namespace Compile

include h

theorem samePlace_offsetOf {token image : Option Token}
    (hpaired : Option.Rel (Token.Paired ρ source text) token image) :
    SamePlace source text (offsetOf (utf8Bytes source.toList) token)
      (offsetOf (utf8Bytes text.toList) image) := by
  cases hpaired with
  | some hpaired =>
      obtain ⟨index, htoken, himage⟩ := hpaired.index
      exact ⟨index, _, _, htoken, himage, rfl, rfl⟩
  | none =>
      have hlength := h.length_eq
      rw [tokens_eq, tokens_eq, List.length_append, List.length_append] at hlength
      refine ⟨(scan 0 source.toList).length, ⟨.endOfInput, "", _⟩, ⟨.endOfInput, "", _⟩, ?_, ?_, rfl,
        rfl⟩
      · rw [tokens_eq, List.getElem?_concat_length]
      · rw [tokens_eq, Nat.add_right_cancel hlength, List.getElem?_concat_length]

theorem lexicalFindings_matches :
    List.Forall₂ (Finding.Matches ρ source text)
      (lexicalFindings (utf8Bytes source.toList) (Lexer.tokens source))
      (lexicalFindings (utf8Bytes text.toList) (Lexer.tokens text)) := by
  have hfilter : List.Forall₂ _ ((Lexer.tokens source).filter (·.kind = .invalid))
      ((Lexer.tokens text).filter (·.kind = .invalid)) :=
    forall₂_filter (forall₂_getElem? h) fun token image hlike => by rw [hlike.1.kind_eq]
  refine List.rel_map (fun token image hlike => ?_) hfilter
  obtain ⟨hinvalid, hrenamed, index, htoken, himage⟩ := hlike
  have hplace : SamePlace source text token.offset image.offset :=
    ⟨index, token, image, htoken, himage, rfl, rfl⟩
  have htext : image.text = token.text :=
    hrenamed.literal (Or.inr (of_decide_eq_true hinvalid))
  refine ⟨hplace, rfl, hplace, fun _ => ?_⟩
  change Token.invalidMessage ++ " '" ++ image.text ++ "'" = _
  rw [htext]
  rfl

theorem significant_paired :
    List.Forall₂ (Token.Paired ρ source text) (significant (Lexer.tokens source))
      (significant (Lexer.tokens text)) := by
  have hfilter : List.Forall₂ _ (significant (Lexer.tokens source))
      (significant (Lexer.tokens text)) :=
    forall₂_filter (forall₂_getElem? h) fun token image hlike => by rw [hlike.1.kind_eq]
  refine hfilter.imp fun token image hlike => ?_
  obtain ⟨hkind, hrenamed, hindex⟩ := hlike
  exact ⟨hrenamed, hindex, by simpa using (Bool.and_eq_true_iff.1 hkind).2⟩

include hρ

/-- The declarations of both texts stop in the same places, and lead to builders that differ in names
only. -/
theorem declarationsOf_mirror :
    List.Forall₂ (Builder.mirror hρ source text).Stops (declarationsOf source).1
        (declarationsOf text).1 ∧
      (declarationsOf text).2.state = (declarationsOf source).2.state.rename ρ := by
  have hstart : (Builder.mirror hρ source text).Shows (start (Lexer.tokens source))
      (start (Lexer.tokens text)) := ⟨significant_paired h, rfl, rfl⟩
  obtain ⟨hstops, hlast⟩ := (Builder.mirror hρ source text).declarations (maxDepth + 1) hstart
  exact ⟨hstops, hlast.state⟩

/-- Stops in the same places give findings that match. -/
theorem faultFinding_matches {stop image : Stop Refusal}
    (hstop : (Builder.mirror hρ source text).Stops stop image) {finding : Finding}
    (hfinding : faultFinding (utf8Bytes source.toList) stop = .ok finding) :
    ∃ finding', faultFinding (utf8Bytes text.toList) image = .ok finding' ∧
      finding.Matches ρ source text finding' := by
  obtain ⟨⟨cause, token⟩, next⟩ := stop
  obtain ⟨⟨cause', token'⟩, next'⟩ := image
  obtain ⟨⟨hcause, htoken⟩, hnext⟩ := hstop
  have hreached := samePlace_offsetOf h hnext
  have hplace := samePlace_offsetOf h htoken
  dsimp only at hcause htoken hnext hreached hplace
  subst hcause
  cases cause with
  | malformed error =>
      cases hfinding
      exact ⟨_, rfl, hreached, rfl, hplace, fun _ => rfl⟩
  | refused refusal =>
      cases hcategory : refusal.category? with
      | none =>
          rw [faultFinding, diagnosticOf] at hfinding
          simp only [hcategory] at hfinding
          cases hfinding
      | some category =>
          have hcategory' : (refusal.rename ρ).category? = some category :=
            refusal.category?_rename.trans hcategory
          rw [faultFinding_refused hcategory] at hfinding
          cases hfinding
          refine ⟨_, faultFinding_refused hcategory' _ token' next', hreached, rfl, hplace,
            fun hkept => ?_⟩
          change (refusal.rename ρ).message = refusal.message
          rw [refusal.rename_of_kept hkept]
  | exhausted => cases hfinding

theorem mapM_faultFinding_matches {stops images : List (Stop Refusal)}
    (hstops : List.Forall₂ (Builder.mirror hρ source text).Stops stops images)
    {faults : List Finding}
    (hfaults : stops.mapM (faultFinding (utf8Bytes source.toList)) = .ok faults) :
    ∃ faults', images.mapM (faultFinding (utf8Bytes text.toList)) = .ok faults' ∧
      List.Forall₂ (Finding.Matches ρ source text) faults faults' := by
  induction hstops generalizing faults with
  | nil =>
      cases hfaults
      exact ⟨[], rfl, .nil⟩
  | cons hstop _ ih =>
      obtain ⟨finding, rest, hfinding, hrest, rfl⟩ := mapM_cons_ok.1 hfaults
      obtain ⟨finding', hfinding', hmatch⟩ := faultFinding_matches hρ h hstop hfinding
      obtain ⟨rest', hrest', hmatches⟩ := ih hrest
      exact ⟨finding' :: rest', mapM_cons_ok.2 ⟨_, _, hfinding', hrest', rfl⟩, .cons hmatch hmatches⟩

end Compile

include hρ h

/-- If the tokens of two source texts correspond, then both compile, to graphs that differ in names
only, or both are rejected, and their diagnostics match. -/
theorem compile_matches :
    (∃ graph, compile source = .ok graph ∧ compile text = .ok (graph.rename ρ)) ∨
      ∃ diagnostics images, compile source = .error (.rejected diagnostics) ∧
        compile text = .error (.rejected images) ∧
          List.Forall₂ (Diagnostic.Matches ρ source text) diagnostics images := by
  obtain ⟨hstops, hstate⟩ := Compile.declarationsOf_mirror hρ h
  have hlexical := Compile.lexicalFindings_matches h
  rcases compile_cases source with ⟨graph, hok⟩ | ⟨-, hrejected⟩
  · obtain ⟨hvalid, last, hread, hfinish⟩ := compile_ok_iff_declarations.1 hok
    obtain ⟨hnone, rfl⟩ : (declarationsOf source).1 = [] ∧ (declarationsOf source).2 = last :=
      Prod.mk.inj hread
    rw [Compile.lexicalFindings_eq_nil.2 hvalid, List.forall₂_nil_left_iff,
      Compile.lexicalFindings_eq_nil] at hlexical
    rw [hnone, List.forall₂_nil_left_iff] at hstops
    refine Or.inl ⟨graph, hok, compile_ok_iff_declarations.2 ⟨hlexical, _, Prod.ext hstops rfl, ?_⟩⟩
    change (declarationsOf text).2.state.finish = _
    rw [hstate]
    exact Builder.finish_rename hfinish
  · obtain ⟨hne, faults, hfaults, hdiagnostics⟩ := (compile_rejected_iff rfl).1 hrejected
    obtain ⟨faults', hfaults', hmatches⟩ := Compile.mapM_faultFinding_matches hρ h hstops hfaults
    have hfindings := Compile.mergeFindings_matches hlexical hmatches
    refine Or.inr ⟨_, _, hrejected, (compile_rejected_iff rfl).2 ⟨?_, faults', hfaults', rfl⟩, ?_⟩
    · rw [hdiagnostics] at hne
      intro hnil
      rw [List.map_eq_nil_iff] at hnil
      rw [hnil, List.forall₂_nil_right_iff] at hfindings
      exact hne (List.map_eq_nil_iff.2 hfindings)
    · rw [hdiagnostics]
      exact List.rel_map (fun finding image hmatch => hmatch.diagnostic) hfindings

end

/-- Diagnostics that match point at tokens with the same index. -/
theorem Diagnostic.Matches.tokenIndex? {ρ : String → String} {source text : String}
    {diagnostic image : Diagnostic} (h : diagnostic.Matches ρ source text image) :
    ∃ index, diagnostic.tokenIndex? source = some index ∧ image.tokenIndex? text = some index := by
  obtain ⟨index, token, other, htoken, hother, hoffset, hoffset'⟩ := h.place
  refine ⟨index, ?_, ?_⟩
  · rw [Diagnostic.tokenIndex?, ← hoffset, SamePlace.findIdx?_eq htoken]
  · rw [Diagnostic.tokenIndex?, ← hoffset', SamePlace.findIdx?_eq hother]

/-! ### Layout, comments and synonyms -/

/-- The kinds of token whose text matters: names, literals and characters that start no token. -/
def Token.Kind.hasText : Token.Kind → Bool
  | .identifier => true
  | .cardinal => true
  | .invalid => true
  | .leftParen => false
  | .rightParen => false
  | .endOfInput => false
  | .reserved _ => false

/-- Two tokens of the same kind, and with the same text if it matters. -/
structure Token.Alike (token other : Token) : Prop where
  kind_eq : other.kind = token.kind
  text_eq : token.kind.hasText → other.text = token.text

instance (token other : Token) : Decidable (token.Alike other) :=
  decidable_of_iff (other.kind = token.kind ∧ (token.kind.hasText → other.text = token.text))
    ⟨fun h => ⟨h.1, h.2⟩, fun h => ⟨h.kind_eq, h.text_eq⟩⟩

theorem Token.Alike.renamed {token other : Token} (h : token.Alike other) :
    token.Renamed id other where
  kind_eq := h.kind_eq
  name hkind := h.text_eq (by rw [hkind]; rfl)
  literal := by
    rintro (hkind | hkind)
    · exact h.text_eq (by rw [hkind]; rfl)
    · exact h.text_eq (by rw [hkind]; rfl)

/-- Layout, comments and the choice among the spellings of a reserved word carry no meaning. If the
tokens of two source texts are alike, one by one, then both texts compile to the same graph, or both
are rejected with diagnostics that agree in class, in message and in the index of the token. -/
theorem compile_alike {source text : String}
    (h : List.Forall₂ Token.Alike (Lexer.tokens source) (Lexer.tokens text)) :
    (∃ graph, compile source = .ok graph ∧ compile text = .ok graph) ∨
      ∃ diagnostics others, compile source = .error (.rejected diagnostics) ∧
        compile text = .error (.rejected others) ∧
          List.Forall₂ (fun diagnostic other => other.category = diagnostic.category ∧
            other.message = diagnostic.message ∧
              ∃ index, diagnostic.tokenIndex? source = some index ∧
                other.tokenIndex? text = some index) diagnostics others := by
  have hrenamed : List.Forall₂ (Token.Renamed id) (Lexer.tokens source) (Lexer.tokens text) :=
    h.imp fun _ _ halike => halike.renamed
  rcases compile_matches Function.injective_id hrenamed with
    ⟨graph, hsource, htext⟩ | ⟨diagnostics, others, hsource, htext, hmatches⟩
  · have hkept : ∀ name : String, id name = name := fun _ => rfl
    rw [Graph.rename_of_kept hkept] at htext
    exact Or.inl ⟨graph, hsource, htext⟩
  · refine Or.inr ⟨diagnostics, others, hsource, htext, hmatches.imp fun _ _ hmatch => ?_⟩
    exact ⟨hmatch.category, hmatch.message fun _ => rfl, hmatch.tokenIndex?⟩

theorem compile_alike_synonyms :
    (∃ graph, compile "(entity a (attr b) (pk b))" = .ok graph ∧
      compile "( entity a ; key\n (attribute b)(primary-key b))" = .ok graph) ∧
    ∃ diagnostics others, compile "(entity a (pk b)) ?" = .error (.rejected diagnostics) ∧
      compile "(entity a\n(primary-key\tb))?" = .error (.rejected others) ∧
        List.Forall₂ (fun diagnostic other => other.category = diagnostic.category ∧
          other.message = diagnostic.message ∧
            ∃ index, diagnostic.tokenIndex? "(entity a (pk b)) ?" = some index ∧
              other.tokenIndex? "(entity a\n(primary-key\tb))?" = some index) diagnostics others := by
  constructor
  · have hok : compile "(entity a (attr b) (pk b))" = .ok
        ⟨[⟨.start, 0, "start", [1], none, none⟩, ⟨.entity, 1, "a", [2, 3], none, none⟩,
          ⟨.attribute, 2, "b", [], none, none⟩, ⟨.primaryKey, 3, "3_pk", [2], none, none⟩],
          by decide⟩ := by
      decide +kernel
    refine (compile_alike (by decide +kernel)).resolve_right ?_
    rintro ⟨diagnostics, others, hrejected, -⟩
    rw [hok] at hrejected
    cases hrejected
  · have hrejected : compile "(entity a (pk b)) ?" = .error (.rejected
        [⟨.unresolvedReference, 14, ⟨1, 15⟩, .token "b", "unresolved reference to Attr 'b'"⟩,
          ⟨.lexical, 18, ⟨1, 19⟩, .nothing, "unexpected character '?'"⟩]) := by
      decide +kernel
    refine (compile_alike (by decide +kernel)).resolve_left ?_
    rintro ⟨graph, hok, -⟩
    rw [hrejected] at hok
    cases hok

end ErDiagram
