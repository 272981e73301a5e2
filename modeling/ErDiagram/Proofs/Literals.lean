import ErDiagram.Proofs.Compiling
import ErDiagram.Proofs.Isolation
import ErDiagram.Proofs.Respelling

/-!
Literals and what they decode to. Whatever is read as a bound or as a cardinality is one literal to
the lexer, and a literal that the lexer cuts can be read as the one or the other, unless it has a
number in it that does not fit a word.
-/

namespace ErDiagram

/-- A literal decodes: as a cardinality if it has a colon, and as a bound if it has none. -/
def Token.Decodes (literal : Token) : Prop :=
  if ':' ∈ literal.text.toList then ∃ cardinality, Cardinality.ofString literal.text = .ok cardinality
  else ∃ bound, Bound.ofString literal.text = .ok bound

/-- The longest runs of digits in a text. -/
def digitRuns (text : List Char) : List (List Char) :=
  (text.splitOnP fun c => !c.isDigit).filter (· ≠ [])

def numberOf (digits : List Char) : Nat :=
  Nat.ofDigitChars 10 digits 0

/-- Every number in a text fits a word. -/
def FitsWords (text : List Char) : Prop :=
  ∀ run ∈ digitRuns text, numberOf run < UInt32.size

/-! ### Numbers in a literal -/

theorem digitRuns_append_cons (front back : List Char) {c : Char} (h : c.isDigit = false) :
    digitRuns (front ++ c :: back) = digitRuns front ++ digitRuns back := by
  unfold digitRuns
  rw [List.splitOnP_append_cons _ _ (by simpa using h), List.filter_append]

theorem digitRuns_digits {text : List Char} (hne : text ≠ []) (h : ∀ c ∈ text, c.isDigit) :
    digitRuns text = [text] := by
  unfold digitRuns
  rw [List.splitOnP_eq_singleton fun c hc => by simp [h c hc]]
  simp [hne]

theorem fitsWords_append_cons {front back : List Char} {c : Char} (h : c.isDigit = false) :
    FitsWords (front ++ c :: back) ↔ FitsWords front ∧ FitsWords back := by
  unfold FitsWords
  rw [digitRuns_append_cons front back h, List.forall_mem_append]

theorem fitsWords_letter {c : Char} (h : c.isDigit = false) : FitsWords [c] := by
  have hnil : FitsWords [] := by simp [FitsWords, digitRuns]
  exact (@fitsWords_append_cons [] [] c h).2 ⟨hnil, hnil⟩

/-- A text of the form of a bound writes one, unless it is a number that does not fit a word. -/
theorem exists_bound_iff {text : List Char} (h : IsBound text) :
    (∃ bound : Bound, bound.WrittenAs text) ↔ FitsWords text := by
  rcases h with rfl | rfl | ⟨hne, hdigits⟩
  · exact ⟨fun _ => fitsWords_letter (by decide), fun _ => ⟨.many, Or.inl rfl⟩⟩
  · exact ⟨fun _ => fitsWords_letter (by decide), fun _ => ⟨.many, Or.inr rfl⟩⟩
  · rw [FitsWords, digitRuns_digits hne hdigits, List.forall_mem_singleton]
    constructor
    · rintro ⟨bound, hbound⟩
      cases bound with
      | many => rcases hbound with rfl | rfl <;> exact absurd (hdigits _ List.mem_cons_self) (by decide)
      | count n =>
          calc numberOf text = n.toNat := hbound.2.2
            _ < UInt32.size := n.toNat_lt
    · intro hfits
      exact ⟨.count (numberOf text).toUInt32, hne, hdigits, (UInt32.toNat_ofNat_of_lt' hfits).symm⟩

/-- A pair decodes as its bounds do. -/
theorem Cardinality.ofString_pair {text : String} {lower upper : List Char} (hlower : IsBound lower)
    (htext : text.toList = lower ++ ':' :: upper) {cardinality : Cardinality} :
    Cardinality.ofString text = .ok cardinality ↔
      cardinality.min.WrittenAs lower ∧ cardinality.max.WrittenAs upper := by
  rw [Cardinality.ofString_iff]
  constructor
  · rintro ⟨lower', upper', htext', hmin, hmax⟩
    obtain ⟨rfl, rfl⟩ := append_stop_inj hlower.not_mem_colon hmin.isBound.not_mem_colon
      (htext.symm.trans htext')
    exact ⟨hmin, hmax⟩
  · exact fun ⟨hmin, hmax⟩ => ⟨lower, upper, htext, hmin, hmax⟩

/-- A literal decodes exactly if every number in it fits a word. -/
theorem Token.decodes_iff {literal : Token} (h : IsCardinal literal.text.toList) :
    literal.Decodes ↔ FitsWords literal.text.toList := by
  rcases h with hbound | ⟨lower, upper, htext, hlower, hupper⟩
  · rw [Decodes, if_neg hbound.not_mem_colon, ← exists_bound_iff hbound]
    exact exists_congr fun bound => Bound.ofString_iff
  · have hcolon : ':' ∈ literal.text.toList := by simp [htext]
    rw [Decodes, if_pos hcolon, htext, fitsWords_append_cons (by decide), ← exists_bound_iff hlower,
      ← exists_bound_iff hupper]
    simp only [Cardinality.ofString_pair hlower htext]
    constructor
    · exact fun ⟨cardinality, hmin, hmax⟩ => ⟨⟨_, hmin⟩, _, hmax⟩
    · exact fun ⟨⟨min, hmin⟩, max, hmax⟩ => ⟨⟨min, max⟩, hmin, hmax⟩

/-! ### The lexer's literals -/

/-- A token that is a literal has the form of one. -/
theorem IsToken.isCardinal {text : List Char} (h : IsToken .cardinal text) : IsCardinal text := by
  obtain ⟨c, rest, rfl, hcut⟩ := h
  have hstarts : startsBound (c :: rest) := by
    rw [startsBound_eq_cutToken, hcut]
    rfl
  have hliteral := (isCardinal_cutCardinal hstarts).2
  rw [cutToken_cardinal hstarts] at hcut
  rwa [(Prod.mk.inj hcut).2] at hliteral

theorem isCardinal_of_mem_tokens {source : String} {literal : Token}
    (h : literal ∈ Lexer.tokens source) (hkind : literal.kind = .cardinal) :
    IsCardinal literal.text.toList := by
  rw [tokens_eq, List.mem_append, List.mem_singleton] at h
  rcases h with h | rfl
  · exact (hkind ▸ spelled_scan _ _ literal h : IsToken .cardinal _).isCardinal
  · cases hkind

/-- What is read as a bound or as a cardinality has the form of a literal. -/
theorem isCardinal_of_decoded {text : String}
    (h : (∃ bound, Bound.ofString text = .ok bound) ∨
      ∃ cardinality, Cardinality.ofString text = .ok cardinality) : IsCardinal text.toList := by
  rcases h with ⟨bound, hbound⟩ | ⟨cardinality, hcardinality⟩
  · exact Or.inl (Bound.ofString_iff.1 hbound).isBound
  · obtain ⟨lower, upper, htext, hmin, hmax⟩ := Cardinality.ofString_iff.1 hcardinality
    exact Or.inr ⟨lower, upper, htext, hmin.isBound, hmax.isBound⟩

/-- What has the form of a literal is one token. -/
theorem tokens_of_isCardinal {text : String} (h : IsCardinal text.toList) :
    Lexer.tokens text = [⟨.cardinal, text, 0⟩, ⟨.endOfInput, "", byteLength text⟩] := by
  let literal : Token := ⟨.cardinal, text, 0⟩
  have hlaid : LaidOut none 0 [literal] ([] ++ (text.toList ++ [])) :=
    .next .nil h.isToken rfl (fun _ _ => nofun) (.done .nil)
  have hvalid : ∀ token ∈ [literal], token.kind ≠ .invalid := by simp [literal]
  have hscan := hlaid.scan_eq hvalid
  rw [List.nil_append, List.append_nil] at hscan
  rw [tokens_eq, hscan]
  rfl

end ErDiagram
