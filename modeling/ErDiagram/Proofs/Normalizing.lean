import ErDiagram.Proofs.Literals
import ErDiagram.Proofs.Restoring

/-!
Normal forms of cardinalities. A cardinality is read from every pair of bounds, a bound may be written
in many ways, and printing picks one of them: a capital `N`, and no leading zeros. So what is read and
printed again is the text in its normal form, and whatever is no pair of bounds is refused as a whole.
-/

namespace ErDiagram

/-! ### Numbers without leading zeros -/

/-- A text without the zeros that its numbers begin with: a zero goes if a digit stands behind it and
none in front of it. `inNumber` says whether one stands in front of the text. -/
def dropLeadingZeros (inNumber : Bool) : List Char → List Char
  | [] => []
  | c :: rest =>
    if !inNumber && c = '0' && rest.head?.any Char.isDigit then dropLeadingZeros false rest
    else c :: dropLeadingZeros c.isDigit rest

/-- Inside a number, no zero is a leading one. -/
theorem dropLeadingZeros_of_digits {text : List Char} (h : ∀ c ∈ text, c.isDigit) :
    dropLeadingZeros true text = text := by
  induction text with
  | nil => rfl
  | cons c rest ih =>
      obtain ⟨hc, hrest⟩ := List.forall_mem_cons.1 h
      rw [dropLeadingZeros, if_neg (by simp), hc, ih hrest]

/-- What is no digit parts the numbers in front of it from those behind it. -/
theorem dropLeadingZeros_append_cons (inNumber : Bool) (front back : List Char) {c : Char}
    (h : c.isDigit = false) : dropLeadingZeros inNumber (front ++ c :: back) =
      dropLeadingZeros inNumber front ++ c :: dropLeadingZeros false back := by
  induction front generalizing inNumber with
  | nil =>
      have hzero : c ≠ '0' := by
        rintro rfl
        cases h
      change dropLeadingZeros inNumber (c :: back) = c :: dropLeadingZeros false back
      rw [dropLeadingZeros, if_neg (by simp [hzero]), h]
  | cons d front ih =>
      have hhead : (front ++ c :: back).head?.any Char.isDigit = front.head?.any Char.isDigit := by
        cases front with
        | nil => simp [h]
        | cons e front => rfl
      rw [List.cons_append, dropLeadingZeros, dropLeadingZeros, hhead]
      split
      · exact ih false
      · rw [ih, List.cons_append]

theorem digitValue_lt {c : Char} (h : c.isDigit) : c.toNat - '0'.toNat < 10 := by
  have hhigh := (Char.isDigit_iff_toNat.1 h).2
  have hzero : '0'.toNat = 48 := rfl
  have hnine : '9'.toNat = 57 := rfl
  omega

theorem digitChar_of_isDigit {c : Char} (h : c.isDigit) : Nat.digitChar (c.toNat - '0'.toNat) = c := by
  have hlow := (Char.isDigit_iff_toNat.1 h).1
  have hzero : '0'.toNat = 48 := rfl
  apply Char.toNat_inj.1
  rw [Nat.toNat_digitChar_of_lt_ten (digitValue_lt h)]
  omega

/-- Digits behind the digits of a number go on with it. -/
theorem toDigits_ofDigitChars {n : Nat} (hn : 0 < n) {text : List Char} (h : ∀ c ∈ text, c.isDigit) :
    Nat.toDigits 10 (Nat.ofDigitChars 10 text n) = Nat.toDigits 10 n ++ text := by
  induction text generalizing n with
  | nil => simp
  | cons c rest ih =>
      obtain ⟨hc, hrest⟩ := List.forall_mem_cons.1 h
      have hdigit := digitValue_lt hc
      have hnext : Nat.toDigits 10 (10 * n + (c.toNat - '0'.toNat)) = Nat.toDigits 10 n ++ [c] := by
        rw [← Nat.toDigits_append_toDigits (by decide) hn hdigit, Nat.toDigits_of_lt_base hdigit,
          digitChar_of_isDigit hc]
      rw [Nat.ofDigitChars_cons, ih (by omega) hrest, hnext, List.append_assoc, List.singleton_append]

/-- The digits of a number are those that it is read from, less the leading zeros. -/
theorem toDigits_numberOf {text : List Char} (hne : text ≠ []) (h : ∀ c ∈ text, c.isDigit) :
    Nat.toDigits 10 (numberOf text) = dropLeadingZeros false text := by
  induction text with
  | nil => exact absurd rfl hne
  | cons c rest ih =>
      obtain ⟨hc, hrest⟩ := List.forall_mem_cons.1 h
      have hnumber : numberOf (c :: rest) = Nat.ofDigitChars 10 rest (c.toNat - '0'.toNat) := by
        rw [numberOf, Nat.ofDigitChars_cons, Nat.mul_zero, Nat.zero_add]
      rw [dropLeadingZeros]
      split
      · -- a leading zero, with the rest of the number behind it
        rename_i hleading
        simp only [Bool.not_false, Bool.true_and, Bool.and_eq_true, decide_eq_true_eq] at hleading
        obtain ⟨rfl, hdigit⟩ := hleading
        have hrestne : rest ≠ [] := by
          rintro rfl
          cases hdigit
        exact hnumber ▸ ih hrestne hrest
      · rename_i hleading
        rw [hc, dropLeadingZeros_of_digits hrest, hnumber]
        by_cases hc0 : c = '0'
        · -- a zero on its own
          have hnil : rest = [] := by
            cases rest with
            | nil => rfl
            | cons d rest =>
                have hd := hrest d List.mem_cons_self
                simp [hc0, hd] at hleading
          rw [hnil, hc0]
          rfl
        · have hpos : 0 < c.toNat - '0'.toNat := by
            have hlow := (Char.isDigit_iff_toNat.1 hc).1
            have hne : c.toNat ≠ '0'.toNat := fun heq => hc0 (Char.toNat_inj.1 heq)
            omega
          rw [toDigits_ofDigitChars hpos hrest, Nat.toDigits_of_lt_base (digitValue_lt hc),
            digitChar_of_isDigit hc, List.singleton_append]

/-! ### Normal forms -/

def capitalMany (c : Char) : Char :=
  if c = 'n' then 'N' else c

/-- The characters of a text with a capital for each `n`, and without leading zeros. -/
def normalChars (text : List Char) : List Char :=
  dropLeadingZeros false (text.map capitalMany)

def normalForm (text : String) : String :=
  String.ofList (normalChars text.toList)

/-- The texts that write a bound: `n` or `N`, or digits, at least one, of a number that fits a word. -/
def WritesBound (text : List Char) : Prop :=
  text = ['n'] ∨ text = ['N'] ∨
    text ≠ [] ∧ (∀ c ∈ text, c.isDigit) ∧ numberOf text ≤ 4294967295

/-- The texts that write a cardinality: two of those, joined by a colon. -/
def WritesCardinality (text : String) : Prop :=
  ∃ lower upper, text.toList = lower ++ ':' :: upper ∧ WritesBound lower ∧ WritesBound upper

theorem writesBound_iff {text : List Char} :
    WritesBound text ↔ ∃ bound : Bound, bound.WrittenAs text := by
  constructor
  · rintro (hletter | hletter | ⟨hne, hdigits, hfits⟩)
    · exact ⟨.many, Or.inl hletter⟩
    · exact ⟨.many, Or.inr hletter⟩
    · have hlt : numberOf text < UInt32.size := Nat.lt_succ_of_le hfits
      exact ⟨.count (numberOf text).toUInt32, hne, hdigits, (UInt32.toNat_ofNat_of_lt' hlt).symm⟩
  · rintro ⟨bound, hbound⟩
    cases bound with
    | many => exact hbound.imp_right Or.inl
    | count n =>
        obtain ⟨hne, hdigits, hvalue⟩ := hbound
        have hfits : numberOf text ≤ 4294967295 := by
          rw [numberOf, hvalue]
          exact Nat.le_of_lt_succ n.toNat_lt
        exact Or.inr (Or.inr ⟨hne, hdigits, hfits⟩)

theorem map_capitalMany_of_digits {text : List Char} (h : ∀ c ∈ text, c.isDigit) :
    text.map capitalMany = text := by
  calc text.map capitalMany = text.map id :=
        List.map_congr_left fun c hc => if_neg (ne_of_isDigit (h c hc) rfl)
    _ = text := List.map_id text

/-- A bound is printed as the normal form of whatever writes it. -/
theorem Bound.WrittenAs.toList_text {bound : Bound} {text : List Char} (h : bound.WrittenAs text) :
    bound.text.toList = normalChars text := by
  cases bound with
  | many => rcases h with rfl | rfl <;> rfl
  | count n =>
      obtain ⟨hne, hdigits, hvalue⟩ := h
      rw [normalChars, map_capitalMany_of_digits hdigits, ← toDigits_numberOf hne hdigits,
        Bound.text, Nat.toList_repr, numberOf, hvalue]

theorem normalChars_pair (lower upper : List Char) :
    normalChars (lower ++ ':' :: upper) = normalChars lower ++ ':' :: normalChars upper := by
  have hcolon : capitalMany ':' = ':' := rfl
  rw [normalChars, List.map_append, List.map_cons, hcolon]
  exact dropLeadingZeros_append_cons false _ _ rfl

namespace Cardinality

/-- What is read and printed is the normal form of what was read. -/
theorem text_of_ofString {text : String} {cardinality : Cardinality}
    (h : ofString text = .ok cardinality) : cardinality.text = normalForm text := by
  obtain ⟨lower, upper, htext, hmin, hmax⟩ := ofString_iff.1 h
  apply String.toList_inj.1
  rw [normalForm, String.toList_ofList, htext, normalChars_pair, ← hmin.toList_text,
    ← hmax.toList_text]
  simp [Cardinality.text]

theorem writesCardinality_iff {text : String} :
    (∃ cardinality, ofString text = .ok cardinality) ↔ WritesCardinality text := by
  simp only [ofString_iff, WritesCardinality, writesBound_iff]
  constructor
  · rintro ⟨cardinality, lower, upper, htext, hmin, hmax⟩
    exact ⟨lower, upper, htext, ⟨_, hmin⟩, _, hmax⟩
  · rintro ⟨lower, upper, htext, ⟨min, hmin⟩, max, hmax⟩
    exact ⟨⟨min, max⟩, lower, upper, htext, hmin, hmax⟩

/-- What is not read is refused as a whole. -/
theorem ofString_of_forall_ne {text : String}
    (h : ¬∃ cardinality, ofString text = .ok cardinality) : ofString text = .error ⟨text⟩ := by
  unfold ofString at h ⊢
  split
  · rename_i cardinality hread
    exact absurd ⟨cardinality, by rw [hread]⟩ h
  · rfl

/-- How cardinalities are printed and read. -/
structure Codec : Prop where
  /-- What is printed is read back. -/
  reads_text : ∀ cardinality : Cardinality, ofString cardinality.text = .ok cardinality
  /-- Just what joins two bounds by a colon is read. -/
  reads_iff : ∀ text, (∃ cardinality, ofString text = .ok cardinality) ↔ WritesCardinality text
  /-- It is printed again in its normal form. -/
  prints : ∀ text cardinality, ofString text = .ok cardinality → cardinality.text = normalForm text
  /-- The normal form is read as the same cardinality, so that printing it again changes nothing. -/
  again : ∀ text cardinality, ofString text = .ok cardinality →
    ofString (normalForm text) = .ok cardinality ∧ normalForm (normalForm text) = normalForm text
  /-- Everything else is refused, and the error has the whole of it. -/
  refuses : ∀ text, ¬WritesCardinality text → ofString text = .error ⟨text⟩

/-- Every cardinality is read back from its text, and every other text of it is printed in the normal
form. -/
theorem codec : Codec where
  reads_text := ofString_text
  reads_iff _ := writesCardinality_iff
  prints _ _ := text_of_ofString
  again text cardinality h := by
    have hread : ofString (normalForm text) = .ok cardinality :=
      text_of_ofString h ▸ cardinality.ofString_text
    exact ⟨hread, (text_of_ofString hread).symm.trans (text_of_ofString h)⟩
  refuses _ h := ofString_of_forall_ne (mt writesCardinality_iff.1 h)

/-- The largest number that fits a word, behind zeros, and the number behind it. -/
example : ofString "n:0004294967295" = .ok ⟨.many, .count 4294967295⟩ ∧
    normalForm "n:0004294967295" = "N:4294967295" ∧
    ofString "n:4294967296" = .error ⟨"n:4294967296"⟩ := by
  decide +kernel

end Cardinality
end ErDiagram
