import ErDiagram.Json.Reader
import ErDiagram.Proofs.Scanning
import Mathlib.Data.Nat.Digits.Defs
import Mathlib.Tactic.IntervalCases

/-!
What is written as a JSON text spread over lines is read back as the value that was written.
-/

namespace ErDiagram.Json

/-! ### Strings -/

theorem hexValue?_hexDigit (n : Nat) : hexValue? (hexDigit n) = some (n % 16) := by
  have hlt : n % 16 < 16 := Nat.mod_lt _ (by decide)
  rw [hexDigit]
  generalize n % 16 = digit at hlt ⊢
  interval_cases digit <;> rfl

/-- The four digits of a control character give it back. -/
theorem ofHex?_hexDigit {c : Char} (h : c.toNat < 0x20) :
    ofHex? '0' '0' (hexDigit (c.toNat / 16)) (hexDigit c.toNat) = some c := by
  have hzero : hexValue? '0' = some 0 := rfl
  have hcode : 16 * (16 * (16 * 0 + 0) + c.toNat / 16 % 16) + c.toNat % 16 = c.toNat := by omega
  have hvalid : c.toNat.isValidChar := Or.inl (by omega)
  simp only [ofHex?, hzero, hexValue?_hexDigit, Option.bind_eq_bind, Option.bind_some, hcode,
    if_pos hvalid, Char.ofNat_toNat]

section

variable {c : Char} (text : List Char)

theorem readString_plain (hquote : c ≠ '"') (hslash : c ≠ '\\') (hcontrol : ¬c.toNat < 0x20) :
    readString (c :: text) = (readString text).map fun read => (c :: read.1, read.2) := by
  rw [readString, if_neg (not_or.2 ⟨hslash, hcontrol⟩)]
  · cases readString text <;> rfl
  · exact hquote
  · exact fun _ _ _ _ _ h => absurd h hslash
  · exact fun _ _ h => absurd h hslash

theorem readString_escape {letter : Char} (h : ofEscape? letter = some c) :
    readString ('\\' :: letter :: text) = (readString text).map fun read => (c :: read.1, read.2) := by
  have hletter : letter ≠ 'u' := by
    rintro rfl
    cases h
  rw [readString, h]
  · cases readString text <;> rfl
  · exact fun _ _ _ _ _ hu => absurd hu hletter

theorem readString_hex {first second third fourth : Char}
    (h : ofHex? first second third fourth = some c) :
    readString ('\\' :: 'u' :: first :: second :: third :: fourth :: text) =
      (readString text).map fun read => (c :: read.1, read.2) := by
  rw [readString, h]
  cases readString text <;> rfl

/-- A character is read back from how it is written in a string. -/
theorem readString_escapeChar :
    readString (escapeChar c ++ text) = (readString text).map fun read => (c :: read.1, read.2) := by
  unfold escapeChar
  split_ifs with hquote hslash hback htab hline hform hreturn hcontrol
  · exact readString_escape text (by rw [hquote]; rfl)
  · exact readString_escape text (by rw [hslash]; rfl)
  · exact readString_escape text (by rw [hback]; rfl)
  · exact readString_escape text (by rw [htab]; rfl)
  · exact readString_escape text (by rw [hline]; rfl)
  · exact readString_escape text (by rw [hform]; rfl)
  · exact readString_escape text (by rw [hreturn]; rfl)
  · exact readString_hex text (ofHex?_hexDigit hcontrol)
  · exact readString_plain text hquote hslash hcontrol

end

theorem readString_escaped (chars text : List Char) :
    readString (chars.flatMap escapeChar ++ '"' :: text) = some (chars, text) := by
  induction chars with
  | nil => rfl
  | cons c chars ih =>
      rw [List.flatMap_cons, List.append_assoc, readString_escapeChar, ih, Option.map_some]

theorem toList_quote (text : String) :
    (quote text).toList = '"' :: (text.toList.flatMap escapeChar ++ ['"']) := by
  simp [quote]

/-! ### Numbers -/

theorem head?_toDigits {n : Nat} (h : 0 < n) : (Nat.toDigits 10 n).head? ≠ some '0' := by
  induction n using Nat.strong_induction_on with
  | _ n ih =>
  by_cases hlt : n < 10
  · rw [Nat.toDigits_of_lt_base hlt]
    interval_cases n <;> decide
  · have hhead := ih (n / 10) (by omega) (by omega)
    have hsome : (Nat.toDigits 10 (n / 10)).head?.isSome :=
      List.isSome_head?.2 Nat.toDigits_ne_nil
    rwa [Nat.toDigits_of_base_le (by decide) (by omega), List.head?_append,
      Option.or_of_isSome hsome]

/-- A number is read up to the first character that is no digit. -/
theorem readNumber_repr (n : Nat) {rest : List Char} (h : ∀ c ∈ rest.head?, c.isDigit = false) :
    readNumber (n.repr.toList ++ rest) = some (n, rest) := by
  have hdigits : ∀ c ∈ Nat.toDigits 10 n, c.isDigit := fun c hc =>
    isDigit_of_mem_repr (Nat.toList_repr ▸ hc)
  have hzero : ¬((Nat.toDigits 10 n).head? = some '0' ∧ Nat.toDigits 10 n ≠ ['0']) := by
    rintro ⟨hhead, hne⟩
    rcases Nat.eq_zero_or_pos n with rfl | hpos
    · exact hne rfl
    · exact head?_toDigits hpos hhead
  rw [Nat.toList_repr, readNumber, takeWhile_append_of_head h, dropWhile_append_of_head h,
    List.takeWhile_eq_self_iff.2 hdigits, List.dropWhile_eq_nil_iff.2 hdigits, List.nil_append,
    if_neg (not_or.2 ⟨Nat.toDigits_ne_nil, hzero⟩), Nat.ofDigitChars_ten_toDigits]

/-! ### Parts between brackets -/

section

variable {α : Type}

/-- A text starts like a value, so that a reader does not take it for a closing bracket. -/
def StartsValue (text : List Char) : Prop :=
  ∃ c ∈ text.head?, isSpace c = false ∧ c ≠ ']' ∧ c ≠ '\x7d'

/-- What is read from a text does not depend on what stands behind it, if that is no digit. -/
structure ReadsAs (read : List Char → Option (α × List Char)) (text : List Char) (value : α) : Prop where
  starts : StartsValue text
  reads : ∀ rest, (∀ c ∈ rest.head?, c.isDigit = false) → read (text ++ rest) = some (value, rest)

theorem skipSpace_append {gap : List Char} (hgap : ∀ c ∈ gap, isSpace c) (text : List Char) :
    skipSpace (gap ++ text) = skipSpace text :=
  List.dropWhile_append_of_pos hgap

theorem StartsValue.skipSpace {text : List Char} (h : StartsValue text) (rest : List Char) :
    skipSpace (text ++ rest) = text ++ rest := by
  obtain ⟨c, hc, hspace, -⟩ := h
  cases text with
  | nil => cases hc
  | cons d text =>
      cases hc
      rw [Json.skipSpace, List.cons_append, List.dropWhile_cons_of_neg (by simp [hspace])]

def Closes (c : Char) : Prop :=
  c = ']' ∨ c = '\x7d'

theorem Closes.skipSpace {closing : Char} (h : Closes closing) (rest : List Char) :
    skipSpace (closing :: rest) = closing :: rest := by
  rcases h with rfl | rfl <;> rfl

theorem isDigit_head?_gap {gap : List Char} (hgap : ∀ c ∈ gap, isSpace c) {c : Char}
    (hc : c.isDigit = false) (rest : List Char) :
    ∀ d ∈ (gap ++ c :: rest).head?, d.isDigit = false := by
  intro d hd
  cases gap with
  | nil =>
      cases hd
      exact hc
  | cons first gap =>
      cases hd
      have hspace := hgap d List.mem_cons_self
      simp only [isSpace, Bool.or_eq_true, decide_eq_true_eq] at hspace
      rcases hspace with ((rfl | rfl) | rfl) | rfl <;> rfl

variable {read : List Char → Option (α × List Char)} {closing : Char} {gap gap' : List Char}

/-- Parts that are read back one by one are read back with commas and white space between them. -/
theorem readParts_intercalate (hclosing : Closes closing) (hgap : ∀ c ∈ gap, isSpace c)
    (hgap' : ∀ c ∈ gap', isSpace c) (write : α → List Char) {first : α} {parts : List α}
    (h : ∀ part ∈ first :: parts, ReadsAs read (write part) part) {budget : Nat}
    (hbudget : parts.length < budget) (rest : List Char) :
    readParts closing read budget
        (gap ++ ((',' :: gap).intercalate ((first :: parts).map write) ++ (gap' ++ closing :: rest))) =
      some (first :: parts, rest) := by
  have hnone : closing.isDigit = false := by
    rcases hclosing with rfl | rfl <;> rfl
  have hcomma : ',' ≠ closing := by
    rcases hclosing with rfl | rfl <;> decide
  induction parts generalizing first budget with
  | nil =>
      obtain ⟨budget, rfl⟩ := Nat.exists_eq_add_one_of_ne_zero (Nat.ne_zero_of_lt hbudget)
      have hfirst := h first List.mem_cons_self
      rw [List.map_singleton, List.intercalate_singleton, readParts, skipSpace_append hgap,
        hfirst.starts.skipSpace, hfirst.reads _ (isDigit_head?_gap hgap' hnone rest)]
      simp only [Option.bind_eq_bind, Option.bind_some]
      rw [skipSpace_append hgap', hclosing.skipSpace]
      simp only [if_true]
  | cons second parts ih =>
      obtain ⟨budget, rfl⟩ := Nat.exists_eq_add_one_of_ne_zero (Nat.ne_zero_of_lt hbudget)
      obtain ⟨hfirst, hparts⟩ := List.forall_mem_cons.1 h
      have hrest := ih hparts (Nat.lt_of_succ_lt_succ hbudget)
      rw [List.map_cons, List.map_cons, List.intercalate_cons_cons, readParts, skipSpace_append hgap,
        List.append_assoc, List.append_assoc, hfirst.starts.skipSpace,
        hfirst.reads _ (by rintro c ⟨⟩; rfl)]
      simp only [Option.bind_eq_bind, Option.bind_some]
      rw [List.cons_append, show skipSpace (',' :: _) = ',' :: _ from rfl]
      simp only [if_neg hcomma, if_true]
      rw [← List.map_cons, hrest, Option.bind_some]

theorem exists_intercalate_cons (separator first : List Char) (rest : List (List Char)) :
    ∃ more, separator.intercalate (first :: rest) = first ++ more := by
  cases rest with
  | nil => exact ⟨[], by rw [List.intercalate_singleton, List.append_nil]⟩
  | cons second rest => exact ⟨_, by rw [List.intercalate_cons_cons, List.append_assoc]⟩

/-- So they are when a bracket has been read in front of them. -/
theorem readBracketed_intercalate (hclosing : Closes closing) (hgap : ∀ c ∈ gap, isSpace c)
    (hgap' : ∀ c ∈ gap', isSpace c) (write : α → List Char) {first : α} {parts : List α}
    (h : ∀ part ∈ first :: parts, ReadsAs read (write part) part) {budget : Nat}
    (hbudget : parts.length < budget) (rest : List Char) :
    readBracketed closing read budget
        (gap ++ ((',' :: gap).intercalate ((first :: parts).map write) ++ (gap' ++ closing :: rest))) =
      some (first :: parts, rest) := by
  have hstarts := (h first List.mem_cons_self).starts
  obtain ⟨more, hmore⟩ := exists_intercalate_cons (',' :: gap) (write first) (parts.map write)
  have hhead : (write first).head? ≠ some closing := by
    obtain ⟨c, hc, -, hne, hne'⟩ := hstarts
    rw [Option.mem_def.1 hc]
    rcases hclosing with rfl | rfl
    · exact fun h => hne (Option.some.inj h)
    · exact fun h => hne' (Option.some.inj h)
  have hsome : (write first).head?.isSome := by
    obtain ⟨c, hc, -⟩ := hstarts
    rw [Option.mem_def.1 hc, Option.isSome_some]
  rw [readBracketed, readParts_intercalate hclosing hgap hgap' write h hbudget, skipSpace_append hgap,
    List.map_cons, hmore, List.append_assoc, hstarts.skipSpace, List.head?_append,
    Option.or_of_isSome hsome, if_neg hhead]

/-! ### Values -/

theorem isSpace_newLine (level : Nat) : ∀ c ∈ (newLine level).toList, isSpace c := by
  intro c hc
  simp only [newLine, String.toList_append, String.toList_ofList, List.mem_append,
    List.mem_replicate] at hc
  rcases hc with hline | ⟨-, rfl⟩
  · cases List.mem_singleton.1 hline
    rfl
  · rfl

theorem toList_enclose_cons (level : Nat) (opening ending first : String) (parts : List String) :
    (enclose level opening ending (first :: parts)).toList =
      opening.toList ++ ((newLine (level + 1)).toList ++
        ((',' :: (newLine (level + 1)).toList).intercalate ((first :: parts).map String.toList) ++
          ((newLine level).toList ++ ending.toList))) := by
  rw [enclose, if_neg (List.cons_ne_nil _ _)]
  simp only [String.toList_append, String.toList_intercalate, List.append_assoc]
  rfl

theorem length_intercalate_le {separator : List Char} (hne : separator ≠ [])
    (texts : List (List Char)) : texts.length ≤ (separator.intercalate texts).length + 1 ∧
      ∀ text ∈ texts, text.length ≤ (separator.intercalate texts).length := by
  have hpos := List.length_pos_iff.2 hne
  induction texts with
  | nil => exact ⟨Nat.zero_le _, nofun⟩
  | cons first texts ih =>
      cases texts with
      | nil =>
          rw [List.intercalate_singleton]
          exact ⟨Nat.le_add_left _ _, fun text htext => List.mem_singleton.1 htext ▸ Nat.le_refl _⟩
      | cons second texts =>
          obtain ⟨hcount, hlength⟩ := ih
          rw [List.intercalate_cons_cons, List.length_append, List.length_append]
          refine ⟨?_, List.forall_mem_cons.2 ⟨by omega, fun text htext => ?_⟩⟩
          · rw [List.length_cons]
            omega
          · have hle := hlength text htext
            omega

/-- Brackets and commas make the whole longer than each part, and longer than the parts are many. -/
theorem length_lt_enclose (level : Nat) (opening ending : String) {first last : Char}
    (hopening : opening.toList = [first]) (hending : ending.toList = [last]) (parts : List String) :
    parts.length < (enclose level opening ending parts).toList.length ∧
      ∀ part ∈ parts, part.toList.length < (enclose level opening ending parts).toList.length := by
  cases parts with
  | nil => exact ⟨by simp [enclose, hopening], nofun⟩
  | cons part parts =>
      obtain ⟨hcount, hlength⟩ := length_intercalate_le
        (List.cons_ne_nil ',' (newLine (level + 1)).toList) ((part :: parts).map String.toList)
      rw [List.length_map] at hcount
      rw [toList_enclose_cons, hopening, hending]
      simp only [List.length_append, List.length_singleton]
      refine ⟨by omega, fun other hother => ?_⟩
      have hle := hlength _ (List.mem_map_of_mem hother)
      omega

/-- Parts between brackets, written over lines, are read back if those are that the budget is enough
for. -/
theorem readBracketed_enclose (level : Nat) {opening ending : String} (first : Char)
    (write : α → String) (hclosing : Closes closing) (hopening : opening.toList = [first])
    (hending : ending.toList = [closing]) {parts : List α} {budget : Nat}
    (hbudget : (enclose level opening ending (parts.map write)).toList.length ≤ budget + 1)
    (h : ∀ part ∈ parts, (write part).toList.length ≤ budget → ReadsAs read (write part).toList part)
    (rest : List Char) :
    ∃ text, (enclose level opening ending (parts.map write)).toList ++ rest = first :: text ∧
      readBracketed closing read budget text = some (parts, rest) := by
  obtain ⟨hcount, hlength⟩ := length_lt_enclose level opening ending hopening hending (parts.map write)
  have hreads : ∀ part ∈ parts, ReadsAs read (write part).toList part := by
    intro part hpart
    have hlt := hlength _ (List.mem_map_of_mem hpart)
    exact h part hpart (by omega)
  cases parts with
  | nil =>
      refine ⟨closing :: rest, by simp [enclose, hopening, hending], ?_⟩
      rw [readBracketed, hclosing.skipSpace, List.head?_cons, if_pos rfl, List.tail_cons]
  | cons part parts =>
      rw [List.length_map, List.length_cons] at hcount
      have hread := readBracketed_intercalate hclosing (isSpace_newLine (level + 1))
        (isSpace_newLine level) (fun part => (write part).toList) hreads
        (show parts.length < budget by omega) rest
      refine ⟨_, ?_, hread⟩
      rw [List.map_cons, toList_enclose_cons, hopening, hending, ← List.map_cons, List.map_map]
      simp only [List.cons_append, List.append_assoc, List.nil_append]
      rfl

/-! The members of an array or an object are written one by one. -/

theorem prettyItems_eq_map (level : Nat) (items : List Json) :
    prettyItems level items = items.map (prettyAt level) := by
  induction items with
  | nil => rfl
  | cons item items ih => rw [prettyItems, ih, List.map_cons]

def prettyMember (level : Nat) (member : String × Json) : String :=
  quote member.1 ++ ": " ++ prettyAt level member.2

theorem prettyMembers_eq_map (level : Nat) (members : List (String × Json)) :
    prettyMembers level members = members.map (prettyMember level) := by
  induction members with
  | nil => rfl
  | cons member members ih => rw [prettyMembers, ih, List.map_cons, prettyMember]

theorem length_value_le_prettyMember (level : Nat) (member : String × Json) :
    (prettyAt level member.2).toList.length ≤ (prettyMember level member).toList.length := by
  rw [prettyMember, String.toList_append, List.length_append]
  exact Nat.le_add_left _ _

theorem startsValue_quote (text : String) (rest : List Char) :
    StartsValue ((quote text).toList ++ rest) := by
  rw [toList_quote]
  exact ⟨'"', rfl, rfl, by decide, by decide⟩

theorem startsValue_enclose (level : Nat) {opening ending : String} {first : Char}
    (hopening : opening.toList = [first])
    (hfirst : isSpace first = false ∧ first ≠ ']' ∧ first ≠ '\x7d') (parts : List String) :
    StartsValue (enclose level opening ending parts).toList := by
  refine ⟨first, ?_, hfirst⟩
  cases parts with
  | nil => simp [enclose, hopening]
  | cons part parts => rw [toList_enclose_cons, hopening, List.singleton_append, List.head?_cons]; rfl

theorem exists_digit_repr (n : Nat) : ∃ c rest, n.repr.toList = c :: rest ∧ c.isDigit := by
  obtain ⟨c, rest, hdigits⟩ := List.exists_cons_of_ne_nil (Nat.toDigits_ne_nil (b := 10) (n := n))
  refine ⟨c, rest, by rw [Nat.toList_repr, hdigits], ?_⟩
  exact isDigit_of_mem_repr (by rw [Nat.toList_repr, hdigits]; exact List.mem_cons_self)

theorem startsValue_repr (n : Nat) : StartsValue n.repr.toList := by
  obtain ⟨c, rest, htext, hdigit⟩ := exists_digit_repr n
  rw [htext]
  refine ⟨c, rfl, ?_, ne_of_isDigit hdigit rfl, ne_of_isDigit hdigit rfl⟩
  simp [isSpace, ne_of_isDigit hdigit (d := ' ') rfl, ne_of_isDigit hdigit (d := '\t') rfl,
    ne_of_isDigit hdigit (d := '\n') rfl, ne_of_isDigit hdigit (d := '\r') rfl]

theorem startsValue_prettyAt (level : Nat) (value : Json) :
    StartsValue (prettyAt level value).toList := by
  cases value with
  | null => exact ⟨'n', by simp [prettyAt], rfl, by decide, by decide⟩
  | number n => exact startsValue_repr n
  | string text => simpa [prettyAt] using startsValue_quote text []
  | array items => exact startsValue_enclose level rfl ⟨rfl, by decide, by decide⟩ _
  | object members => exact startsValue_enclose level rfl ⟨rfl, by decide, by decide⟩ _

section

variable (budget : Nat) (text : List Char)

theorem readValue_string : readValue (budget + 1) ('"' :: text) =
    (readString text).map fun read => (.string (String.ofList read.1), read.2) := by
  rw [readValue]
  cases readString text <;> rfl

theorem readValue_array : readValue (budget + 1) ('[' :: text) =
    (readBracketed ']' (readValue budget) budget text).map fun read => (.array read.1, read.2) := by
  rw [readValue]
  cases readBracketed ']' (readValue budget) budget text <;> rfl

theorem readValue_object : readValue (budget + 1) ('\x7b' :: text) =
    (readBracketed '\x7d' (readMember (readValue budget)) budget text).map
      fun read => (.object read.1, read.2) := by
  rw [readValue]
  cases readBracketed '\x7d' (readMember (readValue budget)) budget text <;> rfl

theorem readValue_digit {c : Char} (h : c.isDigit) : readValue (budget + 1) (c :: text) =
    (readNumber (c :: text)).map fun read => (.number read.1, read.2) := by
  rw [readValue]
  · cases readNumber (c :: text) <;> rfl
  all_goals exact fun _ heq => absurd (List.cons.inj heq).1 (ne_of_isDigit h rfl)

end

/-- A member is read back if its value is. -/
theorem readsAs_prettyMember {read : List Char → Option (Json × List Char)} {level : Nat}
    {member : String × Json} (h : ReadsAs read (prettyAt level member.2).toList member.2) :
    ReadsAs (readMember read) (prettyMember level member).toList member where
  starts := by
    rw [prettyMember, String.toList_append, String.toList_append, List.append_assoc]
    exact startsValue_quote _ _
  reads rest hrest := by
    have htext : (prettyMember level member).toList ++ rest =
        '"' :: (member.1.toList.flatMap escapeChar ++
          '"' :: ':' :: ' ' :: ((prettyAt level member.2).toList ++ rest)) := by
      simp [prettyMember, toList_quote]
    have hspace : skipSpace (' ' :: ((prettyAt level member.2).toList ++ rest)) =
        (prettyAt level member.2).toList ++ rest := h.starts.skipSpace rest
    rw [htext, readMember, readString_escaped]
    simp only [Option.bind_eq_bind, Option.bind_some]
    rw [show skipSpace (':' :: _) = ':' :: _ from rfl]
    simp only
    rw [hspace, h.reads rest hrest, Option.bind_some, String.ofList_toList]

/-- Whatever is written is read back, if the budget is no smaller than the text is long. -/
theorem readsAs_prettyAt {budget level : Nat} {value : Json}
    (hbudget : (prettyAt level value).toList.length ≤ budget) :
    ReadsAs (readValue budget) (prettyAt level value).toList value := by
  induction budget generalizing level value with
  | zero =>
      obtain ⟨c, hc, -⟩ := startsValue_prettyAt level value
      rw [List.eq_nil_of_length_eq_zero (Nat.le_zero.1 hbudget)] at hc
      cases hc
  | succ budget ih =>
      refine ⟨startsValue_prettyAt level value, fun rest hrest => ?_⟩
      cases value with
      | null => simp [prettyAt, readValue]
      | number n =>
          obtain ⟨c, digits, hdigits, hdigit⟩ := exists_digit_repr n
          have hread := readNumber_repr n hrest
          rw [prettyAt, hdigits, List.cons_append] at *
          rw [readValue_digit _ _ hdigit, hread, Option.map_some]
      | string text =>
          rw [prettyAt, toList_quote, List.cons_append, readValue_string, List.append_assoc,
            List.singleton_append, readString_escaped, Option.map_some, String.ofList_toList]
      | array items =>
          rw [prettyAt, prettyItems_eq_map] at hbudget ⊢
          obtain ⟨text, htext, hread⟩ := readBracketed_enclose level '[' (prettyAt (level + 1))
            (.inl rfl) rfl rfl hbudget (fun item _ hle => ih hle) rest
          rw [htext, readValue_array, hread, Option.map_some]
      | object members =>
          rw [prettyAt, prettyMembers_eq_map] at hbudget ⊢
          obtain ⟨text, htext, hread⟩ := readBracketed_enclose level '\x7b' (prettyMember (level + 1))
            (.inr rfl) rfl rfl hbudget (fun member _ hle => readsAs_prettyMember
              (ih (Nat.le_trans (length_value_le_prettyMember (level + 1) member) hle))) rest
          rw [htext, readValue_object, hread, Option.map_some]

/-- What is written is read back, also with white space behind it. -/
theorem read?_pretty (value : Json) {space : String} (hspace : ∀ c ∈ space.toList, isSpace c) :
    read? (value.pretty ++ space) = some value := by
  have hbudget : value.pretty.toList.length ≤ (value.pretty ++ space).length := by
    rw [← String.length_toList, String.toList_append, List.length_append]
    exact Nat.le_add_right _ _
  have hreads : ReadsAs _ value.pretty.toList value := readsAs_prettyAt hbudget
  have hend : ∀ c ∈ space.toList.head?, c.isDigit = false := by
    have hgap := isDigit_head?_gap hspace (c := ']') rfl []
    cases htext : space.toList with
    | nil => exact nofun
    | cons c text =>
        rw [htext] at hgap
        exact hgap
  have hleft : skipSpace space.toList = [] := by
    rw [← List.append_nil space.toList, skipSpace_append hspace]
    rfl
  rw [read?, String.toList_append, hreads.starts.skipSpace, hreads.reads _ hend]
  simp only [Option.bind_eq_bind, Option.bind_some, hleft, if_true]

end

end ErDiagram.Json
