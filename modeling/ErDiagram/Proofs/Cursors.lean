import ErDiagram.Cursor
import ErDiagram.Proofs.Blanking
import ErDiagram.Proofs.Lexemes
import ErDiagram.Proofs.Spacing

/-!
The cursor cuts a source text as the lexer does. Seen from a place in front of a character, a byte
of the ASCII range is the character itself and all other bytes belong to characters outside that
range, so looking at bytes comes to the same as looking at characters. Every token starts and ends
in front of a character or at the end, so no slice fails.
-/

namespace ErDiagram

/-! ### Bytes and characters -/

namespace Byte

/-- A class of bytes tells from any byte of a character whether a class of characters has it. -/
def Tells (ofByte : UInt8 → Bool) (ofChar : Char → Bool) : Prop :=
  ∀ c, ∀ byte ∈ String.utf8EncodeChar c, ofByte byte = ofChar c

theorem utf8EncodeChar_of_lt {c : Char} (h : c.toNat < 128) :
    String.utf8EncodeChar c = [UInt8.ofNat c.toNat] := by
  have hle : c.val.toNat ≤ 127 := Nat.le_of_lt_succ h
  rw [String.utf8EncodeChar.eq_1, if_pos hle]
  rfl

theorem le_of_mem_utf8EncodeChar {c : Char} (h : 128 ≤ c.toNat) {byte : UInt8}
    (hbyte : byte ∈ String.utf8EncodeChar c) : 128 ≤ byte.toNat := by
  rcases toNat_of_mem_utf8EncodeChar hbyte with heq | hle
  · rw [heq]
    exact h
  · exact hle

/-- It is enough that the classes agree on the ASCII range and are empty beyond it. -/
theorem tells_of_ascii {ofByte : UInt8 → Bool} {ofChar : Char → Bool}
    (hascii : ∀ code < 128, ofByte (UInt8.ofNat code) = ofChar (Char.ofNat code))
    (hbyte : ∀ code < 256, 128 ≤ code → ofByte (UInt8.ofNat code) = false)
    (hchar : ∀ c : Char, 128 ≤ c.toNat → ofChar c = false) : Tells ofByte ofChar := by
  intro c byte hmem
  by_cases hc : c.toNat < 128
  · rw [utf8EncodeChar_of_lt hc, List.mem_singleton] at hmem
    rw [hmem, hascii _ hc, Char.ofNat_toNat]
  · have hhigh := le_of_mem_utf8EncodeChar (Nat.le_of_not_lt hc) hmem
    rw [hchar c (Nat.le_of_not_lt hc), ← hbyte byte.toNat byte.toNat_lt hhigh, UInt8.ofNat_toNat]

theorem tells_isDigit : Tells isDigit Char.isDigit := by
  apply tells_of_ascii
  · decide +kernel
  · decide +kernel
  · intro c hc
    have hval : 128 ≤ c.val := hc
    simp only [Char.isDigit, Bool.and_eq_false_iff, decide_eq_false_iff_not]
    grind

theorem tells_isAlpha :
    Tells (fun byte => (65 ≤ byte && byte ≤ 90) || (97 ≤ byte && byte ≤ 122)) Char.isAlpha := by
  apply tells_of_ascii
  · decide +kernel
  · decide +kernel
  · intro c hc
    have hval : 128 ≤ c.val := hc
    rw [Bool.eq_false_iff, Ne, isAlpha_iff]
    grind

/-- A byte of the ASCII range stands for itself only. -/
theorem tells_eq {d : Char} (h : d.toNat < 128) : Tells (· = UInt8.ofNat d.toNat) (· = d) := by
  intro c byte hmem
  apply decide_eq_decide.2
  by_cases hc : c.toNat < 128
  · rw [utf8EncodeChar_of_lt hc, List.mem_singleton] at hmem
    rw [hmem]
    constructor
    · intro heq
      have hcode := congrArg UInt8.toNat heq
      rw [UInt8.toNat_ofNat', UInt8.toNat_ofNat'] at hcode
      rw [← Char.ofNat_toNat c, ← Char.ofNat_toNat d]
      congr 1
      omega
    · rintro rfl
      rfl
  · have hhigh := le_of_mem_utf8EncodeChar (Nat.le_of_not_lt hc) hmem
    constructor
    · rintro rfl
      rw [UInt8.toNat_ofNat'] at hhigh
      omega
    · rintro rfl
      exact absurd h hc

theorem Tells.or {ofByte ofByte' : UInt8 → Bool} {ofChar ofChar' : Char → Bool}
    (h : Tells ofByte ofChar) (h' : Tells ofByte' ofChar') :
    Tells (fun byte => ofByte byte || ofByte' byte) (fun c => ofChar c || ofChar' c) :=
  fun c byte hmem => congrArg₂ (· || ·) (h c byte hmem) (h' c byte hmem)

theorem tells_isBlank : Tells isBlank ErDiagram.isBlank :=
  (((tells_eq (d := ' ') (by decide)).or (tells_eq (d := '\t') (by decide))).or
    (tells_eq (d := '\r') (by decide))).or (tells_eq (d := '\n') (by decide))

theorem tells_isMany : Tells isMany (fun c => c = 'N' || c = 'n') :=
  (tells_eq (d := 'N') (by decide)).or (tells_eq (d := 'n') (by decide))

theorem tells_isWordStart : Tells isWordStart ErDiagram.isWordStart :=
  (tells_isAlpha.or (tells_eq (d := '_') (by decide))).or (tells_eq (d := '-') (by decide))

theorem tells_isWordChar : Tells isWordChar ErDiagram.isWordChar :=
  tells_isWordStart.or tells_isDigit

theorem tells_ne_newline : Tells (· ≠ 10) (· ≠ '\n') := by
  intro c byte hmem
  by_cases hc : c = '\n'
  · rw [hc] at hmem ⊢
    rw [List.mem_singleton.1 hmem]
    rfl
  · exact (decide_eq_true (ne_ten_of_mem_utf8EncodeChar hc hmem)).trans (decide_eq_true hc).symm

/-- The first byte of a character is no continuation, and all others are. -/
theorem exists_utf8EncodeChar (c : Char) :
    ∃ first others, String.utf8EncodeChar c = first :: others ∧
      isContinuation first = false ∧ ∀ byte ∈ others, isContinuation byte = true := by
  have hsmall : ∀ code < 128, isContinuation (UInt8.ofNat code) = false := by decide +kernel
  have hfirst : ∀ code bound lead : Nat, 0 < bound →
      (∀ low < bound, isContinuation (UInt8.ofNat (low + lead)) = false) →
        isContinuation (UInt8.ofNat (code % bound + lead)) = false :=
    fun code bound lead hpos h => h _ (Nat.mod_lt _ hpos)
  have hother : ∀ code : Nat, isContinuation (UInt8.ofNat (code % 64 + 128)) = true := by
    have hlow : ∀ low < 64, isContinuation (UInt8.ofNat (low + 128)) = true := by decide +kernel
    exact fun code => hlow _ (Nat.mod_lt _ (by decide))
  rw [String.utf8EncodeChar.eq_1]
  split_ifs with hone
  · exact ⟨_, _, rfl, hsmall _ (Nat.lt_succ_of_le hone), by simp⟩
  · refine ⟨_, _, rfl, hfirst _ _ _ (by decide) (by decide +kernel), ?_⟩
    simp [-UInt8.ofNat_add, hother]
  · refine ⟨_, _, rfl, hfirst _ _ _ (by decide) (by decide +kernel), ?_⟩
    simp [-UInt8.ofNat_add, hother]
  · refine ⟨_, _, rfl, hfirst _ _ _ (by decide) (by decide +kernel), ?_⟩
    simp [-UInt8.ofNat_add, hother]

/-- The bytes of a class at the front are those of the characters of a class at the front. -/
theorem Tells.takeWhile {ofByte : UInt8 → Bool} {ofChar : Char → Bool} (h : Tells ofByte ofChar)
    (text : List Char) :
    (utf8Bytes text).takeWhile ofByte = utf8Bytes (text.takeWhile ofChar) := by
  induction text with
  | nil => rfl
  | cons c text ih =>
      rw [utf8Bytes_cons, List.takeWhile_cons]
      by_cases hc : ofChar c
      · have hall : ∀ byte ∈ String.utf8EncodeChar c, ofByte byte := fun byte hmem =>
          (h c byte hmem).trans hc
        rw [if_pos hc, utf8Bytes_cons, List.takeWhile_append_of_pos hall, ih]
      · obtain ⟨first, others, hencode, -⟩ := exists_utf8EncodeChar c
        have hfirst : ofByte first = false :=
          (h c first (by simp [hencode])).trans (Bool.eq_false_iff.2 hc)
        rw [if_neg hc, hencode, List.cons_append, List.takeWhile_cons, hfirst]
        rfl

theorem Tells.any_head? {ofByte : UInt8 → Bool} {ofChar : Char → Bool} (h : Tells ofByte ofChar)
    (text : List Char) : (utf8Bytes text).head?.any ofByte = text.head?.any ofChar := by
  cases text with
  | nil => rfl
  | cons c text =>
      obtain ⟨first, others, hencode, -⟩ := exists_utf8EncodeChar c
      rw [utf8Bytes_cons, hencode]
      exact h c first (by simp [hencode])

end Byte

/-! ### Places in front of characters -/

namespace Cursor

theorem drop_of_getElem? {bytes : List UInt8} {place : Nat} {byte : UInt8}
    (h : bytes[place]? = some byte) : bytes.drop place = byte :: bytes.drop (place + 1) := by
  obtain ⟨hlt, heq⟩ := List.getElem?_eq_some_iff.1 h
  rw [List.drop_eq_getElem_cons hlt, heq]

theorem passWhile_eq (bytes : List UInt8) (ofByte : UInt8 → Bool) (place : Nat) :
    passWhile bytes ofByte place = place + ((bytes.drop place).takeWhile ofByte).length := by
  fun_induction passWhile bytes ofByte place with
  | case1 place byte h hbyte ih =>
      rw [ih, drop_of_getElem? h, List.takeWhile_cons, if_pos hbyte, List.length_cons]
      omega
  | case2 place byte h hbyte =>
      rw [drop_of_getElem? h, List.takeWhile_cons, if_neg hbyte]
      rfl
  | case3 place h =>
      rw [List.drop_eq_nil_of_le (List.getElem?_eq_none_iff.1 h)]
      rfl

theorem skipTrivia_eq {bytes : List UInt8} {place : Nat} {byte : UInt8}
    (h : bytes[place]? = some byte) :
    skipTrivia bytes place =
      if Byte.isBlank byte then skipTrivia bytes (place + 1)
      else if byte = 59 then skipTrivia bytes (passWhile bytes (· ≠ 10) place)
      else place := by
  rw [skipTrivia]
  split
  · rename_i heq
    rw [h] at heq
    cases heq
    rfl
  · rename_i heq
    rw [h] at heq
    cases heq

theorem skipTrivia_of_none {bytes : List UInt8} {place : Nat} (h : bytes[place]? = none) :
    skipTrivia bytes place = place := by
  rw [skipTrivia]
  split
  · rename_i heq
    rw [h] at heq
    cases heq
  · rfl

end Cursor

/-- The text, in UTF-8, is what the bytes go on with at a place in front of a character. -/
def Ahead (bytes : List UInt8) (place : Nat) (text : List Char) : Prop :=
  ∃ front, bytes = utf8Bytes (front ++ text) ∧ place = (utf8Bytes front).length

namespace Ahead

variable {bytes : List UInt8} {place : Nat} {text after : List Char}

theorem drop (h : Ahead bytes place text) : bytes.drop place = utf8Bytes text := by
  obtain ⟨front, rfl, rfl⟩ := h
  rw [utf8Bytes_append, List.drop_left]

theorem getElem? (h : Ahead bytes place text) : bytes[place]? = (utf8Bytes text).head? := by
  rw [← h.drop, List.head?_drop]

theorem skip (h : Ahead bytes place (text ++ after)) :
    Ahead bytes (place + (utf8Bytes text).length) after := by
  obtain ⟨front, rfl, rfl⟩ := h
  refine ⟨front ++ text, by rw [List.append_assoc], ?_⟩
  rw [utf8Bytes_append, List.length_append]

/-- A character of the ASCII range takes one byte. -/
theorem tail {c : Char} (h : Ahead bytes place (c :: text)) (hc : c.toNat < 128) :
    Ahead bytes (place + 1) text := by
  have hone : (utf8Bytes [c]).length = 1 := by
    rw [utf8Bytes_cons, Byte.utf8EncodeChar_of_lt hc]
    rfl
  rw [← hone]
  exact skip h

theorem isBoundary (h : Ahead bytes place text) : Cursor.isBoundary bytes place = true := by
  rw [Cursor.isBoundary, h.getElem?, Bool.or_eq_true]
  cases text with
  | nil =>
      obtain ⟨front, rfl, rfl⟩ := h
      simp
  | cons c text =>
      obtain ⟨first, others, hencode, hfirst, -⟩ := Byte.exists_utf8EncodeChar c
      rw [utf8Bytes_cons, hencode, List.cons_append, List.head?_cons]
      simp [hfirst]

/-- The bytes from one place in front of a character to another one are a text. -/
theorem slice? (h : Ahead bytes place (text ++ after)) :
    Cursor.slice? bytes place (place + (utf8Bytes text).length) = some (String.ofList text) := by
  have hslice : (bytes.take (place + (utf8Bytes text).length)).drop place = utf8Bytes text := by
    rw [List.drop_take, h.drop, Nat.add_sub_cancel_left, utf8Bytes_append, List.take_left]
  have hvalid : (utf8Bytes text).toByteArray.IsValidUTF8 := (String.ofList text).isValidUTF8
  rw [Cursor.slice?, h.isBoundary, h.skip.isBoundary, hslice, String.fromUTF8?, dif_pos hvalid]
  simp
  rfl

theorem passWhile {ofByte : UInt8 → Bool} {ofChar : Char → Bool} (h : Ahead bytes place text)
    (htells : Byte.Tells ofByte ofChar) :
    Cursor.passWhile bytes ofByte place = place + (utf8Bytes (text.takeWhile ofChar)).length := by
  rw [Cursor.passWhile_eq, h.drop, htells.takeWhile]

theorem any {ofByte : UInt8 → Bool} {ofChar : Char → Bool} (h : Ahead bytes place text)
    (htells : Byte.Tells ofByte ofChar) : bytes[place]?.any ofByte = text.head?.any ofChar := by
  rw [h.getElem?, htells.any_head?]

/-- The byte at a place in front of a character. -/
theorem exists_byte {c : Char} (h : Ahead bytes place (c :: text)) :
    ∃ byte, bytes[place]? = some byte ∧
      ∀ {ofByte ofChar}, Byte.Tells ofByte ofChar → ofByte byte = ofChar c := by
  obtain ⟨first, others, hencode, -⟩ := Byte.exists_utf8EncodeChar c
  refine ⟨first, ?_, fun htells => htells c first (by simp [hencode])⟩
  rw [h.getElem?, utf8Bytes_cons, hencode]
  rfl

/-! ### Literals -/

theorem startsBound (h : Ahead bytes place text) :
    Cursor.startsBound bytes place = ErDiagram.startsBound text := by
  cases text with
  | nil =>
      rw [Cursor.startsBound, h.getElem?]
      rfl
  | cons c text =>
      obtain ⟨byte, hbyte, htells⟩ := h.exists_byte
      rw [Cursor.startsBound, hbyte, ErDiagram.startsBound]
      dsimp only
      rw [htells Byte.tells_isDigit, htells Byte.tells_isMany, Bool.or_comm (decide (c = 'N'))]
      by_cases hletter : c = 'n' ∨ c = 'N'
      · have hascii : c.toNat < 128 := by rcases hletter with rfl | rfl <;> decide
        rw [(h.tail hascii).any Byte.tells_isWordChar]
      · have hmany : (decide (c = 'n') || decide (c = 'N')) = false := by simpa using hletter
        rw [hmany, Bool.false_and, Bool.false_and]

theorem boundEnd (h : Ahead bytes place text) :
    Cursor.boundEnd bytes place = place + (utf8Bytes (cutBound text).1).length := by
  rw [Cursor.boundEnd, h.any Byte.tells_isMany, h.passWhile Byte.tells_isDigit]
  cases text with
  | nil => rfl
  | cons c text =>
      by_cases hletter : c = 'n' ∨ c = 'N'
      · rw [cutBound_letter _ hletter]
        rcases hletter with rfl | rfl <;> rfl
      · have hmany : (c = 'N' || c = 'n') = false := by simpa [or_comm] using hletter
        rw [cutBound_digits _ hletter, List.head?_cons, Option.any_some, hmany]
        rfl

theorem joinsBound (h : Ahead bytes place text) :
    (decide (bytes[place]? = some 58) && Cursor.startsBound bytes (place + 1)) =
      ErDiagram.joinsBound text := by
  cases text with
  | nil =>
      rw [h.getElem?]
      rfl
  | cons c text =>
      obtain ⟨byte, hbyte, htells⟩ := h.exists_byte
      have hcolon : decide (bytes[place]? = some 58) = decide (c = ':') := by
        rw [hbyte, ← htells (Byte.tells_eq (d := ':') (by decide))]
        exact decide_eq_decide.2 Option.some_inj
      rw [hcolon]
      by_cases hc : c = ':'
      · subst hc
        rw [(h.tail (by decide)).startsBound]
        rfl
      · rw [decide_eq_false hc, joinsBound_cons hc, Bool.false_and]

theorem cardinalEnd (h : Ahead bytes place text) (hbound : ErDiagram.startsBound text) :
    Cursor.cardinalEnd bytes place = place + (utf8Bytes (cutCardinal text).1).length := by
  have hfirst : Ahead bytes place ((cutBound text).1 ++ (cutBound text).2) :=
    (isBound_cutBound hbound).1 ▸ h
  rw [Cursor.cardinalEnd, h.boundEnd, hfirst.skip.joinsBound]
  cases hjoins : ErDiagram.joinsBound (cutBound text).2 with
  | false =>
      rw [cutCardinal_single hjoins]
      rfl
  | true =>
      obtain ⟨more, hmore, hstarts⟩ := joinsBound_iff.1 hjoins
      have hcut : cutBound text = ((cutBound text).1, ':' :: more) := by rw [← hmore]
      have hsecond := hmore ▸ hfirst.skip
      rw [if_pos rfl, (hsecond.tail (by decide)).boundEnd, cutCardinal_pair hcut hstarts,
        utf8Bytes_append, utf8Bytes_cons, Byte.utf8EncodeChar_of_lt (by decide), List.length_append,
        List.length_append, List.length_singleton]
      omega

/-! ### Characters that start no token -/

theorem passWhile_isContinuation {c : Char} (h : Ahead bytes place (c :: text)) :
    Cursor.passWhile bytes Byte.isContinuation (place + 1) = place + (utf8Bytes [c]).length := by
  obtain ⟨first, others, hencode, -, hothers⟩ := Byte.exists_utf8EncodeChar c
  have hdrop : bytes.drop (place + 1) = others ++ utf8Bytes text := by
    rw [← List.drop_drop, h.drop, utf8Bytes_cons, hencode]
    rfl
  have hstop : (utf8Bytes text).takeWhile Byte.isContinuation = [] := by
    cases text with
    | nil => rfl
    | cons d text =>
        obtain ⟨next, more, hnext, hboundary, -⟩ := Byte.exists_utf8EncodeChar d
        rw [utf8Bytes_cons, hnext, List.cons_append, List.takeWhile_cons, hboundary]
        rfl
  rw [Cursor.passWhile_eq, hdrop, List.takeWhile_append_of_pos hothers, hstop, utf8Bytes_cons,
    hencode]
  simp
  omega

/-! ### Trivia -/

theorem skipTrivia_blank {c : Char} (h : Ahead bytes place (c :: text)) (hc : isBlank c = true) :
    Cursor.skipTrivia bytes place = Cursor.skipTrivia bytes (place + 1) ∧ c.toNat < 128 := by
  obtain ⟨byte, hbyte, htells⟩ := h.exists_byte
  rw [Cursor.skipTrivia_eq hbyte, htells Byte.tells_isBlank, if_pos hc]
  refine ⟨rfl, ?_⟩
  simp only [isBlank, Bool.or_eq_true, decide_eq_true_eq] at hc
  rcases hc with ((rfl | rfl) | rfl) | rfl <;> decide

theorem skipTrivia_comment (h : Ahead bytes place (';' :: text)) :
    Cursor.skipTrivia bytes place =
      Cursor.skipTrivia bytes (place + (utf8Bytes (';' :: text.takeWhile (· ≠ '\n'))).length) := by
  have hbyte : bytes[place]? = some 59 := by
    rw [h.getElem?]
    rfl
  rw [Cursor.skipTrivia_eq hbyte, if_neg (by decide), if_pos rfl,
    h.passWhile Byte.tells_ne_newline]
  rfl

theorem skipTrivia_append {gap : List Char} (hgap : IsTrivia gap)
    (h : Ahead bytes place (gap ++ after)) :
    Cursor.skipTrivia bytes place = Cursor.skipTrivia bytes (place + (utf8Bytes gap).length) := by
  induction hgap generalizing place with
  | nil => rfl
  | @blank c gap hblank _ ih =>
      obtain ⟨hskip, hascii⟩ := h.skipTrivia_blank hblank
      rw [hskip, ih (h.tail hascii), utf8Bytes_cons, Byte.utf8EncodeChar_of_lt hascii,
        List.length_append, List.length_singleton, Nat.add_assoc]
  | @comment comment gap hcomment _ ih =>
      have hline : Ahead bytes place (';' :: (comment ++ '\n' :: (gap ++ after))) := by
        simpa using h
      have htake : (comment ++ '\n' :: (gap ++ after)).takeWhile (· ≠ '\n') = comment := by
        rw [List.takeWhile_append_of_pos (by simpa using fun c hc => ne_of_mem_of_not_mem hc hcomment)]
        simp
      have hend : Ahead bytes (place + (utf8Bytes (';' :: comment)).length)
          ('\n' :: (gap ++ after)) := skip hline
      obtain ⟨hskip, hascii⟩ := hend.skipTrivia_blank (by decide)
      have hlength : (utf8Bytes (';' :: (comment ++ '\n' :: gap))).length =
          (utf8Bytes (';' :: comment)).length + 1 + (utf8Bytes gap).length := by
        rw [← List.cons_append, utf8Bytes_append, utf8Bytes_cons '\n',
          Byte.utf8EncodeChar_of_lt hascii, List.length_append, List.length_append,
          List.length_singleton, Nat.add_assoc]
      calc Cursor.skipTrivia bytes place
          _ = Cursor.skipTrivia bytes (place + (utf8Bytes (';' :: comment)).length) := by
            rw [hline.skipTrivia_comment, htake]
          _ = Cursor.skipTrivia bytes (place + (utf8Bytes (';' :: comment)).length + 1) := hskip
          _ = _ := by rw [ih (hend.tail hascii), hlength, Nat.add_assoc, Nat.add_assoc, Nat.add_assoc]

theorem skipTrivia_stands {c : Char} (h : Ahead bytes place (c :: text)) (hc : Stands c) :
    Cursor.skipTrivia bytes place = place := by
  obtain ⟨byte, hbyte, htells⟩ := h.exists_byte
  have hcomment : byte ≠ 59 := by
    have heq := htells (Byte.tells_eq (d := ';') (by decide))
    rw [decide_eq_false hc.2] at heq
    exact of_decide_eq_false heq
  rw [Cursor.skipTrivia_eq hbyte, htells Byte.tells_isBlank, hc.1, if_neg hcomment]
  rfl

theorem skipTrivia_nil (h : Ahead bytes place []) : Cursor.skipTrivia bytes place = place :=
  Cursor.skipTrivia_of_none h.getElem?

theorem skipTrivia_trailing (hgap : IsTrailing text) (h : Ahead bytes place text) :
    Cursor.skipTrivia bytes place = place + (utf8Bytes text).length := by
  have hend : Ahead bytes (place + (utf8Bytes text).length) [] := by
    apply skip
    rwa [List.append_nil]
  cases hgap with
  | closed hgap =>
      rw [← List.append_nil text] at h
      rw [h.skipTrivia_append hgap, hend.skipTrivia_nil]
  | @running gap comment hgap hcomment =>
      have htake : comment.takeWhile (· ≠ '\n') = comment :=
        List.takeWhile_eq_self_iff.2 (by simpa using fun c hc => ne_of_mem_of_not_mem hc hcomment)
      rw [utf8Bytes_append, List.length_append, ← Nat.add_assoc] at hend ⊢
      rw [h.skipTrivia_append hgap, h.skip.skipTrivia_comment, htake, hend.skipTrivia_nil]

end Ahead

/-! ### One answer -/

namespace Cursor

/-- A cursor and a lexer have come to the same place of the same source text. -/
structure Follows (cursor : Cursor) (lexer : Lexer) : Prop where
  source : cursor.source = lexer.source
  ahead : Ahead cursor.bytes cursor.current lexer.unread
  place : cursor.current = lexer.offset
  finished : cursor.finished = lexer.finished

variable {cursor : Cursor} {lexer : Lexer}

theorem make?_of_ahead {start : Nat} {text after : List Char}
    (h : Ahead cursor.bytes start (text ++ after)) (kindOf : String → Token.Kind) :
    cursor.make? kindOf start (start + (utf8Bytes text).length) =
      some (⟨kindOf (String.ofList text), String.ofList text, start⟩,
        { cursor with current := start + (utf8Bytes text).length }) := by
  rw [make?, h.slice?]
  rfl

/-- The token that is cut off where a token can start. -/
theorem nextToken?_of_ahead {start : Nat} {c : Char} {rest : List Char}
    (hskip : skipTrivia cursor.bytes cursor.current = start)
    (h : Ahead cursor.bytes start (c :: rest)) :
    cursor.nextToken? =
      some (⟨(cutToken c rest).1, String.ofList (cutToken c rest).2.1, start⟩,
        { cursor with current := start + (utf8Bytes (cutToken c rest).2.1).length }) := by
  obtain ⟨byte, hbyte, htells⟩ := h.exists_byte
  have hopen : byte = 40 ↔ c = '(' := by
    simpa using htells (Byte.tells_eq (d := '(') (by decide))
  have hclose : byte = 41 ↔ c = ')' := by
    simpa using htells (Byte.tells_eq (d := ')') (by decide))
  have hcut : Ahead cursor.bytes start ((cutToken c rest).2.1 ++ (cutToken c rest).2.2) :=
    (isToken_cutToken c rest).1 ▸ h
  rw [nextToken?]
  simp only [hskip, hbyte, hopen, hclose, h.startsBound, htells Byte.tells_isWordStart]
  unfold cutToken at hcut ⊢
  split_ifs at hcut ⊢ with hc hc' hbound hstart
  · subst hc
    exact make?_of_ahead hcut _
  · subst hc'
    exact make?_of_ahead hcut _
  · rw [h.cardinalEnd hbound]
    exact make?_of_ahead hcut _
  · have hword : isWordChar c = true := by rw [isWordChar, hstart, Bool.true_or]
    rw [h.passWhile Byte.tells_isWordChar, List.takeWhile_cons, if_pos hword]
    exact make?_of_ahead hcut _
  · rw [h.passWhile_isContinuation]
    exact make?_of_ahead hcut _

/-- The end of input, where only trivia is left. -/
theorem nextToken?_of_end {stop : Nat} (hskip : skipTrivia cursor.bytes cursor.current = stop)
    (h : Ahead cursor.bytes stop []) :
    cursor.nextToken? = some (⟨.endOfInput, "", stop⟩, { cursor with current := stop }) := by
  have hnone : cursor.bytes[stop]? = none := h.getElem?
  rw [nextToken?]
  simp only [hskip, hnone]
  exact @make?_of_ahead cursor stop [] [] h _

/-- The cursor and the lexer answer the same token and come to the same place again. -/
theorem Follows.nextToken? (h : Follows cursor lexer) :
    ∃ after, cursor.nextToken? = some (lexer.nextToken.1, after) ∧
      Follows after lexer.nextToken.2 := by
  rcases hskip : ErDiagram.skipTrivia false lexer.offset lexer.unread with ⟨stop, _ | ⟨c, rest⟩⟩
  · have htrailing : IsTrailing lexer.unread := isTrailing_of_skipTrivia hskip
    have hstop := htrailing.skipTrivia lexer.offset
    rw [hskip, ← h.place] at hstop
    obtain rfl := (Prod.mk.inj hstop).1
    have hend : Ahead cursor.bytes (cursor.current + (utf8Bytes lexer.unread).length) [] :=
      Ahead.skip (by rw [List.append_nil]; exact h.ahead)
    rw [nextToken?_of_end (h.ahead.skipTrivia_trailing htrailing) hend, Lexer.nextToken, hskip]
    exact ⟨_, rfl, ⟨h.source, hend, rfl, h.finished⟩⟩
  · obtain ⟨hc, gap, hunread, hgap⟩ := exists_trivia hskip
    rw [if_neg (by decide)] at hgap
    have hahead : Ahead cursor.bytes cursor.current (gap ++ c :: rest) := hunread ▸ h.ahead
    have hstart := skipTrivia_front hgap hc lexer.offset rest
    rw [← hunread, hskip, ← h.place] at hstart
    obtain rfl := (Prod.mk.inj hstart).1
    have hplace : skipTrivia cursor.bytes cursor.current = cursor.current + (utf8Bytes gap).length :=
      (hahead.skipTrivia_append hgap).trans (hahead.skip.skipTrivia_stands hc)
    have hcut : Ahead cursor.bytes (cursor.current + (utf8Bytes gap).length)
        ((cutToken c rest).2.1 ++ (cutToken c rest).2.2) :=
      (isToken_cutToken c rest).1 ▸ hahead.skip
    rw [nextToken?_of_ahead hplace hahead.skip, nextToken_of_skipTrivia_cons hskip]
    exact ⟨_, rfl, ⟨h.source, hcut.skip, rfl, h.finished⟩⟩

theorem Follows.next? (h : Follows cursor lexer) :
    ∃ after, cursor.next? = some (lexer.next?.1, after) ∧ Follows after lexer.next?.2 := by
  rw [Cursor.next?, Lexer.next?, h.finished]
  split_ifs with hfinished
  · exact ⟨cursor, rfl, h⟩
  · obtain ⟨after, hnext, hfollows⟩ := h.nextToken?
    rw [hnext]
    exact ⟨_, rfl, ⟨hfollows.source, hfollows.ahead, hfollows.place, rfl⟩⟩

theorem Follows.answer? (h : Follows cursor lexer) (call : Lexer.Call) :
    ∃ after, cursor.answer? call = some ((lexer.answer call).1, after) ∧
      Follows after (lexer.answer call).2 := by
  cases call with
  | nextToken =>
      obtain ⟨after, hnext, hfollows⟩ := h.nextToken?
      exact ⟨after, by rw [Cursor.answer?, hnext]; rfl, hfollows⟩
  | next =>
      obtain ⟨after, hnext, hfollows⟩ := h.next?
      rw [Cursor.answer?, hnext, Lexer.answer]
      rcases hlexer : lexer.next? with ⟨_ | token, behind⟩
      · rw [hlexer] at hfollows
        exact ⟨after, rfl, hfollows⟩
      · rw [hlexer] at hfollows
        exact ⟨after, rfl, hfollows⟩
  | source => exact ⟨cursor, by rw [Cursor.answer?, h.source]; rfl, h⟩

/-- Whatever is asked, the cursor answers as the lexer does: no slice fails. -/
theorem Follows.answers? (h : Follows cursor lexer) (calls : List Lexer.Call) :
    cursor.answers? calls = some (lexer.answers calls) := by
  induction calls generalizing cursor lexer with
  | nil => rfl
  | cons call calls ih =>
      obtain ⟨after, hanswer, hfollows⟩ := h.answer? call
      rw [Cursor.answers?, hanswer, Option.bind_some]
      dsimp only
      rw [ih hfollows]
      rfl

theorem follows_ofSource (source : String) : Follows (ofSource source) (Lexer.ofSource source) where
  source := rfl
  ahead := ⟨[], rfl, rfl⟩
  place := rfl
  finished := rfl

end Cursor
end ErDiagram
