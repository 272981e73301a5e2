import ErDiagram.Proofs.Pointing
import Mathlib.Data.List.Basic
import Mathlib.Data.Prod.Lex

/-!
Places determine offsets. Going on by a byte always leads to a later place, in the next line or further
right in the same one, so no two offsets of a text have the same place. From a place, its offset is
found again: it is as far behind the start of the line as the column says. All this is said of the
numbers in words, which hold the line and the column of every offset if the text is short enough.
-/

namespace ErDiagram

namespace Position

/-! ### Unbounded places -/

/-- Where the lines of some bytes start: the first one at the first byte, and the others right behind
the line feeds. -/
def lineStarts (bytes : List UInt8) : List Nat :=
  0 :: bytes.idxsOf 10 1

theorem lineStarts_append (front back : List UInt8) :
    lineStarts (front ++ back) = lineStarts front ++ back.idxsOf 10 (1 + front.length) := by
  rw [lineStarts, List.idxsOf_append, lineStarts, List.cons_append]

theorem lineStarts_ne_nil (bytes : List UInt8) : lineStarts bytes ≠ [] :=
  List.cons_ne_nil _ _

theorem idxsOf_singleton (byte : UInt8) (index : Nat) :
    [byte].idxsOf 10 index = if byte = 10 then [index] else [] := by
  simp [List.idxsOf_cons]

/-- The line counts the line feeds in front, and the column the bytes behind the last one. -/
theorem behind_eq (bytes : List UInt8) : behind bytes =
    (bytes.count 10 + 1, (bytes.reverse.takeWhile (· ≠ 10)).length + 1) := by
  induction bytes using List.reverseRecOn with
  | nil => rfl
  | append_singleton bytes byte ih =>
      rw [behind_concat, ih, step, List.reverse_append, List.reverse_singleton, List.singleton_append,
        List.count_append]
      by_cases h : byte = 10 <;> simp [h]

/-- The line is the last one that starts in the bytes, and from its start the column counts the bytes
up to the end. -/
theorem getLast_lineStarts (bytes : List UInt8) :
    (lineStarts bytes).getLast (lineStarts_ne_nil bytes) + (behind bytes).2 = bytes.length + 1 := by
  induction bytes using List.reverseRecOn with
  | nil => rfl
  | append_singleton bytes byte ih =>
      simp only [lineStarts_append, idxsOf_singleton, behind_concat, step, List.length_append,
        List.length_singleton]
      by_cases h : byte = 10
      · simp only [if_pos h, List.getLast_append_singleton]
        omega
      · simp only [if_neg h, List.append_nil]
        omega

theorem length_lineStarts (bytes : List UInt8) : (lineStarts bytes).length = (behind bytes).1 := by
  rw [lineStarts, List.length_cons, List.length_idxsOf, behind_eq]

/-- No line and no column is greater than the number of bytes in front, counted from 1. -/
theorem behind_le (bytes : List UInt8) :
    (behind bytes).1 ≤ bytes.length + 1 ∧ (behind bytes).2 ≤ bytes.length + 1 := by
  have hcount : bytes.count 10 ≤ bytes.length := List.count_le_length
  have hlast := getLast_lineStarts bytes
  rw [behind_eq] at hlast ⊢
  dsimp only at hlast ⊢
  omega

theorem lt_step (place : Nat × Nat) (byte : UInt8) : toLex place < toLex (step place byte) := by
  rw [Prod.Lex.toLex_lt_toLex, step]
  split
  · exact Or.inl (Nat.lt_succ_self _)
  · exact Or.inr ⟨rfl, Nat.lt_succ_self _⟩

/-- Behind more bytes there is a later place. -/
theorem behind_lt_append (bytes : List UInt8) {more : List UInt8} (hmore : more ≠ []) :
    toLex (behind bytes) < toLex (behind (bytes ++ more)) := by
  induction more using List.reverseRecOn with
  | nil => exact absurd rfl hmore
  | append_singleton more byte ih =>
      rw [← List.append_assoc, behind_concat]
      by_cases hnil : more = []
      · rw [hnil, List.append_nil]
        exact lt_step _ byte
      · exact (ih hnil).trans (lt_step _ byte)

/-! ### Places in words -/

/-- A place comes before another one, in an earlier line or in the same line further left. -/
def Before (place other : Position) : Prop :=
  place.line < other.line ∨ place.line = other.line ∧ place.column < other.column

theorem Before.ne {place other : Position} (h : place.Before other) : place ≠ other := by
  rintro rfl
  rcases h with h | ⟨-, h⟩
  · exact absurd h (UInt32.lt_irrefl _)
  · exact absurd h (UInt32.lt_irrefl _)

section

variable {bytes : List UInt8} (hlength : bytes.length < 2 ^ 32 - 1)
include hlength

/-- The words hold the line and the column of every offset. -/
theorem toNat_inBytes (offset : Nat) :
    (inBytes bytes offset).line.toNat = (behind (bytes.take offset)).1 ∧
      (inBytes bytes offset).column.toNat = (behind (bytes.take offset)).2 := by
  have hle := behind_le (bytes.take offset)
  have htake : (bytes.take offset).length ≤ bytes.length := List.length_take_le' _ _
  have hsize : UInt32.size = 2 ^ 32 := rfl
  exact ⟨UInt32.toNat_ofNat_of_lt' (by omega), UInt32.toNat_ofNat_of_lt' (by omega)⟩

/-- A later offset has a later place. -/
theorem before_of_lt {first second : Nat} (hlt : first < second) (hle : second ≤ bytes.length) :
    (inBytes bytes first).Before (inBytes bytes second) := by
  obtain ⟨hline, hcolumn⟩ := toNat_inBytes hlength first
  obtain ⟨hline', hcolumn'⟩ := toNat_inBytes hlength second
  have hsplit : bytes.take second = bytes.take first ++ (bytes.drop first).take (second - first) := by
    rw [← List.take_add, Nat.add_sub_cancel' hlt.le]
  have hmore : (bytes.drop first).take (second - first) ≠ [] := by
    apply List.ne_nil_of_length_pos
    rw [List.length_take, List.length_drop]
    omega
  have hlater := behind_lt_append (bytes.take first) hmore
  rw [← hsplit, Prod.Lex.toLex_lt_toLex, ← hline, ← hline', ← hcolumn, ← hcolumn'] at hlater
  exact hlater.imp UInt32.lt_iff_toNat_lt.2
    (And.imp UInt32.toNat_inj.1 UInt32.lt_iff_toNat_lt.2)

/-- The start of the line and the column give the offset back. -/
theorem getElem?_lineStarts {offset : Nat} (hle : offset ≤ bytes.length) :
    ∃ start, (lineStarts bytes)[(inBytes bytes offset).line.toNat - 1]? = some start ∧
      start + ((inBytes bytes offset).column.toNat - 1) = offset := by
  obtain ⟨hline, hcolumn⟩ := toNat_inBytes hlength offset
  have hlast := getLast_lineStarts (bytes.take offset)
  have hpos : 1 ≤ (behind (bytes.take offset)).2 := by
    rw [behind_eq]
    exact Nat.le_add_left _ _
  rw [List.length_take_of_le hle] at hlast
  have hstarts := lineStarts_append (bytes.take offset) (bytes.drop offset)
  rw [List.take_append_drop] at hstarts
  have hnonempty := List.length_pos_iff.2 (lineStarts_ne_nil (bytes.take offset))
  refine ⟨(lineStarts (bytes.take offset)).getLast (lineStarts_ne_nil _), ?_, by omega⟩
  rw [hline, ← length_lineStarts, hstarts, List.getElem?_append_left (by omega),
    ← List.getLast?_eq_getElem?]
  exact List.getLast?_eq_some_getLast _

end

theorem inBytes_of_length_le {bytes : List UInt8} {offset : Nat} (h : bytes.length ≤ offset) :
    inBytes bytes offset = inBytes bytes bytes.length := by
  rw [inBytes, inBytes, List.take_of_length_le h, List.take_length]

end Position

/-- A diagnostic points into the source text or at its end. -/
theorem offset_le_of_mem_diagnosticsOf {source : String} {diagnostic : Diagnostic}
    (h : diagnostic ∈ diagnosticsOf source) : diagnostic.offset ≤ byteLength source := by
  obtain ⟨token, htoken, hoffset⟩ := (pointsInto_of_mem_diagnosticsOf h).token
  rw [tokens_eq] at htoken
  rw [← hoffset]
  rcases List.mem_append.1 htoken with htoken | htoken
  · have hlt := (mem_scan htoken).2.2.2
    rw [Nat.zero_add] at hlt
    exact hlt.le
  · rw [List.mem_singleton.1 htoken]
    exact Nat.le_refl _

/-- How the places of a source text stand for its offsets. -/
structure Position.TellsOffsets (source : String) : Prop where
  /-- The line counts the line feeds in front of an offset, and the column the bytes behind the last of
  them, both from 1, in words that hold these numbers. -/
  exact : ∀ offset ≤ byteLength source,
    (ofOffset source offset).line.toNat =
        ((utf8Bytes source.toList).take offset).count 10 + 1 ∧
      (ofOffset source offset).column.toNat =
        (((utf8Bytes source.toList).take offset).reverse.takeWhile (· ≠ 10)).length + 1
  ordered : ∀ first second, first < second → second ≤ byteLength source →
    (ofOffset source first).Before (ofOffset source second)
  /-- From the start of the line, the column leads to the offset. -/
  found : ∀ offset ≤ byteLength source, 1 ≤ (ofOffset source offset).line.toNat ∧
    1 ≤ (ofOffset source offset).column.toNat ∧
      ∃ start, (lineStarts (utf8Bytes source.toList))[(ofOffset source offset).line.toNat - 1]? =
          some start ∧
        start + ((ofOffset source offset).column.toNat - 1) = offset
  beyond : ∀ offset, byteLength source ≤ offset →
    ofOffset source offset = ofOffset source (byteLength source)
  /-- Two diagnostics that are shown at one place are about one offset. -/
  diagnostics : ∀ diagnostic ∈ diagnosticsOf source, ∀ other ∈ diagnosticsOf source,
    diagnostic.place = other.place → diagnostic.offset = other.offset

/-- The places of a source text whose length is counted in words determine its offsets. -/
theorem Position.tellsOffsets_of_byteLength_lt {source : String}
    (h : byteLength source < 2 ^ 32 - 1) : TellsOffsets source where
  exact offset _ := by
    obtain ⟨hline, hcolumn⟩ := toNat_inBytes h offset
    rw [behind_eq] at hline hcolumn
    exact ⟨hline, hcolumn⟩
  ordered _ _ hlt hle := before_of_lt h hlt hle
  found offset hle := by
    obtain ⟨hline, hcolumn⟩ := toNat_inBytes h offset
    rw [behind_eq] at hline hcolumn
    exact ⟨hline ▸ Nat.le_add_left _ _, hcolumn ▸ Nat.le_add_left _ _, getElem?_lineStarts h hle⟩
  beyond _ := inBytes_of_length_le
  diagnostics := by
    intro diagnostic hdiagnostic other hother hplace
    have hle := offset_le_of_mem_diagnosticsOf hdiagnostic
    have hle' := offset_le_of_mem_diagnosticsOf hother
    rw [(pointsInto_of_mem_diagnosticsOf hdiagnostic).place,
      (pointsInto_of_mem_diagnosticsOf hother).place] at hplace
    rcases Nat.lt_trichotomy diagnostic.offset other.offset with hlt | heq | hlt
    · exact absurd hplace (before_of_lt h hlt hle').ne
    · exact heq
    · exact absurd hplace.symm (before_of_lt h hlt hle).ne

/-- An offset at a line feed, those behind each of two line feeds in a row, and the end of the text. -/
theorem Position.tellsOffsets_line_feeds :
    byteLength "(entity a)\n\n(entity é" < 2 ^ 32 - 1 ∧ TellsOffsets "(entity a)\n\n(entity é" ∧
      [10, 11, 12, 22].map (ofOffset "(entity a)\n\n(entity é") =
        [⟨1, 11⟩, ⟨2, 1⟩, ⟨3, 1⟩, ⟨3, 11⟩] ∧
      (diagnosticsOf "(entity a)\n\n(entity é").map (fun told => (told.offset, told.place)) =
        [(20, ⟨3, 9⟩), (22, ⟨3, 11⟩)] := by
  have hlength : byteLength "(entity a)\n\n(entity é" < 2 ^ 32 - 1 := by decide +kernel
  exact ⟨hlength, tellsOffsets_of_byteLength_lt hlength, by decide +kernel, by decide +kernel⟩

end ErDiagram
