import ErDiagram.Compile
import ErDiagram.Proofs.Scanning

/-!
Texts that are blanked out: all spaces but for the line feeds, which stay. A blanked text has no
tokens, and as it takes as many bytes as the text did, on as many lines, whatever follows it keeps
its place, and so do the complaints about it.
-/

namespace ErDiagram

/-- What stands in for a character that is blanked out: a space for each of its bytes. -/
def blankedChar (c : Char) : List Char :=
  if c = '\n' then ['\n'] else List.replicate c.utf8Size ' '

def blankedByte (byte : UInt8) : UInt8 :=
  if byte = 10 then 10 else 32

/-- The text with spaces in place of all bytes but line feeds. -/
def blanked (text : String) : String :=
  String.ofList (text.toList.flatMap blankedChar)

/-- Which of some bytes are line feeds. -/
def lineFeeds (bytes : List UInt8) : List Bool :=
  bytes.map (· = 10)

theorem lineFeeds_append (bytes rest : List UInt8) :
    lineFeeds (bytes ++ rest) = lineFeeds bytes ++ lineFeeds rest :=
  List.map_append

theorem length_eq_of_lineFeeds {bytes bytes' : List UInt8} (h : lineFeeds bytes = lineFeeds bytes') :
    bytes.length = bytes'.length := by
  have hlength := congrArg List.length h
  rwa [lineFeeds, lineFeeds, List.length_map, List.length_map] at hlength

/-! ### Blanked texts -/

/-- The bytes of a character are above the ASCII range, if it has several. -/
theorem toNat_of_mem_utf8EncodeChar {c : Char} {byte : UInt8}
    (h : byte ∈ String.utf8EncodeChar c) : byte.toNat = c.val.toNat ∨ 128 ≤ byte.toNat := by
  unfold String.utf8EncodeChar at h
  dsimp only at h
  split_ifs at h <;> simp only [List.mem_cons, List.not_mem_nil, or_false] at h
  · left
    rw [h, UInt8.toNat_ofNat']
    omega
  · right
    rcases h with rfl | rfl <;> rw [UInt8.toNat_ofNat'] <;> omega
  · right
    rcases h with rfl | rfl | rfl <;> rw [UInt8.toNat_ofNat'] <;> omega
  · right
    rcases h with rfl | rfl | rfl | rfl <;> rw [UInt8.toNat_ofNat'] <;> omega

theorem ne_ten_of_mem_utf8EncodeChar {c : Char} (h : c ≠ '\n') {byte : UInt8}
    (hbyte : byte ∈ String.utf8EncodeChar c) : byte ≠ 10 := by
  rintro rfl
  apply h
  apply Char.ext
  apply UInt32.toNat.inj
  rcases toNat_of_mem_utf8EncodeChar hbyte with heq | hle
  · exact heq.symm
  · exact absurd hle (by decide)

theorem utf8Bytes_replicate_space (count : Nat) :
    utf8Bytes (List.replicate count ' ') = List.replicate count 32 := by
  induction count with
  | zero => rfl
  | succ count ih =>
      rw [List.replicate_succ, List.replicate_succ, utf8Bytes_cons, ih]
      rfl

theorem utf8Bytes_blankedChar (c : Char) :
    utf8Bytes (blankedChar c) = (String.utf8EncodeChar c).map blankedByte := by
  unfold blankedChar
  split
  · rename_i h
    rw [h]
    rfl
  · rename_i h
    rw [utf8Bytes_replicate_space, eq_comm, List.eq_replicate_iff, List.length_map,
      String.length_utf8EncodeChar]
    refine ⟨rfl, fun byte hbyte => ?_⟩
    obtain ⟨original, horiginal, rfl⟩ := List.mem_map.1 hbyte
    rw [blankedByte, if_neg (ne_ten_of_mem_utf8EncodeChar h horiginal)]

/-- Blanking out a text puts a space in place of each of its bytes but the line feeds. -/
theorem utf8Bytes_blanked (text : String) :
    utf8Bytes (blanked text).toList = (utf8Bytes text.toList).map blankedByte := by
  rw [blanked, String.toList_ofList]
  induction text.toList with
  | nil => rfl
  | cons c rest ih =>
      rw [List.flatMap_cons, utf8Bytes_append, utf8Bytes_cons, List.map_append,
        utf8Bytes_blankedChar, ih]

/-- A blanked text has its line feeds where the text has them. -/
theorem lineFeeds_blanked (text : String) :
    lineFeeds (utf8Bytes (blanked text).toList) = lineFeeds (utf8Bytes text.toList) := by
  rw [utf8Bytes_blanked, lineFeeds, lineFeeds, List.map_map]
  apply List.map_congr_left
  intro byte _
  by_cases h : byte = 10
  · rw [h]
    rfl
  · simp [blankedByte, h]

theorem isBlank_of_mem_blankedChar {c d : Char} (h : d ∈ blankedChar c) : isBlank d = true := by
  unfold blankedChar at h
  split at h
  · rw [List.mem_singleton.1 h]
    rfl
  · rw [List.eq_of_mem_replicate h]
    rfl

theorem scan_of_isBlank {text : List Char} (h : ∀ c ∈ text, isBlank c = true) (offset : Nat) :
    scan offset text = [] := by
  suffices hskip : ∃ stop, skipTrivia false offset text = (stop, []) by
    obtain ⟨stop, hskip⟩ := hskip
    exact scan_of_skipTrivia_nil hskip
  induction text generalizing offset with
  | nil => exact ⟨offset, rfl⟩
  | cons c rest ih =>
      obtain ⟨hc, hrest⟩ := List.forall_mem_cons.1 h
      rw [skipTrivia, if_neg (by decide), if_pos hc]
      exact ih hrest _

/-- A blanked text has no tokens. -/
theorem scan_blanked (offset : Nat) (text : String) : scan offset (blanked text).toList = [] := by
  apply scan_of_isBlank
  intro c hc
  rw [blanked, String.toList_ofList] at hc
  obtain ⟨d, -, hd⟩ := List.mem_flatMap.1 hc
  exact isBlank_of_mem_blankedChar hd

/-! ### Places count line feeds -/

theorem behind_eq_foldl (bytes : List UInt8) :
    Position.behind bytes = (lineFeeds bytes).foldl
      (fun place feed => if feed then (place.1 + 1, 1) else (place.1, place.2 + 1)) (1, 1) := by
  rw [lineFeeds, List.foldl_map]
  unfold Position.behind
  congr 1
  funext place byte
  simp [Position.step]

theorem inBytes_of_lineFeeds {bytes bytes' : List UInt8} (h : lineFeeds bytes = lineFeeds bytes') :
    Position.inBytes bytes = Position.inBytes bytes' := by
  funext offset
  have htake : lineFeeds (bytes.take offset) = lineFeeds (bytes'.take offset) := by
    rw [lineFeeds, lineFeeds, List.map_take, List.map_take]
    exact congrArg (List.take offset) h
  unfold Position.inBytes
  rw [behind_eq_foldl, behind_eq_foldl, htake]

namespace Compile

theorem faultFinding_of_lineFeeds {bytes bytes' : List UInt8}
    (h : lineFeeds bytes = lineFeeds bytes') : faultFinding bytes = faultFinding bytes' := by
  have hoffset : offsetOf bytes = offsetOf bytes' := by
    funext token
    cases token with
    | none => exact length_eq_of_lineFeeds h
    | some token => rfl
  have hdiagnostic : diagnosticAt bytes = diagnosticAt bytes' := by
    funext token category message
    unfold diagnosticAt
    rw [hoffset, inBytes_of_lineFeeds h]
  funext stop
  unfold faultFinding diagnosticOf
  rw [hoffset, hdiagnostic]

theorem lexicalFindings_of_lineFeeds {bytes bytes' : List UInt8}
    (h : lineFeeds bytes = lineFeeds bytes') (tokens : List Token) :
    lexicalFindings bytes tokens = lexicalFindings bytes' tokens := by
  have hfinding : lexicalFinding bytes = lexicalFinding bytes' := by
    funext token
    unfold lexicalFinding
    rw [inBytes_of_lineFeeds h]
  rw [lexicalFindings, lexicalFindings, hfinding]

end Compile
end ErDiagram
