/-!
The characters with the Unicode property White_Space, and texts as words between them.
-/

namespace ErDiagram

/-- The ranges of code points, ends included, that have the property White_Space. -/
def whiteSpaceRanges : List (Nat × Nat) :=
  [(0x09, 0x0D), (0x20, 0x20), (0x85, 0x85), (0xA0, 0xA0), (0x1680, 0x1680), (0x2000, 0x200A),
    (0x2028, 0x2029), (0x202F, 0x202F), (0x205F, 0x205F), (0x3000, 0x3000)]

def isWhiteSpace (c : Char) : Bool :=
  whiteSpaceRanges.any fun range => range.1 ≤ c.toNat && c.toNat ≤ range.2

/-- The words of a text when `started` has been read of the first one. -/
def wordsFrom (started : List Char) : List Char → List (List Char)
  | [] => if started = [] then [] else [started]
  | c :: rest =>
    if isWhiteSpace c then
      if started = [] then wordsFrom [] rest else started :: wordsFrom [] rest
    else wordsFrom (started ++ [c]) rest

/-- The words of a text: its longest runs of characters that are not white space. -/
def words (text : String) : List String :=
  (wordsFrom [] text.toList).map String.ofList

/-- No visible ASCII character has the property White_Space. -/
theorem isWhiteSpace_of_visible {c : Char} (h : 33 ≤ c.toNat ∧ c.toNat ≤ 126) :
    isWhiteSpace c = false := by
  simp [isWhiteSpace, whiteSpaceRanges]
  omega

theorem isWhiteSpace_of_isDigit {c : Char} (h : c.isDigit) : isWhiteSpace c = false := by
  have hrange : 48 ≤ c.toNat ∧ c.toNat ≤ 57 := Char.isDigit_iff_toNat.1 h
  exact isWhiteSpace_of_visible (by omega)

end ErDiagram
