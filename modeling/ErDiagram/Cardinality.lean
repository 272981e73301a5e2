/-!
Cardinalities: a smallest and a largest number of participants, each a count in a 32-bit word or
"many". Written, many is `N`, a count is its decimal digits and a cardinality is its two bounds
joined by a colon; reading also takes `n` and leading zeros.
-/

namespace ErDiagram

/-- One end of a cardinality. -/
inductive Bound where
  | count (n : UInt32)
  | many
  deriving DecidableEq

/-- A smallest and a largest number of participants, in no enforced order. -/
structure Cardinality where
  min : Bound
  max : Bound
  deriving DecidableEq

/-- The whole of a text that is no bound, or no cardinality. -/
structure InvalidCardinality where
  text : String
  deriving DecidableEq

def InvalidCardinality.message (error : InvalidCardinality) : String :=
  "invalid cardinality '" ++ error.text ++ "'"

namespace Bound

/-- The written form: decimal digits without leading zeros, or `N`. -/
def text : Bound → String
  | .count n => n.toNat.repr
  | .many => "N"

/-- The bound that some characters write: a lone `n` or `N`, or digits, at least one, whose decimal
value fits a word. -/
def ofChars? (chars : List Char) : Option Bound :=
  if chars = ['N'] ∨ chars = ['n'] then some .many
  else if chars ≠ [] ∧ chars.all Char.isDigit ∧ Nat.ofDigitChars 10 chars 0 < UInt32.size then
    some (.count (Nat.ofDigitChars 10 chars 0).toUInt32)
  else none

/-- Reads a bound; the error carries the text. -/
def ofString (text : String) : Except InvalidCardinality Bound :=
  match ofChars? text.toList with
  | some bound => .ok bound
  | none => .error ⟨text⟩

end Bound

namespace Cardinality

/-- The written form, as in `0:N`. -/
def text (cardinality : Cardinality) : String :=
  cardinality.min.text ++ ":" ++ cardinality.max.text

/-- The cardinality that some characters write: a bound on either side of the first colon. -/
def ofChars? (chars : List Char) : Option Cardinality :=
  match chars.dropWhile (· ≠ ':') with
  | [] => none
  | _ :: upper => do
    let min ← Bound.ofChars? (chars.takeWhile (· ≠ ':'))
    let max ← Bound.ofChars? upper
    some ⟨min, max⟩

/-- Reads a cardinality; the error carries the whole text, whichever bound is at fault. -/
def ofString (text : String) : Except InvalidCardinality Cardinality :=
  match ofChars? text.toList with
  | some cardinality => .ok cardinality
  | none => .error ⟨text⟩

end Cardinality
end ErDiagram
