import ErDiagram.Json

/-!
A reader of JSON texts whose numbers are natural numbers. White space may stand around every value,
bracket and separator, and characters in strings may be escaped, also those that are never written so;
only escaped surrogates are not read.
-/

namespace ErDiagram.Json

def isSpace (c : Char) : Bool :=
  c = ' ' || c = '\t' || c = '\n' || c = '\r'

def skipSpace (text : List Char) : List Char :=
  text.dropWhile isSpace

/-! ### Strings -/

/-- The value of a hexadecimal digit, in either case. -/
def hexValue? (c : Char) : Option Nat :=
  if c.isDigit then some (c.toNat - '0'.toNat)
  else if 'a' ≤ c ∧ c ≤ 'f' then some (c.toNat - 'a'.toNat + 10)
  else if 'A' ≤ c ∧ c ≤ 'F' then some (c.toNat - 'A'.toNat + 10)
  else none

/-- The character whose code point four hexadecimal digits give, unless they give a surrogate. -/
def ofHex? (a b c d : Char) : Option Char := do
  let a ← hexValue? a
  let b ← hexValue? b
  let c ← hexValue? c
  let d ← hexValue? d
  let code := 16 * (16 * (16 * a + b) + c) + d
  if code.isValidChar then some (Char.ofNat code) else none

/-- The character that a letter stands for behind a backslash. -/
def ofEscape? (letter : Char) : Option Char :=
  if letter = '"' ∨ letter = '\\' ∨ letter = '/' then some letter
  else if letter = 'b' then some '\x08'
  else if letter = 't' then some '\t'
  else if letter = 'n' then some '\n'
  else if letter = 'f' then some '\x0c'
  else if letter = 'r' then some '\r'
  else none

/-- The characters of a string up to its closing quote, and what stands behind it. -/
def readString : List Char → Option (List Char × List Char)
  | [] => none
  | '"' :: rest => some ([], rest)
  | '\\' :: 'u' :: a :: b :: c :: d :: rest => do
    let first ← ofHex? a b c d
    let (chars, rest) ← readString rest
    some (first :: chars, rest)
  | '\\' :: letter :: rest => do
    let first ← ofEscape? letter
    let (chars, rest) ← readString rest
    some (first :: chars, rest)
  | c :: rest =>
    if c = '\\' ∨ c.toNat < 0x20 then none
    else do
      let (chars, rest) ← readString rest
      some (c :: chars, rest)

/-! ### Numbers -/

/-- The number at the front of a text, which has no leading zeros, and what stands behind it. -/
def readNumber (text : List Char) : Option (Nat × List Char) :=
  let digits := text.takeWhile Char.isDigit
  if digits = [] ∨ digits.head? = some '0' ∧ digits ≠ ['0'] then none
  else some (Nat.ofDigitChars 10 digits 0, text.dropWhile Char.isDigit)

/-! ### Values -/

section

variable {α : Type}

/-- Parts with commas between them up to a closing bracket, and what stands behind it. At most as many
parts are read as the budget allows. -/
def readParts (closing : Char) (read : List Char → Option (α × List Char)) :
    Nat → List Char → Option (List α × List Char)
  | 0, _ => none
  | budget + 1, text => do
    let (first, text) ← read (skipSpace text)
    match skipSpace text with
    | [] => none
    | c :: text =>
      if c = closing then some ([first], text)
      else if c = ',' then do
        let (parts, text) ← readParts closing read budget text
        some (first :: parts, text)
      else none

/-- The parts between brackets, of which the opening one has been read. -/
def readBracketed (closing : Char) (read : List Char → Option (α × List Char)) (budget : Nat)
    (text : List Char) : Option (List α × List Char) :=
  if (skipSpace text).head? = some closing then some ([], (skipSpace text).tail)
  else readParts closing read budget text

/-- A member of an object: a string, a colon and a value. -/
def readMember (read : List Char → Option (α × List Char)) :
    List Char → Option ((String × α) × List Char)
  | '"' :: text => do
    let (key, text) ← readString text
    match skipSpace text with
    | ':' :: text => do
      let (value, text) ← read (skipSpace text)
      some ((String.ofList key, value), text)
    | _ => none
  | _ => none

end

/-- The value at the front of a text, and what stands behind it. The budget bounds how deep values are
nested and how many parts they have. -/
def readValue : Nat → List Char → Option (Json × List Char)
  | 0, _ => none
  | budget + 1, text =>
    match text with
    | '"' :: text => do
      let (chars, text) ← readString text
      some (.string (String.ofList chars), text)
    | '[' :: text => do
      let (items, text) ← readBracketed ']' (readValue budget) budget text
      some (.array items, text)
    | '\x7b' :: text => do
      let (members, text) ← readBracketed '\x7d' (readMember (readValue budget)) budget text
      some (.object members, text)
    | 'n' :: 'u' :: 'l' :: 'l' :: text => some (.null, text)
    | text => do
      let (n, text) ← readNumber text
      some (.number n, text)

/-- The value that a text writes. -/
def read? (text : String) : Option Json := do
  let (value, rest) ← readValue text.length (skipSpace text.toList)
  if skipSpace rest = [] then some value else none

end ErDiagram.Json
