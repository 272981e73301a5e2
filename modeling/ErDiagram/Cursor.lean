import ErDiagram.Lexer

/-!
Cutting a source text into tokens byte by byte. A cursor goes through the UTF-8 bytes of a text and
looks at single bytes only: a comment is passed over without regard to the characters in it, and a
character that starts no token is passed up to the first byte of the next one. The text of a token
is a slice of the bytes, and there is no slice where one of its ends is inside a character. A cursor
answers what a lexer is asked.
-/

namespace ErDiagram

/-! ### Classes of bytes -/

namespace Byte

/-- Space, tab, carriage return and line feed. -/
def isBlank (byte : UInt8) : Bool :=
  byte = 32 || byte = 9 || byte = 13 || byte = 10

def isDigit (byte : UInt8) : Bool :=
  48 ≤ byte && byte ≤ 57

def isMany (byte : UInt8) : Bool :=
  byte = 78 || byte = 110

/-- The ASCII letters, the underscore and the hyphen. -/
def isWordStart (byte : UInt8) : Bool :=
  (65 ≤ byte && byte ≤ 90) || (97 ≤ byte && byte ≤ 122) || byte = 95 || byte = 45

def isWordChar (byte : UInt8) : Bool :=
  isWordStart byte || isDigit byte

/-- The bytes of a character behind its first one. -/
def isContinuation (byte : UInt8) : Bool :=
  128 ≤ byte && byte < 192

end Byte

/-- A place in the bytes of a source text, and whether the iterator has answered the end of input. -/
structure Cursor where
  source : String
  current : Nat
  finished : Bool

namespace Cursor

section

variable (bytes : List UInt8)

/-- The first place from `place` on where no byte of a class stands. -/
def passWhile (class' : UInt8 → Bool) (place : Nat) : Nat :=
  match h : bytes[place]? with
  | some byte => if class' byte then passWhile class' (place + 1) else place
  | none => place
termination_by bytes.length - place
decreasing_by
  have hlt := (List.getElem?_eq_some_iff.1 h).1
  omega

theorem le_passWhile (class' : UInt8 → Bool) (place : Nat) :
    place ≤ passWhile bytes class' place := by
  fun_induction passWhile bytes class' place <;> omega

theorem lt_passWhile {class' : UInt8 → Bool} {place : Nat} {byte : UInt8}
    (h : bytes[place]? = some byte) (hbyte : class' byte) :
    place < passWhile bytes class' place := by
  rw [passWhile]
  split
  · rename_i heq
    rw [h] at heq
    cases heq
    rw [if_pos hbyte]
    exact le_passWhile bytes class' (place + 1)
  · rename_i heq
    rw [h] at heq
    cases heq

/-- The first place from `place` on where neither a blank nor a comment starts. -/
def skipTrivia (place : Nat) : Nat :=
  match h : bytes[place]? with
  | some byte =>
    if Byte.isBlank byte then skipTrivia (place + 1)
    else if _hcomment : byte = 59 then skipTrivia (passWhile bytes (· ≠ 10) place)
    else place
  | none => place
termination_by bytes.length - place
decreasing_by
  · have hlt := (List.getElem?_eq_some_iff.1 h).1
    omega
  · have hlt := (List.getElem?_eq_some_iff.1 h).1
    have hpass := @lt_passWhile bytes (· ≠ 10) _ _ h (by subst _hcomment; rfl)
    omega

/-- Whether a bound of a cardinality starts at a place. -/
def startsBound (place : Nat) : Bool :=
  match bytes[place]? with
  | some byte => Byte.isDigit byte || (Byte.isMany byte && !(bytes[place + 1]?.any Byte.isWordChar))
  | none => false

/-- The place behind the bound that starts at a place. -/
def boundEnd (place : Nat) : Nat :=
  if bytes[place]?.any Byte.isMany then place + 1 else passWhile bytes Byte.isDigit place

/-- The place behind the literal that starts at a place. -/
def cardinalEnd (place : Nat) : Nat :=
  let stop := boundEnd bytes place
  if bytes[stop]? = some 58 && startsBound bytes (stop + 1) then boundEnd bytes (stop + 1) else stop

/-- Whether a place is at an end of the bytes or in front of a character. -/
def isBoundary (place : Nat) : Bool :=
  place = 0 ||
    match bytes[place]? with
    | some byte => !(Byte.isContinuation byte)
    | none => place = bytes.length

/-- The text between two places. -/
def slice? (start stop : Nat) : Option String :=
  if start ≤ stop && isBoundary bytes start && isBoundary bytes stop then
    String.fromUTF8? ((bytes.take stop).drop start).toByteArray
  else none

end

/-- The bytes that a cursor goes through. -/
def bytes (cursor : Cursor) : List UInt8 :=
  utf8Bytes cursor.source.toList

/-- The token from one place to another, whose kind depends on its text. -/
def make? (cursor : Cursor) (kindOf : String → Token.Kind) (start stop : Nat) :
    Option (Token × Cursor) :=
  (slice? cursor.bytes start stop).map fun text =>
    (⟨kindOf text, text, start⟩, { cursor with current := stop })

/-- The next token, or nothing if its text is no slice of the bytes. -/
def nextToken? (cursor : Cursor) : Option (Token × Cursor) :=
  let bytes := cursor.bytes
  let start := skipTrivia bytes cursor.current
  match bytes[start]? with
  | none => cursor.make? (fun _ => .endOfInput) start start
  | some byte =>
    if byte = 40 then cursor.make? (fun _ => .leftParen) start (start + 1)
    else if byte = 41 then cursor.make? (fun _ => .rightParen) start (start + 1)
    else if startsBound bytes start then
      cursor.make? (fun _ => .cardinal) start (cardinalEnd bytes start)
    else if Byte.isWordStart byte then
      cursor.make? .ofWord start (passWhile bytes Byte.isWordChar start)
    else cursor.make? (fun _ => .invalid) start (passWhile bytes Byte.isContinuation (start + 1))

/-- The iterator: the next token, or none once it has answered the end of input itself. -/
def next? (cursor : Cursor) : Option (Option Token × Cursor) :=
  if cursor.finished then some (none, cursor)
  else cursor.nextToken?.map fun (token, after) =>
    (some token, { after with finished := token.kind = .endOfInput })

def answer? (cursor : Cursor) : Lexer.Call → Option (Lexer.Reply × Cursor)
  | .nextToken => cursor.nextToken?.map fun (token, after) => (.token token, after)
  | .next => cursor.next?.map fun (token?, after) => (token?.elim .nothing .token, after)
  | .source => some (.source cursor.source, cursor)

/-- Answers calls one after another, unless there is a slice that fails. -/
def answers? (cursor : Cursor) : List Lexer.Call → Option (List Lexer.Reply)
  | [] => some []
  | call :: calls =>
    (cursor.answer? call).bind fun (reply, after) => (after.answers? calls).map (reply :: ·)

def ofSource (source : String) : Cursor :=
  ⟨source, 0, false⟩

end Cursor
end ErDiagram
