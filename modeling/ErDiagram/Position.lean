/-!
Places in a source text. A text counts as its UTF-8 bytes: an offset is a number of bytes from the
start, lines and columns are counted from 1, and a column is a number of bytes as well, so an
offset inside a character has a place of its own. Offsets beyond the end stand for the end.
-/

namespace ErDiagram

/-- The UTF-8 bytes of a run of characters. -/
def utf8Bytes (text : List Char) : List UInt8 :=
  text.flatMap String.utf8EncodeChar

/-- A line and a column, both from 1, in 32-bit words. -/
structure Position where
  line : UInt32
  column : UInt32
  deriving DecidableEq

namespace Position

/-- The line and column behind one more byte: a line feed starts the next line. -/
def step (place : Nat × Nat) (byte : UInt8) : Nat × Nat :=
  if byte = 10 then (place.1 + 1, 1) else (place.1, place.2 + 1)

/-- The line and column right behind a run of bytes, unbounded. -/
def behind (bytes : List UInt8) : Nat × Nat :=
  bytes.foldl step (1, 1)

/-- The place of an offset in some bytes. -/
def inBytes (bytes : List UInt8) (offset : Nat) : Position :=
  let place := behind (bytes.take offset)
  ⟨place.1.toUInt32, place.2.toUInt32⟩

/-- The place of a byte offset in a source text. -/
def ofOffset (source : String) (offset : Nat) : Position :=
  inBytes (utf8Bytes source.toList) offset

@[simp] theorem behind_nil : behind [] = (1, 1) := rfl

theorem behind_concat (bytes : List UInt8) (byte : UInt8) :
    behind (bytes ++ [byte]) = step (behind bytes) byte := by
  simp [behind]

end Position

@[simp] theorem utf8Bytes_nil : utf8Bytes [] = [] := rfl

@[simp] theorem utf8Bytes_cons (c : Char) (text : List Char) :
    utf8Bytes (c :: text) = String.utf8EncodeChar c ++ utf8Bytes text := rfl

@[simp] theorem utf8Bytes_append (text rest : List Char) :
    utf8Bytes (text ++ rest) = utf8Bytes text ++ utf8Bytes rest := by
  simp [utf8Bytes]

end ErDiagram
