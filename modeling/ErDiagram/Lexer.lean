import ErDiagram.Position
import ErDiagram.Token

/-!
Cutting a source text into tokens. Blanks and comments separate tokens and are dropped; at every
other character the longest token that starts there is cut, and a character that starts none is an
invalid token of its own. A lexer answers tokens one at a time and repeats the end of input for
ever; read as an iterator it stops behind the first end of input.
-/

namespace ErDiagram

/-- Spaces, tabs, carriage returns and line feeds separate tokens. -/
def isBlank (c : Char) : Bool :=
  c = ' ' || c = '\t' || c = '\r' || c = '\n'

/-- Letters of the ASCII alphabet, the underscore and the hyphen start a word. -/
def isWordStart (c : Char) : Bool :=
  c.isAlpha || c = '_' || c = '-'

/-- A word goes on with the characters that start one and with ASCII digits. -/
def isWordChar (c : Char) : Bool :=
  isWordStart c || c.isDigit

/-- Whether a bound of a cardinality starts here: a digit, or an `n` or `N` that no word goes on
from. -/
def startsBound : List Char → Bool
  | [] => false
  | c :: rest =>
    c.isDigit || ((c = 'n' || c = 'N') && !(rest.head?.any isWordChar))

/-- Cuts one bound off the front: a single `n` or `N`, or else the digits that stand there. -/
def cutBound : List Char → List Char × List Char
  | [] => ([], [])
  | c :: rest =>
    if c = 'n' || c = 'N' then ([c], rest)
    else ((c :: rest).takeWhile Char.isDigit, (c :: rest).dropWhile Char.isDigit)

/-- Cuts a cardinality literal off the front: one bound, and a second one if a colon joins it. -/
def cutCardinal (text : List Char) : List Char × List Char :=
  let (first, rest) := cutBound text
  match rest with
  | ':' :: more =>
    if startsBound more then
      let (second, after) := cutBound more
      (first ++ ':' :: second, after)
    else (first, rest)
  | _ => (first, rest)

/-- Cuts the token that starts with `c`: its kind, its text and what is left behind it. -/
def cutToken (c : Char) (rest : List Char) : Token.Kind × List Char × List Char :=
  if c = '(' then (.leftParen, [c], rest)
  else if c = ')' then (.rightParen, [c], rest)
  else if startsBound (c :: rest) then
    let (text, after) := cutCardinal (c :: rest)
    (.cardinal, text, after)
  else if isWordStart c then
    let word := c :: rest.takeWhile isWordChar
    (Token.Kind.ofWord (String.ofList word), word, rest.dropWhile isWordChar)
  else (.invalid, [c], rest)

/-- Drops blanks and comments, counting bytes on from `offset`. A comment runs from a semicolon to
the next line feed or to the end; `inComment` says whether the text starts inside one. -/
def skipTrivia (inComment : Bool) (offset : Nat) : List Char → Nat × List Char
  | [] => (offset, [])
  | c :: rest =>
    if inComment then skipTrivia (c ≠ '\n') (offset + c.utf8Size) rest
    else if isBlank c then skipTrivia false (offset + c.utf8Size) rest
    else if c = ';' then skipTrivia true (offset + c.utf8Size) rest
    else (offset, c :: rest)

/-- A reading of a source text: what is still unread, the byte offset where that starts, and
whether the iterator has answered the end of input. -/
structure Lexer where
  source : String
  unread : List Char
  offset : Nat
  finished : Bool
  deriving DecidableEq

namespace Lexer

def ofSource (source : String) : Lexer :=
  ⟨source, source.toList, 0, false⟩

/-- The next token. Once the source is used up this is the end of input, again and again. -/
def nextToken (lexer : Lexer) : Token × Lexer :=
  match skipTrivia false lexer.offset lexer.unread with
  | (offset, []) => (⟨.endOfInput, "", offset⟩, { lexer with unread := [], offset })
  | (offset, c :: rest) =>
    let (kind, text, after) := cutToken c rest
    (⟨kind, String.ofList text, offset⟩,
      { lexer with unread := after, offset := offset + (utf8Bytes text).length })

/-- The iterator: the next token, or nothing once it has answered the end of input itself. -/
def next? (lexer : Lexer) : Option Token × Lexer :=
  if lexer.finished then (none, lexer)
  else
    let (token, lexer) := lexer.nextToken
    (some token, { lexer with finished := token.kind = .endOfInput })

inductive Call where
  | nextToken
  | next
  | source
  deriving DecidableEq

inductive Reply where
  | token (token : Token)
  | nothing
  | source (text : String)
  deriving DecidableEq

def answer (lexer : Lexer) : Call → Reply × Lexer
  | .nextToken => (.token lexer.nextToken.1, lexer.nextToken.2)
  | .next =>
    match lexer.next? with
    | (some token, after) => (.token token, after)
    | (none, after) => (.nothing, after)
  | .source => (.source lexer.source, lexer)

def answers (lexer : Lexer) : List Call → List Reply
  | [] => []
  | call :: calls => (lexer.answer call).1 :: (lexer.answer call).2.answers calls

/-! ### Progress -/

theorem length_skipTrivia_le (inComment : Bool) (offset : Nat) (text : List Char) :
    (skipTrivia inComment offset text).2.length ≤ text.length := by
  fun_induction skipTrivia inComment offset text <;> simp_all <;> omega

theorem length_cutBound_le (text : List Char) : (cutBound text).2.length ≤ text.length := by
  unfold cutBound
  split
  · exact Nat.le_refl _
  · split
    · simp
    · exact (List.dropWhile_sublist _).length_le

theorem length_cutBound_lt {text : List Char} (h : startsBound text) :
    (cutBound text).2.length < text.length := by
  cases text with
  | nil => simp [startsBound] at h
  | cons c rest =>
    by_cases hn : c = 'n' ∨ c = 'N'
    · simp [cutBound, hn]
    · have hd : c.isDigit := by simpa [startsBound, hn] using h
      have := (List.dropWhile_sublist Char.isDigit (l := rest)).length_le
      simp [cutBound, hn, hd]
      omega

theorem length_cutCardinal_lt {text : List Char} (h : startsBound text) :
    (cutCardinal text).2.length < text.length := by
  have hlt := length_cutBound_lt h
  unfold cutCardinal
  split
  rename_i first rest hcut
  rw [hcut] at hlt
  split
  · rename_i more
    split
    · have := length_cutBound_le more
      simp at hlt ⊢
      omega
    · exact hlt
  · exact hlt

theorem length_cutToken_lt (c : Char) (rest : List Char) :
    (cutToken c rest).2.2.length < (c :: rest).length := by
  unfold cutToken
  split
  · simp
  split
  · simp
  split
  · exact length_cutCardinal_lt ‹_›
  split
  · have := (List.dropWhile_sublist isWordChar (l := rest)).length_le
    simp
    omega
  · simp

theorem length_unread_nextToken_lt {lexer : Lexer} (h : lexer.nextToken.1.kind ≠ .endOfInput) :
    lexer.nextToken.2.unread.length < lexer.unread.length := by
  have hle := length_skipTrivia_le false lexer.offset lexer.unread
  unfold nextToken at h ⊢
  rcases hskip : skipTrivia false lexer.offset lexer.unread with ⟨offset, _ | ⟨c, rest⟩⟩
  · simp [hskip] at h
  · rw [hskip] at hle
    exact Nat.lt_of_lt_of_le (length_cutToken_lt c rest) hle

/-- The tokens that are left, the end of input last, behind those already found. -/
def tokensOnto (found : List Token) (lexer : Lexer) : List Token :=
  if lexer.nextToken.1.kind = .endOfInput then (lexer.nextToken.1 :: found).reverse
  else tokensOnto (lexer.nextToken.1 :: found) lexer.nextToken.2
termination_by lexer.unread.length
decreasing_by exact length_unread_nextToken_lt ‹_›

/-- The tokens of a source text, the end of input last. -/
def tokens (source : String) : List Token :=
  tokensOnto [] (ofSource source)

end Lexer
end ErDiagram
