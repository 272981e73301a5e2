import ErDiagram.Proofs.Parsing
import Mathlib.Computability.Language

/-!
The words of the grammar. A word is a list of symbols, and a symbol is what the grammar knows of a
token: its kind, and of a literal whether it is one bound or a pair. The words of a field are built as
its reader is, with a limit for the fields nested in it where the reader has the depth.
-/

namespace ErDiagram

open scoped Computability

/-- What the grammar knows of a token. -/
inductive Symbol where
  /-- A token of this kind; of the literals, one that is a bound. -/
  | plain (kind : Token.Kind)
  /-- A literal that is a pair of bounds. -/
  | pair
  deriving DecidableEq

/-- The symbol of a token. A colon makes a literal a pair. -/
def Token.symbol (token : Token) : Symbol :=
  if token.kind = .cardinal ∧ ':' ∈ token.text.toList then .pair else .plain token.kind

def symbols (tokens : List Token) : List Symbol :=
  tokens.map (·.symbol)

@[simp] theorem symbols_nil : symbols [] = [] := rfl

@[simp] theorem symbols_cons (token : Token) (tokens : List Token) :
    symbols (token :: tokens) = token.symbol :: symbols tokens := rfl

@[simp] theorem symbols_append (front back : List Token) :
    symbols (front ++ back) = symbols front ++ symbols back := List.map_append

theorem Token.symbol_eq_plain {token : Token} {kind : Token.Kind} (hkind : kind ≠ .cardinal) :
    token.symbol = .plain kind ↔ token.kind = kind := by
  unfold symbol
  split
  · rename_i hpair
    rw [hpair.1]
    exact iff_of_false (by simp) (Ne.symm hkind)
  · rw [Symbol.plain.injEq]

theorem Token.symbol_pair {token : Token} (hkind : token.kind = .cardinal)
    (hcolon : ':' ∈ token.text.toList) : token.symbol = .pair :=
  if_pos ⟨hkind, hcolon⟩

theorem Token.symbol_single {token : Token} (hkind : token.kind = .cardinal)
    (hcolon : ':' ∉ token.text.toList) : token.symbol = .plain .cardinal :=
  hkind ▸ if_neg fun h => hcolon h.2

theorem Token.kind_of_symbol {token : Token}
    (h : token.symbol = .pair ∨ token.symbol = .plain .cardinal) : token.kind = .cardinal := by
  unfold symbol at h
  split at h
  · exact And.left ‹_›
  · simpa using h

/-! ### Languages -/

def letter (symbol : Symbol) : Language Symbol :=
  {[symbol]}

abbrev kindLetter (kind : Token.Kind) : Language Symbol :=
  letter (.plain kind)

abbrev keywordLetter (word : Keyword) : Language Symbol :=
  kindLetter (.reserved word)

variable {symbol other : Symbol} {words more : Language Symbol} {w : List Symbol}

theorem mem_letter_mul : w ∈ letter symbol * words ↔ ∃ rest ∈ words, w = symbol :: rest := by
  rw [Language.mem_mul]
  constructor
  · rintro ⟨_, rfl, rest, hrest, rfl⟩
    exact ⟨rest, hrest, rfl⟩
  · rintro ⟨rest, hrest, rfl⟩
    exact ⟨[symbol], rfl, rest, hrest, rfl⟩

@[simp] theorem cons_mem_letter_mul :
    other :: w ∈ letter symbol * words ↔ other = symbol ∧ w ∈ words := by
  simp [mem_letter_mul, and_comm]

@[simp] theorem nil_notMem_letter_mul : [] ∉ letter symbol * words := by
  simp [mem_letter_mul]

theorem exists_mem_letter_mul (h : ∃ w, w ∈ words) : ∃ w, w ∈ letter symbol * words := by
  obtain ⟨w, hw⟩ := h
  exact ⟨symbol :: w, cons_mem_letter_mul.2 ⟨rfl, hw⟩⟩

theorem exists_mem_mul (h : ∃ w, w ∈ words) (hmore : ∃ w, w ∈ more) : ∃ w, w ∈ words * more := by
  obtain ⟨w, hw⟩ := h
  obtain ⟨rest, hrest⟩ := hmore
  exact ⟨w ++ rest, Language.append_mem_mul hw hrest⟩

/-- Repeated words are none at all, or one and others behind it. -/
theorem mem_kstar_mul : w ∈ words∗ * more ↔ w ∈ more ∨ w ∈ words * (words∗ * more) := by
  conv_lhs => rw [← Language.one_add_self_mul_kstar_eq_kstar, add_mul, one_mul, mul_assoc]
  exact Language.mem_add _ _ _

theorem exists_mem_kstar_mul (h : ∃ w, w ∈ more) : ∃ w, w ∈ words∗ * more := by
  obtain ⟨w, hw⟩ := h
  exact ⟨w, mem_kstar_mul.2 (Or.inl hw)⟩

/-! ### The grammar -/

/-- The words of a cardinality: a pair, or two bounds. -/
def cardinalityWords : Language Symbol :=
  letter .pair + kindLetter .cardinal * kindLetter .cardinal

theorem exists_mem_cardinalityWords_mul (h : ∃ w, w ∈ words) :
    ∃ w, w ∈ cardinalityWords * words :=
  exists_mem_mul ⟨[.pair], Or.inl rfl⟩ h

/-- The words of a classification that is no subset. -/
def facetWords : Language Symbol :=
  (keywordLetter .totalCover + keywordLetter .partialCover) *
    (keywordLetter .exclusive + keywordLetter .overlapped)

theorem mem_facetWords_mul : w ∈ facetWords * words ↔
    w ∈ keywordLetter .totalCover *
        ((keywordLetter .exclusive + keywordLetter .overlapped) * words) ∨
      w ∈ keywordLetter .partialCover *
        ((keywordLetter .exclusive + keywordLetter .overlapped) * words) := by
  rw [facetWords, mul_assoc, add_mul]
  exact Language.mem_add _ _ _

/-- The words between the name of a construct and its fields. -/
def detailWords : Node.Kind → Language Symbol
  | .hierarchy => (1 + keywordLetter .type) * (facetWords + keywordLetter .subset)
  | .attribute => 1 + keywordLetter .cardinality * cardinalityWords
  | _ => 1

theorem exists_mem_detailWords (kind : Node.Kind) : ∃ w, w ∈ detailWords kind := by
  unfold detailWords
  split
  · exact exists_mem_mul ⟨[], Or.inl rfl⟩ ⟨_, Or.inr rfl⟩
  · exact ⟨[], Or.inl rfl⟩
  · exact ⟨[], rfl⟩

/-- The words behind the reserved word of a field, with those of nested fields given. -/
def bodyWords (inside : Node.Kind → Language Symbol) : Field → Language Symbol
  | .construct kind => kindLetter .identifier * (detailWords kind * (inside kind)∗)
  | .primaryKey => (kindLetter .identifier)∗
  | .branch => kindLetter .identifier * (keywordLetter .cardinality * cardinalityWords)
  | .attributeOf => kindLetter .identifier * kindLetter .identifier
  | .mention _ => kindLetter .identifier

theorem exists_mem_bodyWords (inside : Node.Kind → Language Symbol) (field : Field) :
    ∃ w, w ∈ bodyWords inside field := by
  cases field with
  | construct kind =>
      exact exists_mem_letter_mul
        (exists_mem_mul (exists_mem_detailWords kind) ⟨[], Language.nil_mem_kstar _⟩)
  | primaryKey => exact ⟨[], Language.nil_mem_kstar _⟩
  | branch => exact exists_mem_letter_mul (exists_mem_letter_mul ⟨[.pair], Or.inl rfl⟩)
  | attributeOf => exact exists_mem_letter_mul ⟨_, rfl⟩
  | mention kind => exact ⟨_, rfl⟩

/-- The words of what stands between the parentheses of a field of a construct. -/
def insideWords (owner : Node.Kind) (body : Field → Language Symbol) : Language Symbol :=
  {w | ∃ entry ∈ Field.table owner, w ∈ keywordLetter entry.1 * body entry.2}

/-- The words of the fields of a construct in which this many fields nest at most. -/
def fieldWords : Nat → Node.Kind → Language Symbol
  | 0, _ => 0
  | limit + 1, owner =>
    kindLetter .leftParen * (insideWords owner (bodyWords (fieldWords limit)) *
      kindLetter .rightParen)

/-- Each reserved word introduces one sort of field in a construct. -/
theorem Field.lookup_of_mem {owner : Node.Kind} {entry : Keyword × Field}
    (h : entry ∈ table owner) : (table owner).lookup entry.1 = some entry.2 := by
  have hall : ∀ entry ∈ table owner, (table owner).lookup entry.1 = some entry.2 := by
    cases owner <;> decide
  exact hall entry h

/-- What is a construct of its own may hold fields. -/
theorem Field.table_ne_nil {owner kind : Node.Kind} {word : Keyword}
    (h : (word, .construct kind) ∈ table owner) : table kind ≠ [] := by
  have hall : ∀ entry ∈ table owner, ∀ kind, entry.2 = .construct kind → table kind ≠ [] := by
    cases owner <;> simp [table]
  exact hall _ h kind rfl

theorem mem_insideWords {owner : Node.Kind} {body : Field → Language Symbol} {w : List Symbol} :
    w ∈ insideWords owner body ↔ ∃ word field rest, (Field.table owner).lookup word = some field ∧
      rest ∈ body field ∧ w = .plain (.reserved word) :: rest := by
  constructor
  · rintro ⟨⟨word, field⟩, hentry, hw⟩
    obtain ⟨rest, hrest, rfl⟩ := mem_letter_mul.1 hw
    exact ⟨word, field, rest, Field.lookup_of_mem hentry, hrest, rfl⟩
  · rintro ⟨word, field, rest, hlookup, hrest, rfl⟩
    exact ⟨(word, field), Field.mem_table hlookup, cons_mem_letter_mul.2 ⟨rfl, hrest⟩⟩

theorem exists_mem_insideWords {owner : Node.Kind} {body : Field → Language Symbol}
    (howner : Field.table owner ≠ []) (hbody : ∀ field, ∃ w, w ∈ body field) :
    ∃ w, w ∈ insideWords owner body := by
  obtain ⟨entry, hentry⟩ := List.exists_mem_of_ne_nil _ howner
  obtain ⟨w, hw⟩ := exists_mem_letter_mul (hbody entry.2)
  exact ⟨w, entry, hentry, hw⟩

theorem insideWords_mul (owner : Node.Kind) (body : Field → Language Symbol)
    (later : Language Symbol) :
    insideWords owner body * later = insideWords owner fun field => body field * later := by
  ext w
  simp only [mem_insideWords, Language.mem_mul]
  constructor
  · rintro ⟨_, ⟨word, field, front, hlookup, hfront, rfl⟩, back, hback, rfl⟩
    exact ⟨word, field, _, hlookup, ⟨front, hfront, back, hback, rfl⟩, rfl⟩
  · rintro ⟨word, field, _, hlookup, ⟨front, hfront, back, hback, rfl⟩, rfl⟩
    exact ⟨_, ⟨word, field, front, hlookup, hfront, rfl⟩, back, hback, rfl⟩

end ErDiagram
