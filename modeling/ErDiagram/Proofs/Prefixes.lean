import ErDiagram.Proofs.Lexemes
import ErDiagram.Proofs.Wording

/-!
Beginnings of declarations. The words of the grammar are what tokens make that write a declaration:
reading such tokens without refusing anything leads to their end, and each word can be put in tokens
that are so read. So the words settle which tokens begin a declaration and which complete one.
-/

namespace ErDiagram

open scoped Computability

/-- A word can be put in tokens that are spelled, with literals that stand for values. -/
def Spellable (w : List Symbol) : Prop :=
  ∃ tokens : List Token, symbols tokens = w ∧ ∀ token ∈ tokens, token.Spelled ∧ ¬token.OutOfRange

theorem Spellable.append {front back : List Symbol} (h : Spellable front) (hback : Spellable back) :
    Spellable (front ++ back) := by
  obtain ⟨tokens, rfl, htokens⟩ := h
  obtain ⟨others, rfl, hothers⟩ := hback
  exact ⟨tokens ++ others, symbols_append _ _, List.forall_mem_append.2 ⟨htokens, hothers⟩⟩

/-- Each word of a language can be put in tokens. -/
def Writable (words : Language Symbol) : Prop :=
  ∀ w ∈ words, Spellable w

namespace Writable

variable {words more : Language Symbol}

theorem one : Writable 1 := by
  rintro _ rfl
  exact ⟨[], rfl, List.forall_mem_nil _⟩

theorem add (h : Writable words) (hmore : Writable more) : Writable (words + more) := by
  intro w hw
  rcases (Language.mem_add _ _ _).1 hw with hw | hw
  · exact h w hw
  · exact hmore w hw

theorem mul (h : Writable words) (hmore : Writable more) : Writable (words * more) := by
  intro w hw
  obtain ⟨front, hfront, back, hback, rfl⟩ := Language.mem_mul.1 hw
  exact (h front hfront).append (hmore back hback)

theorem kstar (h : Writable words) : Writable words∗ := by
  intro w hw
  obtain ⟨all, rfl, hall⟩ := Language.mem_kstar.1 hw
  induction all with
  | nil => exact one [] rfl
  | cons first rest ih =>
      obtain ⟨hfirst, hrest⟩ := List.forall_mem_cons.1 hall
      exact (h first hfirst).append (ih hrest (Language.join_mem_kstar hrest))

theorem letter {kind : Token.Kind} {text : String} {symbol : Symbol}
    (htext : IsToken kind text.toList) (hsymbol : (Token.mk kind text 0).symbol = symbol)
    (hrange : ¬(Token.mk kind text 0).OutOfRange) : Writable (letter symbol) := by
  rintro _ rfl
  refine ⟨[⟨kind, text, 0⟩], by simp [hsymbol], fun token htoken => ?_⟩
  rw [List.mem_singleton.1 htoken]
  exact ⟨htext, hrange⟩

/-- A token that is no literal is spelled as its kind asks for. -/
theorem kindLetter {kind : Token.Kind} {text : String} (htext : IsToken kind text.toList)
    (hkind : kind ≠ .cardinal) : Writable (kindLetter kind) := by
  have hsymbol : (Token.mk kind text 0).symbol = .plain kind := (Token.symbol_eq_plain hkind).2 rfl
  refine letter htext hsymbol ?_
  rintro (⟨h, -⟩ | ⟨h, -⟩)
  · rw [hsymbol] at h
    cases h
  · rw [hsymbol] at h
    exact hkind (Symbol.plain.inj h)

theorem keywordLetter (word : Keyword) : Writable (keywordLetter word) := by
  have hspelled : word.isSpelled word.name := by simp [Keyword.isSpelled, Keyword.name]
  exact kindLetter (Keyword.isToken_of_isSpelled hspelled) (by simp)

theorem name : Writable (ErDiagram.kindLetter .identifier) :=
  @kindLetter _ "a" (by decide) (by decide)

theorem cardinalityWords : Writable cardinalityWords := by
  have hpair : Cardinality.ofString "n:n" = .ok ⟨.many, .many⟩ := by decide
  have hbound : Bound.ofString "n" = .ok .many := by decide
  have hpairs : Writable (ErDiagram.letter .pair) := by
    refine @letter .cardinal "n:n" _ (by decide) (by decide) ?_
    rintro (⟨-, error, h⟩ | ⟨h, -⟩)
    · rw [hpair] at h
      cases h
    · exact absurd h (by decide)
  have hbounds : Writable (ErDiagram.kindLetter .cardinal) := by
    refine @letter .cardinal "n" _ (by decide) (by decide) ?_
    rintro (⟨h, -⟩ | ⟨-, error, h⟩)
    · exact absurd h (by decide)
    · rw [hbound] at h
      cases h
  exact hpairs.add (hbounds.mul hbounds)

theorem detailWords (kind : Node.Kind) : Writable (detailWords kind) := by
  unfold ErDiagram.detailWords
  split
  · have hfacets : Writable facetWords := ((keywordLetter _).add (keywordLetter _)).mul
      ((keywordLetter _).add (keywordLetter _))
    exact (one.add (keywordLetter _)).mul (hfacets.add (keywordLetter _))
  · exact one.add ((keywordLetter _).mul cardinalityWords)
  · exact one

theorem bodyWords {inside : Node.Kind → Language Symbol} (h : ∀ kind, Writable (inside kind))
    (field : Field) : Writable (bodyWords inside field) := by
  cases field with
  | construct kind => exact name.mul ((detailWords kind).mul (h kind).kstar)
  | primaryKey => exact name.kstar
  | branch => exact name.mul ((keywordLetter _).mul cardinalityWords)
  | attributeOf => exact name.mul name
  | mention => exact name

theorem fieldWords (limit : Nat) (owner : Node.Kind) : Writable (fieldWords limit owner) := by
  induction limit generalizing owner with
  | zero => exact fun w hw => absurd hw (Language.notMem_zero w)
  | succ limit ih =>
      have hinside : Writable (insideWords owner (ErDiagram.bodyWords (ErDiagram.fieldWords limit))) :=
        fun w ⟨entry, _, hw⟩ => ((keywordLetter entry.1).mul (bodyWords ih entry.2)) w hw
      exact (@kindLetter _ "(" (by decide) (by decide)).mul
        (hinside.mul (@kindLetter _ ")" (by decide) (by decide)))

end Writable

/-! ### Reading what is written -/

end ErDiagram
