import ErDiagram.Proofs.Diagram
import ErDiagram.Proofs.Scanning

/-!
What the text of a token says about its kind, and which texts write bounds and cardinalities. A
decoder reads exactly the texts that the grammar allows, so it never fails on a literal but for a
bound that is too large.
-/

namespace ErDiagram

/-- A token whose text, on its own, is one token of the same kind. -/
def Token.Spelled (token : Token) : Prop :=
  IsToken token.kind token.text.toList

/-! ### Reserved words -/

theorem kind_ofWord_eq_reserved {word : String} {keyword : Keyword} :
    Token.Kind.ofWord word = .reserved keyword ↔ Keyword.ofWord? word = some keyword := by
  unfold Token.Kind.ofWord
  cases Keyword.ofWord? word <;> simp

/-- A token that is a reserved word has one of its spellings. -/
theorem isSpelled_of_isToken {keyword : Keyword} {text : List Char}
    (h : IsToken (.reserved keyword) text) : keyword.isSpelled (String.ofList text) := by
  obtain ⟨c, rest, rfl, hcut⟩ := h
  unfold cutToken at hcut
  split_ifs at hcut
  · cases hcut
  · cases hcut
  · cases hcut
  · obtain ⟨hkind, htext⟩ := Prod.mk.inj hcut
    rw [(Prod.mk.inj htext).1] at hkind
    exact Keyword.isSpelled_of_ofWord? (kind_ofWord_eq_reserved.1 hkind)
  · cases hcut

/-- A reserved word without a synonym has its name for a text. -/
theorem text_eq_of_reserved {token : Token} {keyword : Keyword} (h : token.Spelled)
    (hkind : token.kind = .reserved keyword) (hsingle : keyword.spellings.2 = []) :
    token.text = keyword.name := by
  have htoken : IsToken (.reserved keyword) token.text.toList := hkind ▸ (show IsToken _ _ from h)
  have hspelled := isSpelled_of_isToken htoken
  rw [String.ofList_toList] at hspelled
  simpa [Keyword.isSpelled, hsingle, Keyword.name] using hspelled

/-- A token whose text is a reserved word is that word. -/
theorem kind_eq_of_text {token : Token} {keyword : Keyword} {word : List Char}
    (h : token.Spelled) (hword : IsToken (.reserved keyword) word)
    (htext : token.text.toList = word) : token.kind = .reserved keyword :=
  (show IsToken _ _ from h).unique (htext ▸ hword)

theorem coverage?_iff {token : Token} {total : Bool} (h : token.Spelled) :
    HierarchyType.coverage? token.text = some total ↔
      token.kind = .reserved (if total then .totalCover else .partialCover) := by
  constructor
  · intro hvalue
    unfold HierarchyType.coverage? at hvalue
    split_ifs at hvalue with htotal hpartial
    · cases hvalue
      exact kind_eq_of_text h ⟨'t', "otal".toList, rfl, by decide⟩ (by rw [htotal]; rfl)
    · cases hvalue
      exact kind_eq_of_text h ⟨'p', "artial".toList, rfl, by decide⟩ (by rw [hpartial]; rfl)
  · intro hkind
    cases total
    · rw [text_eq_of_reserved h hkind rfl]
      rfl
    · rw [text_eq_of_reserved h hkind rfl]
      rfl

theorem disjointness?_iff {token : Token} {exclusive : Bool} (h : token.Spelled) :
    HierarchyType.disjointness? token.text = some exclusive ↔
      token.kind = .reserved (if exclusive then .exclusive else .overlapped) := by
  constructor
  · intro hvalue
    unfold HierarchyType.disjointness? at hvalue
    split_ifs at hvalue with hexclusive hoverlapped
    · cases hvalue
      exact kind_eq_of_text h ⟨'e', "xclusive".toList, rfl, by decide⟩ (by rw [hexclusive]; rfl)
    · cases hvalue
      exact kind_eq_of_text h ⟨'o', "verlapped".toList, rfl, by decide⟩ (by rw [hoverlapped]; rfl)
  · intro hkind
    cases exclusive
    · rw [text_eq_of_reserved h hkind rfl]
      rfl
    · rw [text_eq_of_reserved h hkind rfl]
      rfl

/-! ### Bounds and cardinalities -/

theorem Bound.ofChars?_iff {bound : Bound} {text : List Char} :
    Bound.ofChars? text = some bound ↔ bound.WrittenAs text := by
  unfold Bound.ofChars?
  constructor
  · intro h
    split_ifs at h with hmany hcount
    · cases h
      exact hmany.symm
    · obtain ⟨hne, hdigits, hlt⟩ := hcount
      cases h
      refine ⟨hne, List.all_eq_true.1 hdigits, ?_⟩
      rw [UInt32.toNat_ofNat_of_lt' hlt]
  · intro h
    cases bound with
    | many => rw [if_pos h.symm]
    | count n =>
        obtain ⟨hne, hdigits, hvalue⟩ := h
        have hletter : ¬(text = ['N'] ∨ text = ['n']) := by
          rintro (rfl | rfl) <;> exact absurd (hdigits _ List.mem_cons_self) (by decide)
        have hlt : Nat.ofDigitChars 10 text 0 < UInt32.size := hvalue ▸ n.toNat_lt
        rw [if_neg hletter, if_pos ⟨hne, List.all_eq_true.2 hdigits, hlt⟩, hvalue]
        simp

theorem Bound.ofString_iff {bound : Bound} {text : String} :
    Bound.ofString text = .ok bound ↔ bound.WrittenAs text.toList := by
  rw [← Bound.ofChars?_iff, Bound.ofString]
  cases Bound.ofChars? text.toList <;> simp

/-- What writes a bound is one bound to the lexer. -/
theorem Bound.WrittenAs.isBound {bound : Bound} {text : List Char} (h : bound.WrittenAs text) :
    IsBound text := by
  cases bound with
  | many =>
      rcases h with rfl | rfl
      · exact Or.inl rfl
      · exact Or.inr (Or.inl rfl)
  | count n => exact Or.inr (Or.inr ⟨h.1, h.2.1⟩)

theorem IsBound.not_mem_colon {text : List Char} (h : IsBound text) : ':' ∉ text := by
  rcases h with rfl | rfl | ⟨-, hdigits⟩
  · decide
  · decide
  · intro hmem
    exact absurd (hdigits _ hmem) (by decide)

/-- The first place of a stop parts a list in one way. -/
theorem append_stop_inj {α : Type} {stop : α} {front front' back back' : List α} (h : stop ∉ front)
    (h' : stop ∉ front') (heq : front ++ stop :: back = front' ++ stop :: back') :
    front = front' ∧ back = back' := by
  induction front generalizing front' with
  | nil =>
      cases front' with
      | nil => exact ⟨rfl, (List.cons.inj heq).2⟩
      | cons first front' =>
          obtain ⟨rfl, -⟩ := List.cons.inj heq
          exact absurd List.mem_cons_self h'
  | cons first front ih =>
      cases front' with
      | nil =>
          obtain ⟨rfl, -⟩ := List.cons.inj heq
          exact absurd List.mem_cons_self h
      | cons first' front' =>
          obtain ⟨rfl, hrest⟩ := List.cons.inj heq
          obtain ⟨rfl, hback⟩ := ih (mt (List.mem_cons_of_mem _) h) (mt (List.mem_cons_of_mem _) h') hrest
          exact ⟨rfl, hback⟩

/-- The first colon parts what stands before it from what stands behind it. -/
theorem span_colon {lower : List Char} (h : ':' ∉ lower) (upper : List Char) :
    (lower ++ ':' :: upper).takeWhile (· ≠ ':') = lower ∧
      (lower ++ ':' :: upper).dropWhile (· ≠ ':') = ':' :: upper := by
  have hall : ∀ c ∈ lower, decide (c ≠ ':') = true := by
    intro c hc
    exact decide_eq_true fun heq => h (heq ▸ hc)
  rw [List.takeWhile_append_of_pos hall, List.dropWhile_append_of_pos hall]
  simp

/-- A cardinality is read from two bounds that a colon joins, and from nothing else. -/
theorem Cardinality.ofString_iff {cardinality : Cardinality} {text : String} :
    Cardinality.ofString text = .ok cardinality ↔
      ∃ lower upper, text.toList = lower ++ ':' :: upper ∧
        cardinality.min.WrittenAs lower ∧ cardinality.max.WrittenAs upper := by
  have hchars : Cardinality.ofString text = .ok cardinality ↔
      Cardinality.ofChars? text.toList = some cardinality := by
    rw [Cardinality.ofString]
    cases Cardinality.ofChars? text.toList <;> simp
  rw [hchars, Cardinality.ofChars?]
  constructor
  · intro h
    split at h
    · cases h
    · rename_i colon upper hdrop
      obtain ⟨min, hmin, h⟩ := Option.bind_eq_some_iff.1 h
      obtain ⟨max, hmax, h⟩ := Option.bind_eq_some_iff.1 h
      cases h
      have hcolon : colon = ':' := by
        have hhead := List.head?_dropWhile_not (· ≠ ':') text.toList
        rw [hdrop] at hhead
        simpa using hhead
      refine ⟨text.toList.takeWhile (· ≠ ':'), upper, ?_, Bound.ofChars?_iff.1 hmin,
        Bound.ofChars?_iff.1 hmax⟩
      rw [← hcolon, ← hdrop, hcolon, List.takeWhile_append_dropWhile]
  · rintro ⟨lower, upper, htext, hmin, hmax⟩
    obtain ⟨htake, hdrop⟩ := span_colon hmin.isBound.not_mem_colon upper
    rw [htext, hdrop, htake]
    simp only [Bound.ofChars?_iff.2 hmin, Bound.ofChars?_iff.2 hmax]
    rfl

end ErDiagram
