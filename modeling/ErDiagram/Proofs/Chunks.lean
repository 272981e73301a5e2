import ErDiagram.Proofs.Groups

/-!
Cutting tokens into chunks, by their parentheses alone: a complete group, or a token that stands
outside all groups, or at the end a group that nothing closes.
-/

namespace ErDiagram

/-- Cuts off what has been begun as soon as no parenthesis is open any more. -/
def cut (begun : List Token) (depth : Int) : List Token → List (List Token)
  | [] => if begun = [] then [] else [begun]
  | token :: rest =>
    if depth + token.nesting ≤ 0 then (begun ++ [token]) :: cut [] 0 rest
    else cut (begun ++ [token]) (depth + token.nesting) rest

/-- The chunks of some tokens: a token that is no opening parenthesis on its own, and an opening
parenthesis with all that follows through the parenthesis that matches, or to the end. -/
def chunks (tokens : List Token) : List (List Token) :=
  cut [] 0 tokens

/-- No parenthesis closes what is open at a depth. -/
def StaysOpen (depth : Int) (tokens : List Token) : Prop :=
  ∀ front, front <+: tokens → 0 < depth + openedBy front

/-- An opening parenthesis and all that follows it, if nothing matches it. -/
inductive IsUnterminated : List Token → Prop where
  | mk {paren : Token} {body : List Token} (hopen : paren.kind = .leftParen)
    (hbody : StaysOpen 1 body) : IsUnterminated (paren :: body)

namespace StaysOpen

variable {depth : Int} {token : Token} {tokens : List Token}

theorem of_cons (h : StaysOpen depth (token :: tokens)) : StaysOpen (depth + token.nesting) tokens := by
  intro front hfront
  have hpos := h (token :: front) (List.cons_prefix_cons.2 ⟨rfl, hfront⟩)
  rwa [openedBy_cons, ← Int.add_assoc] at hpos

theorem pos (h : StaysOpen depth tokens) : 0 < depth := by
  have hpos := h [] List.nil_prefix
  rwa [openedBy_nil, Int.add_zero] at hpos

theorem cons (hdepth : 0 < depth) (h : StaysOpen (depth + token.nesting) tokens) :
    StaysOpen depth (token :: tokens) := by
  intro front hfront
  cases front with
  | nil => rwa [openedBy_nil, Int.add_zero]
  | cons first front =>
      obtain ⟨rfl, hrest⟩ := List.cons_prefix_cons.1 hfront
      rw [openedBy_cons, ← Int.add_assoc]
      exact h front hrest

/-- What is open stays open behind any of the tokens. -/
theorem of_append {front back : List Token} (h : StaysOpen depth (front ++ back)) :
    StaysOpen (depth + openedBy front) back := by
  induction front generalizing depth with
  | nil => rwa [openedBy_nil, Int.add_zero]
  | cons token front ih =>
      rw [openedBy_cons, ← Int.add_assoc]
      exact ih (of_cons h)

/-- Leaving a group that stays open leads to the end. -/
theorem afterGroup (h : StaysOpen depth tokens) : Reading.afterGroup depth tokens = [] := by
  induction tokens generalizing depth with
  | nil => rfl
  | cons token rest ih =>
      have hrest := h.of_cons
      rw [Reading.afterGroup, if_neg (Int.not_le.2 hrest.pos)]
      exact ih hrest

end StaysOpen

namespace IsUnterminated

variable {front back : List Token}

theorem pos (h : IsUnterminated (front ++ back)) (hfront : front ≠ []) : 0 < openedBy front := by
  obtain ⟨first, front, rfl⟩ := List.exists_cons_of_ne_nil hfront
  cases h with
  | mk hopen hbody =>
      rw [openedBy_cons, nesting_leftParen hopen]
      exact hbody front (List.prefix_append front back)

/-- Wherever a group that nothing closes is left, the end comes next. -/
theorem afterGroup (h : IsUnterminated (front ++ back)) :
    Reading.afterGroup (openedBy front) back = [] := by
  cases front with
  | nil =>
      rw [List.nil_append] at h
      cases h with
      | mk hopen hbody =>
          rw [openedBy_nil, Reading.afterGroup, nesting_leftParen hopen, if_neg (by decide)]
          exact hbody.afterGroup
  | cons first front =>
      cases h with
      | mk hopen hbody =>
          rw [openedBy_cons, nesting_leftParen hopen]
          exact hbody.of_append.afterGroup

theorem not_isGroup {tokens : List Token} (h : IsUnterminated tokens) : ¬IsGroup tokens := by
  rintro ⟨-, hcloses⟩
  cases h with
  | mk _ hbody =>
      have hzero := hcloses.openedBy Int.one_pos
      have hpos := hbody _ (List.prefix_refl _)
      omega

end IsUnterminated

/-- What is open is closed somewhere, or it stays open. -/
theorem closes_or_staysOpen {depth : Int} (hdepth : 0 < depth) (tokens : List Token) :
    (∃ front back, tokens = front ++ back ∧ Closes depth front) ∨ StaysOpen depth tokens := by
  induction tokens generalizing depth with
  | nil =>
      refine Or.inr fun front hfront => ?_
      rw [List.prefix_nil.1 hfront, openedBy_nil, Int.add_zero]
      exact hdepth
  | cons token rest ih =>
      by_cases hend : depth + token.nesting ≤ 0
      · refine Or.inl ⟨[token], rest, rfl, ?_⟩
        rw [Closes, if_pos hend]
      · rcases ih (Int.not_le.1 hend) with ⟨front, back, rfl, hcloses⟩ | hopen
        · refine Or.inl ⟨token :: front, back, rfl, ?_⟩
          rw [Closes, if_neg hend]
          exact hcloses
        · exact Or.inr (hopen.cons hdepth)

/-! ### The first chunk -/

theorem cut_of_closes {begun front : List Token} {depth : Int} (h : Closes depth front)
    (back : List Token) : cut begun depth (front ++ back) = (begun ++ front) :: chunks back := by
  induction front generalizing begun depth with
  | nil => exact h.elim
  | cons token front ih =>
      rw [Closes] at h
      rw [List.cons_append, cut]
      split at h
      · rename_i hend
        rw [if_pos hend, h, List.nil_append]
        rfl
      · rename_i hend
        rw [if_neg hend, ih h, List.append_assoc, List.singleton_append]

theorem cut_of_staysOpen {begun tokens : List Token} {depth : Int} (hbegun : begun ≠ [])
    (h : StaysOpen depth tokens) : cut begun depth tokens = [begun ++ tokens] := by
  induction tokens generalizing begun depth with
  | nil => rw [cut, if_neg hbegun, List.append_nil]
  | cons token rest ih =>
      have hrest := h.of_cons
      rw [cut, if_neg (Int.not_le.2 hrest.pos), ih (by simp) hrest, List.append_assoc,
        List.singleton_append]

@[simp] theorem chunks_nil : chunks [] = [] := rfl

theorem chunks_stray {token : Token} (hkind : token.kind ≠ .leftParen) (rest : List Token) :
    chunks (token :: rest) = [token] :: chunks rest := by
  have hnesting : 0 + token.nesting ≤ 0 := Int.add_le_add_left (nesting_nonpos hkind) 0
  rw [chunks, cut, if_pos hnesting]
  rfl

theorem chunks_paren {paren : Token} (hopen : paren.kind = .leftParen) (body : List Token) :
    chunks (paren :: body) = cut [paren] 1 body := by
  rw [chunks, cut, nesting_leftParen hopen, if_neg (by decide)]
  rfl

theorem chunks_group {front : List Token} (h : IsGroup front) (back : List Token) :
    chunks (front ++ back) = front :: chunks back := by
  cases h with
  | @mk paren body hopen hcloses =>
      rw [List.cons_append, chunks_paren hopen, cut_of_closes hcloses, List.singleton_append]

theorem chunks_unterminated {tokens : List Token} (h : IsUnterminated tokens) :
    chunks tokens = [tokens] := by
  cases h with
  | @mk paren body hopen hbody =>
      rw [chunks_paren hopen, cut_of_staysOpen (List.cons_ne_nil _ _) hbody, List.singleton_append]

/-- The first chunk is a token outside all groups, or a group, or a group that nothing closes, behind
which no token is left. -/
theorem chunks_cases {tokens : List Token} (h : tokens ≠ []) :
    (∃ token rest, token.kind ≠ .leftParen ∧ tokens = token :: rest) ∨
      (∃ front back, IsGroup front ∧ tokens = front ++ back) ∨ IsUnterminated tokens := by
  obtain ⟨token, rest, rfl⟩ := List.exists_cons_of_ne_nil h
  by_cases hopen : token.kind = .leftParen
  · rcases closes_or_staysOpen Int.one_pos rest with ⟨front, back, rfl, hcloses⟩ | hbody
    · exact Or.inr (Or.inl ⟨token :: front, back, .mk hopen hcloses, rfl⟩)
    · exact Or.inr (Or.inr (.mk hopen hbody))
  · exact Or.inl ⟨token, rest, hopen, rfl⟩

/-- Nothing is left out of the chunks. -/
theorem flatten_chunks (tokens : List Token) : (chunks tokens).flatten = tokens := by
  have hcut : ∀ begun depth, (cut begun depth tokens).flatten = begun ++ tokens := by
    induction tokens with
    | nil =>
        intro begun depth
        rw [cut]
        split
        · rename_i hnil
          rw [hnil]
          rfl
        · simp
    | cons token rest ih =>
        intro begun depth
        rw [cut]
        split
        · rw [List.flatten_cons, ih, List.nil_append, List.append_assoc, List.singleton_append]
        · rw [ih, List.append_assoc, List.singleton_append]
  exact hcut [] 0

end ErDiagram
