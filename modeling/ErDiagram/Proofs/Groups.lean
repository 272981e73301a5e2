import ErDiagram.Proofs.Lookahead

/-!
Groups of parentheses, one behind the other. Reading a declaration from a group goes over just that
group, whatever follows it and whether the declaration stops or not: a declaration that runs through
ends with the parenthesis that closes the group, and one that stops does so inside the group, so
that leaving the group leads right behind it.
-/

namespace ErDiagram

/-- The parentheses that are open at a depth are closed by the last of some tokens, and not
before. -/
def Closes (depth : Int) : List Token → Prop
  | [] => False
  | token :: rest =>
    if depth + token.nesting ≤ 0 then rest = [] else Closes (depth + token.nesting) rest

/-- A complete group: an opening parenthesis and what follows up to the parenthesis that matches. -/
inductive IsGroup : List Token → Prop where
  | mk {paren : Token} {body : List Token} (hopen : paren.kind = .leftParen)
    (hcloses : Closes 1 body) : IsGroup (paren :: body)

namespace Closes

theorem ne_nil {depth : Int} {tokens : List Token} (h : Closes depth tokens) : tokens ≠ [] := by
  rintro rfl
  exact h

/-- At depth 1 a closing parenthesis is the last token. -/
theorem eq_nil {token : Token} {rest : List Token} (h : Closes 1 (token :: rest))
    (hclose : token.kind = .rightParen) : rest = [] := by
  rw [Closes, nesting_rightParen hclose, if_pos (by decide)] at h
  exact h

/-- Leaving a group leads right behind it. -/
theorem afterGroup {depth : Int} {tokens : List Token} (h : Closes depth tokens)
    (rest : List Token) : Reading.afterGroup depth (tokens ++ rest) = rest := by
  induction tokens generalizing depth with
  | nil => exact h.elim
  | cons token tokens ih =>
      rw [Closes] at h
      rw [List.cons_append, Reading.afterGroup]
      split at h
      · rename_i hend
        rw [if_pos hend, h, List.nil_append]
      · rename_i hend
        rw [if_neg hend]
        exact ih h

theorem openedBy {depth : Int} {tokens : List Token} (h : Closes depth tokens)
    (hdepth : 0 < depth) : depth + openedBy tokens = 0 := by
  induction tokens generalizing depth with
  | nil => exact h.elim
  | cons token tokens ih =>
      rw [Closes] at h
      rw [openedBy_cons]
      split at h
      · rename_i hend
        have hnesting : -1 ≤ token.nesting := by
          unfold Token.nesting
          split <;> omega
        rw [h, openedBy_nil]
        omega
      · have hrest := ih h (by omega)
        omega

/-- Inside a group, the tokens that are left close what is open there. -/
theorem of_append {depth : Int} {front back : List Token} (h : Closes depth (front ++ back))
    (hback : back ≠ []) : Closes (depth + ErDiagram.openedBy front) back := by
  induction front generalizing depth with
  | nil =>
      rw [openedBy_nil, Int.add_zero]
      exact h
  | cons token front ih =>
      rw [List.cons_append, Closes] at h
      rw [openedBy_cons, ← Int.add_assoc]
      split at h
      · exact absurd (List.append_eq_nil_iff.1 h).2 hback
      · exact ih h

/-- A reading inside a group is left with tokens that close the group. -/
theorem of_reaches {σ : Type} {before after : Reading σ} (h : Closes before.depth before.unread)
    (hbefore : 0 < before.depth) (hreach : before.Reaches after) (hafter : 0 < after.depth) :
    Closes after.depth after.unread := by
  obtain ⟨front, hfront⟩ := hreach.suffix
  have hbalance := hreach.balance
  have hne : after.unread ≠ [] := by
    intro hnil
    have htotal := h.openedBy hbefore
    rw [hnil, openedBy_nil] at hbalance
    omega
  rw [← hfront] at h
  have hrest := h.of_append hne
  rw [← hfront, openedBy_append] at hbalance
  have hdepth : before.depth + ErDiagram.openedBy front = after.depth := by omega
  rwa [hdepth] at hrest

theorem shift {depth : Int} {tokens : List Token} (h : Closes depth tokens) (by' : Nat) :
    Closes depth (tokens.map (·.shift by')) := by
  induction tokens generalizing depth with
  | nil => exact h
  | cons token rest ih =>
      rw [Closes] at h
      rw [List.map_cons, Closes]
      change if depth + token.nesting ≤ 0 then _ else Closes (depth + token.nesting) _
      split at h
      · rename_i hend
        rw [if_pos hend, h]
        rfl
      · rename_i hend
        rw [if_neg hend]
        exact ih h

end Closes

instance decidableCloses : (depth : Int) → (tokens : List Token) → Decidable (Closes depth tokens)
  | _, [] => isFalse id
  | depth, token :: rest =>
    if h : depth + token.nesting ≤ 0 then
      decidable_of_iff (rest = []) (by rw [Closes, if_pos h])
    else
      have := decidableCloses (depth + token.nesting) rest
      decidable_of_iff (Closes (depth + token.nesting) rest) (by rw [Closes, if_neg h])

theorem isGroup_iff {tokens : List Token} :
    IsGroup tokens ↔ tokens.head?.any (·.kind = .leftParen) ∧ Closes 1 tokens.tail := by
  constructor
  · rintro ⟨hopen, hcloses⟩
    exact ⟨by simpa using hopen, hcloses⟩
  · rintro ⟨hopen, hcloses⟩
    cases tokens with
    | nil => cases hcloses
    | cons paren body => exact .mk (by simpa using hopen) hcloses

instance (tokens : List Token) : Decidable (IsGroup tokens) :=
  decidable_of_iff _ isGroup_iff.symm

theorem IsGroup.shift {tokens : List Token} (h : IsGroup tokens) (by' : Nat) :
    IsGroup (tokens.map (·.shift by')) := by
  cases h with
  | mk hopen hcloses => exact .mk hopen (hcloses.shift by')

theorem IsGroup.ne_nil {tokens : List Token} (h : IsGroup tokens) : tokens ≠ [] := by
  cases h
  exact List.cons_ne_nil _ _

theorem nesting_nonpos {token : Token} (hkind : token.kind ≠ .leftParen) : token.nesting ≤ 0 := by
  unfold Token.nesting
  split
  · exact absurd ‹_› hkind
  · decide
  · decide

/-! ### Tokens that leave no group open -/

/-- The number of groups that are open behind some tokens, if that many are open before them. A
closing parenthesis outside all groups stands alone. -/
def openGroups (count : Nat) : List Token → Nat
  | [] => count
  | token :: rest => openGroups (count + token.nesting).toNat rest

/-- Complete groups, and between them tokens that open none. -/
inductive Pieces : List Token → Prop where
  | nil : Pieces []
  | stray {token : Token} {rest : List Token} (hkind : token.kind ≠ .leftParen)
    (hrest : Pieces rest) : Pieces (token :: rest)
  | group {front back : List Token} (hfront : IsGroup front) (hback : Pieces back) :
    Pieces (front ++ back)

theorem closes_of_openGroups {count : Nat} {tokens : List Token} (h : openGroups count tokens = 0)
    (hcount : 0 < count) :
    ∃ front back, tokens = front ++ back ∧ Closes count front ∧ openGroups 0 back = 0 := by
  induction tokens generalizing count with
  | nil => exact absurd h (Nat.ne_of_gt hcount)
  | cons token rest ih =>
      rw [openGroups] at h
      by_cases hend : count + token.nesting ≤ 0
      · rw [Int.toNat_eq_zero.2 hend] at h
        refine ⟨[token], rest, rfl, ?_, h⟩
        rw [Closes, if_pos hend]
      · obtain ⟨front, back, rfl, hcloses, hback⟩ := ih h (by omega)
        refine ⟨token :: front, back, rfl, ?_, hback⟩
        rw [Closes, if_neg hend]
        rwa [Int.toNat_of_nonneg (by omega)] at hcloses

/-- Tokens that leave no group open are made of complete groups and of tokens between them. -/
theorem pieces_of_openGroups {tokens : List Token} (h : openGroups 0 tokens = 0) : Pieces tokens := by
  generalize hlength : tokens.length = length
  induction length using Nat.strong_induction_on generalizing tokens with
  | h length ih =>
      cases tokens with
      | nil => exact .nil
      | cons token rest =>
          rw [openGroups] at h
          by_cases hopen : token.kind = .leftParen
          · rw [nesting_leftParen hopen] at h
            obtain ⟨front, back, rfl, hcloses, hback⟩ := closes_of_openGroups h Nat.one_pos
            rw [List.length_cons, List.length_append] at hlength
            exact .group (.mk hopen hcloses) (ih back.length (by omega) hback rfl)
          · have hnesting := nesting_nonpos hopen
            have hnone : (((0 : Nat) : Int) + token.nesting).toNat = 0 := by omega
            rw [hnone] at h
            rw [List.length_cons] at hlength
            exact .stray hopen (ih rest.length (by omega) h rfl)

namespace Reader

variable {σ ε : Type} {meaning : Interpretation σ ε}

/-- No field begins with a token that is no opening parenthesis. -/
theorem field_stray {token : Token} (hkind : token.kind ≠ .leftParen) (budget : Nat)
    (owner : Node.Kind) (rest : List Token) (depth : Int) (state : σ) :
    field meaning (budget + 1) owner ⟨token :: rest, depth, state⟩ =
      .error ⟨.malformed (.expectedToken .leftParen), some token⟩ ⟨token :: rest, depth, state⟩ := by
  rw [field_succ]
  refine bind_error.2 (Or.inl ?_)
  simp only [expectKind, expect, Reading.next?, List.head?_cons, hkind, if_false]

/-- At the outermost level, a field is what stands inside it and a closing parenthesis. -/
theorem field_of_paren {paren : Token} (hopen : paren.kind = .leftParen) (budget : Nat)
    (owner : Node.Kind) (tokens : List Token) (state : σ) :
    field meaning (budget + 1) owner ⟨paren :: tokens, 0, state⟩ =
      (fieldInside meaning budget owner >>= fun _ => expectKind .rightParen >>= fun _ => pure ())
        ⟨tokens, 1, state⟩ := by
  have hparen : (expectKind .leftParen : Reader σ ε Token) ⟨paren :: tokens, 0, state⟩ =
      .ok paren ⟨tokens, 1, state⟩ := by
    refine expect_ok_iff.2 ⟨hopen, rfl, ?_⟩
    rw [Reading.next?_advance_cons, nesting_leftParen hopen]
    rfl
  have hrest : fieldRest meaning budget owner paren ⟨tokens, 1, state⟩ =
      (if (maxDepth : Int) < 1 then fail (.malformed .nestedTooDeeply) (some paren)
        else fieldInside meaning budget owner >>= fun _ =>
          expectKind .rightParen >>= fun _ => pure () : Reader σ ε Unit) ⟨tokens, 1, state⟩ := rfl
  rw [field_succ]
  change EStateM.bind _ _ _ = _
  unfold EStateM.bind
  rw [hparen]
  dsimp only
  rw [hrest, if_neg (by decide)]

/-- What comes of reading a field from a group does not depend on what follows. The reader goes over
the group, or it stops inside and blames one of its tokens. -/
theorem field_group {tokens : List Token} (hgroup : IsGroup tokens)
    (hspelled : ∀ token ∈ tokens, token.Spelled) (budget : Nat) (owner : Node.Kind) (state : σ) :
    (∃ state', ∀ rest, field meaning (budget + 1) owner ⟨tokens ++ rest, 0, state⟩ =
      .ok () ⟨rest, 0, state'⟩) ∨
    ∃ (fault : Fault ε) (after : Reading σ), (∀ token ∈ fault.token, token ∈ tokens) ∧
      after.unread ⊆ tokens ∧ Closes after.depth after.unread ∧
        ∀ rest, field meaning (budget + 1) owner ⟨tokens ++ rest, 0, state⟩ =
          .error fault (after.extend rest) := by
  cases hgroup with
  | @mk paren body hopen hcloses =>
      have hinside : Confined (· ∈ paren :: body) (fun _ => True) 0
          (fieldInside meaning budget owner) :=
        .fieldInside meaning hspelled (fun owner => Confined.field meaning hspelled budget owner)
          owner
      have hallowed : ∀ token ∈ (⟨body, 1, state⟩ : Reading σ).unread, token ∈ paren :: body :=
        fun token htoken => List.mem_cons_of_mem paren htoken
      simp only [List.cons_append, field_of_paren hopen]
      cases hread : fieldInside meaning budget owner ⟨body, 1, state⟩ with
      | error fault after =>
          obtain ⟨hreach, hdepth, hblame⟩ := hinside.error hallowed hread
          have hleft : Closes after.depth after.unread :=
            Closes.of_reaches hcloses Int.one_pos hreach (Int.lt_of_lt_of_le Int.one_pos hdepth)
          refine Or.inr ⟨fault, after, hblame,
            fun token htoken => hallowed token (hreach.suffix.subset htoken), hleft, fun rest => ?_⟩
          exact bind_error.2 (Or.inl (hinside.extend_error rest hallowed hread hleft.ne_nil))
      | ok _ after =>
          obtain ⟨hreach, hdepth, -⟩ := hinside.ok hallowed hread
          have hleft : Closes after.depth after.unread :=
            Closes.of_reaches hcloses Int.one_pos hreach (hdepth ▸ Int.one_pos)
          have hmore := fun rest => hinside.extend_ok rest hallowed hread hleft.ne_nil
          have hsubset : after.unread ⊆ paren :: body :=
            fun token htoken => hallowed token (hreach.suffix.subset htoken)
          obtain ⟨unread, depth, state'⟩ := after
          obtain ⟨closing, last, rfl⟩ := List.exists_cons_of_ne_nil hleft.ne_nil
          obtain rfl : depth = 1 := hdepth
          by_cases hclosing : closing.kind = .rightParen
          · -- The parenthesis that closes the group is the last of its tokens.
            have hlast : last = [] := Closes.eq_nil hleft hclosing
            refine Or.inl ⟨state', fun rest => bind_ok.2 ⟨(), _, hmore rest, ?_⟩⟩
            refine bind_ok.2 ⟨closing, _, expect_ok_iff.2 ⟨hclosing, ?_, rfl⟩, ?_⟩
            · rfl
            · rw [hlast]
              change EStateM.Result.ok () (Reading.mk rest (1 + closing.nesting) state') = _
              rw [nesting_rightParen hclosing]
              rfl
          · refine Or.inr ⟨⟨.malformed (.expectedToken .rightParen), some closing⟩, _, ?_, hsubset,
              hleft, fun rest => bind_error.2 (Or.inr ⟨(), _, hmore rest, ?_⟩)⟩
            · intro token htoken
              rw [← Option.mem_some.1 htoken]
              exact hsubset List.mem_cons_self
            · refine bind_error.2 (Or.inl ?_)
              simp only [expectKind, expect, Reading.next?, Reading.extend, List.cons_append,
                List.head?_cons, hclosing, if_false]

end Reader
end ErDiagram
