import ErDiagram.Proofs.Declarations
import ErDiagram.Proofs.Groups
import ErDiagram.Proofs.Undo

/-!
Reading goes on behind a declaration that stops. What stands in complete groups, and between them, is
read without regard to what follows. A group is one more declaration that fits, or it is passed over
as a whole and leaves no trace.
-/

namespace ErDiagram

variable {σ ε : Type}

namespace Reading

variable (meaning : Interpretation σ ε)

/-! ### Groups and what stands between them -/

/-- Over some tokens, declarations take one state to another with some stops, whatever follows. -/
def Takes (budget : Nat) (tokens : List Token) (state : σ) (stops : List (Stop ε)) (after : σ) :
    Prop :=
  ∀ rest, (∀ token ∈ rest, token.Spelled) →
    (Reading.mk (tokens ++ rest) 0 state).declarations meaning budget =
      (stops ++ ((Reading.mk rest 0 after).declarations meaning budget).1,
        ((Reading.mk rest 0 after).declarations meaning budget).2)

theorem takes_nil (budget : Nat) (state : σ) :
    Takes meaning budget [] state ([] : List (Stop ε)) state :=
  fun _ _ => rfl

theorem Takes.append {budget : Nat} {front back : List Token} {before middle after : σ}
    {stops stops' : List (Stop ε)} (hspelled : ∀ token ∈ back, token.Spelled)
    (h : Takes meaning budget front before stops middle)
    (h' : Takes meaning budget back middle stops' after) :
    Takes meaning budget (front ++ back) before (stops ++ stops') after := by
  intro rest hrest
  have hboth : ∀ token ∈ back ++ rest, token.Spelled := by
    intro token htoken
    rcases List.mem_append.1 htoken with htoken | htoken
    · exact hspelled token htoken
    · exact hrest token htoken
  rw [List.append_assoc, h _ hboth, h' rest hrest, List.append_assoc]

theorem takes_of_declaration {budget : Nat} {tokens : List Token} {before after : σ}
    {stop : Option (Stop ε)} (hspelled : ∀ token ∈ tokens, token.Spelled) (hne : tokens ≠ [])
    (h : ∀ rest, (Reading.mk (tokens ++ rest) 0 before).declaration meaning budget =
      (stop, ⟨rest, 0, after⟩)) :
    Takes meaning budget tokens before stop.toList after := by
  intro rest hrest
  have hboth : ∀ token ∈ tokens ++ rest, token.Spelled := by
    intro token htoken
    rcases List.mem_append.1 htoken with htoken | htoken
    · exact hspelled token htoken
    · exact hrest token htoken
  rw [declarations_step meaning budget hboth (List.append_ne_nil_of_left_ne_nil hne rest), h]

end Reading

/-! ### What is left of declarations that stop -/

namespace Diagram

/-- What cannot start a declaration is passed over alone. -/
theorem declaration_stray (diagram : Diagram) {token : Token} (hkind : token.kind ≠ .leftParen)
    (rest : List Token) :
    (Reading.mk (token :: rest) 0 diagram.builder).declaration Builder.meaning (maxDepth + 1) =
      (some ⟨⟨.malformed (.expectedToken .leftParen), some token⟩, some token⟩,
        ⟨rest, 0, diagram.builder⟩) := by
  have hfield := @Reader.field_stray _ _ Builder.meaning _ hkind maxDepth .start rest 0
    diagram.builder
  have hundo := undo_builder rfl hfield
  have hnesting : 0 + token.nesting ≤ 0 := Int.add_le_add_left (nesting_nonpos hkind) 0
  simp only [Reading.declaration, hfield, hundo, Reading.leaveGroup, Reading.afterGroup,
    if_pos hnesting]
  rfl

/-- Behind declarations that fit, a group is one more declaration that fits, or it is passed over as
a whole, with a stop inside it and no other effect. -/
theorem declaration_group {diagram : Diagram} (hfit : diagram.AllFit) {tokens : List Token}
    (hgroup : IsGroup tokens) (hspelled : ∀ token ∈ tokens, token.Spelled) :
    ∃ (stop : Option (Stop Refusal)) (later : Diagram), later.AllFit ∧
      (∀ found ∈ stop, found.Within (· ∈ tokens) ∧ found.next.isSome ∧ later = diagram) ∧
        ∀ rest, (Reading.mk (tokens ++ rest) 0 diagram.builder).declaration Builder.meaning
          (maxDepth + 1) = (stop, ⟨rest, 0, later.builder⟩) := by
  rcases Reader.field_group hgroup hspelled maxDepth .start diagram.builder with
    ⟨state, hread⟩ | ⟨fault, after, hblame, hsubset, hcloses, hread⟩
  · have hreads := hread []
    rw [List.append_nil] at hreads
    obtain ⟨declaration, written, hwritten, hpass⟩ :=
      (reads_declaration (Nat.le_refl _) ⟨tokens, 0, diagram.builder⟩ _ rfl hspelled).1 hreads
    obtain ⟨hnew, rfl⟩ := (acts_declaration hfit.names_nodup declaration).1 hpass.acts
    refine ⟨none, diagram ++ [declaration], allFit_concat.2 ⟨hfit, hnew⟩, ?_, fun rest => ?_⟩
    · intro found hfound
      cases hfound
    · simp only [Reading.declaration, hread rest]
  · refine ⟨some ⟨fault, after.next?⟩, diagram, hfit, ?_, fun rest => ?_⟩
    · intro found hfound
      cases hfound
      refine ⟨⟨hblame, fun token htoken => hsubset (Reading.mem_of_next? htoken)⟩, ?_, rfl⟩
      exact List.isSome_head?.2 hcloses.ne_nil
    · have hundo : Builder.meaning.undo diagram.builder after.state = diagram.builder :=
        undo_builder rfl (hread rest)
      have hnext : (after.extend rest).next? = after.next? :=
        Reading.next?_extend hcloses.ne_nil rest
      simp only [Reading.declaration, hread rest, hnext]
      change (_, Reading.mk (Reading.afterGroup after.depth (after.unread ++ rest)) 0
        (Builder.meaning.undo diagram.builder after.state)) = _
      rw [hcloses.afterGroup, hundo]

/-- Behind tokens that leave no group open, the builder is that of declarations that fit. -/
theorem takes_pieces {tokens : List Token} (hpieces : Pieces tokens)
    (hspelled : ∀ token ∈ tokens, token.Spelled) {diagram : Diagram} (hfit : diagram.AllFit) :
    ∃ (stops : List (Stop Refusal)) (later : Diagram), later.AllFit ∧
      (∀ stop ∈ stops, stop.Within (· ∈ tokens)) ∧
        Reading.Takes Builder.meaning (maxDepth + 1) tokens diagram.builder stops later.builder := by
  induction hpieces generalizing diagram with
  | nil =>
      refine ⟨[], diagram, hfit, ?_, Reading.takes_nil _ _ _⟩
      intro stop hstop
      cases hstop
  | @stray token rest hkind _ ih =>
      obtain ⟨htoken, hrest⟩ := List.forall_mem_cons.1 hspelled
      obtain ⟨stops, later, hlater, hwithin, htakes⟩ := ih hrest hfit
      have hfirst := Reading.takes_of_declaration Builder.meaning
        (List.forall_mem_singleton.2 htoken) (List.cons_ne_nil _ _)
        (diagram.declaration_stray hkind)
      refine ⟨_, later, hlater, ?_, hfirst.append Builder.meaning hrest htakes⟩
      intro stop hstop
      rcases List.mem_cons.1 hstop with rfl | hstop
      · refine ⟨fun blamed h => ?_, fun next h => ?_⟩
        · exact Option.mem_some.1 h ▸ List.mem_cons_self
        · exact Option.mem_some.1 h ▸ List.mem_cons_self
      · exact (hwithin stop hstop).mono fun _ => List.mem_cons_of_mem _
  | @group front back hgroup _ ih =>
      obtain ⟨hfront, hback⟩ := List.forall_mem_append.1 hspelled
      obtain ⟨stop, middle, hmiddle, hstop, hread⟩ := declaration_group hfit hgroup hfront
      obtain ⟨stops, later, hlater, hwithin, htakes⟩ := ih hback hmiddle
      have hfirst := Reading.takes_of_declaration Builder.meaning hfront hgroup.ne_nil hread
      refine ⟨_, later, hlater, ?_, hfirst.append Builder.meaning hback htakes⟩
      intro found hfound
      rcases List.mem_append.1 hfound with hfound | hfound
      · exact (hstop found (Option.mem_toList.1 hfound)).1.mono fun _ => List.mem_append_left _
      · exact (hwithin found hfound).mono fun _ => List.mem_append_right _

end Diagram
end ErDiagram
