import ErDiagram.Proofs.Lookahead

/-!
Reading declarations one after another. Every declaration uses up a token at least, so declarations
are read up to the end of input, and none but their tokens are blamed. No declaration stops exactly
if the tokens write a diagram whose actions are carried out.
-/

namespace ErDiagram

variable {σ ε : Type}

/-- A stop that involves none but allowed tokens. -/
structure Stop.Within (allowed : Token → Prop) (stop : Stop ε) : Prop where
  blames : ∀ token ∈ stop.fault.token, allowed token
  next : ∀ token ∈ stop.next, allowed token

theorem Stop.Within.mono {allowed allowed' : Token → Prop} {stop : Stop ε}
    (h : stop.Within allowed) (himp : ∀ token, allowed token → allowed' token) :
    stop.Within allowed' :=
  ⟨fun token htoken => himp token (h.blames token htoken),
    fun token htoken => himp token (h.next token htoken)⟩

namespace Reading

theorem afterGroup_suffix (depth : Int) (tokens : List Token) :
    afterGroup depth tokens <:+ tokens := by
  fun_induction afterGroup depth tokens with
  | case1 => exact List.suffix_refl _
  | case2 depth token rest _ => exact List.suffix_cons token rest
  | case3 depth token rest _ ih => exact ih.trans (List.suffix_cons token rest)

variable (meaning : Interpretation σ ε)

section

variable {allowed : Token → Prop} (hspelled : ∀ token, allowed token → token.Spelled)
include hspelled

/-- A declaration uses up a token at least, and stops at none but the tokens that it was given. -/
theorem declaration_spec (budget : Nat) {before : Reading σ}
    (hallowed : ∀ token ∈ before.unread, allowed token) (hunread : before.unread ≠ []) :
    (before.declaration meaning budget).2.unread <:+ before.unread ∧
      (before.declaration meaning budget).2.unread.length < before.unread.length ∧
        ∀ stop ∈ (before.declaration meaning budget).1, stop.Within allowed := by
  obtain ⟨hconfined, hprogress⟩ := Confined.field meaning hspelled budget .start
  cases hfield : Reader.field meaning budget .start before with
  | ok _ after =>
      simp only [declaration, hfield]
      refine ⟨(hconfined.ok hallowed hfield).1.suffix, hprogress _ _ _ hallowed hfield, ?_⟩
      intro stop hstop
      cases hstop
  | error fault after =>
      obtain ⟨hreach, -, hblame⟩ := hconfined.error hallowed hfield
      simp only [declaration, hfield]
      refine ⟨(afterGroup_suffix _ _).trans hreach.suffix, ?_, ?_⟩
      · by_cases hafter : after.unread = []
        · change (afterGroup after.depth after.unread).length < _
          rw [hafter]
          exact List.length_pos_iff.2 hunread
        · exact Nat.lt_of_lt_of_le (length_afterGroup_lt _ hafter) hreach.suffix.length_le
      · intro stop hstop
        cases hstop
        exact ⟨hblame, fun token htoken =>
          hallowed token (hreach.suffix.subset (mem_of_next? htoken))⟩

end

/-! ### One declaration after another -/

theorem declarationsWithin_eq (budget : Nat) (stops : List (Stop ε)) (reading : Reading σ)
    (bound : List Token) :
    reading.declarationsWithin meaning budget stops bound =
      (stops.reverse ++ (reading.declarationsWithin meaning budget [] bound).1,
        (reading.declarationsWithin meaning budget [] bound).2) := by
  induction bound generalizing stops reading with
  | nil => simp [declarationsWithin]
  | cons token bound ih =>
      simp only [declarationsWithin]
      split
      · simp
      · split
        · exact ih stops _
        · rename_i stop after _
          rw [ih (stop :: stops), ih [stop]]
          simp

theorem declarationsWithin_of_unread (budget : Nat) {reading : Reading σ}
    (h : reading.unread = []) (bound : List Token) :
    reading.declarationsWithin meaning budget [] bound = ([], reading) := by
  cases bound with
  | nil => rfl
  | cons token bound =>
      rw [declarationsWithin, if_pos (List.isEmpty_iff.2 h)]
      rfl

theorem declarationsWithin_cons (budget : Nat) {reading : Reading σ} (h : reading.unread ≠ [])
    (token : Token) (bound : List Token) :
    reading.declarationsWithin meaning budget [] (token :: bound) =
      ((reading.declaration meaning budget).1.toList ++
          ((reading.declaration meaning budget).2.declarationsWithin meaning budget [] bound).1,
        ((reading.declaration meaning budget).2.declarationsWithin meaning budget [] bound).2) := by
  rw [declarationsWithin, if_neg (fun hnil => h (List.isEmpty_iff.1 hnil))]
  rcases reading.declaration meaning budget with ⟨_ | stop, after⟩
  · rfl
  · exact declarationsWithin_eq meaning budget [stop] after bound

/-- A bound on the number of declarations does not matter if it is long enough. -/
theorem declarationsWithin_congr (budget : Nat) {reading : Reading σ} {bound bound' : List Token}
    (hspelled : ∀ token ∈ reading.unread, token.Spelled)
    (h : reading.unread.length ≤ bound.length) (h' : reading.unread.length ≤ bound'.length) :
    reading.declarationsWithin meaning budget [] bound =
      reading.declarationsWithin meaning budget [] bound' := by
  induction bound generalizing reading bound' with
  | nil =>
      have hnil := List.eq_nil_of_length_eq_zero (Nat.le_zero.1 h)
      rw [declarationsWithin_of_unread meaning budget hnil,
        declarationsWithin_of_unread meaning budget hnil]
  | cons token bound ih =>
      by_cases hnil : reading.unread = []
      · rw [declarationsWithin_of_unread meaning budget hnil,
          declarationsWithin_of_unread meaning budget hnil]
      · cases bound' with
        | nil => exact absurd (List.eq_nil_of_length_eq_zero (Nat.le_zero.1 h')) hnil
        | cons token' bound' =>
            obtain ⟨hsuffix, hlt, -⟩ :=
              declaration_spec meaning (fun _ => id) budget hspelled hnil
            rw [List.length_cons] at h h'
            rw [declarationsWithin_cons meaning budget hnil,
              declarationsWithin_cons meaning budget hnil,
              @ih _ bound' (fun token htoken => hspelled token (hsuffix.subset htoken)) (by omega)
                (by omega)]

/-- Declarations are one declaration and the declarations behind it. -/
theorem declarations_step (budget : Nat) {reading : Reading σ}
    (hspelled : ∀ token ∈ reading.unread, token.Spelled) (hunread : reading.unread ≠ []) :
    reading.declarations meaning budget =
      ((reading.declaration meaning budget).1.toList ++
          ((reading.declaration meaning budget).2.declarations meaning budget).1,
        ((reading.declaration meaning budget).2.declarations meaning budget).2) := by
  obtain ⟨hsuffix, hlt, -⟩ := declaration_spec meaning (fun _ => id) budget hspelled hunread
  obtain ⟨token, rest, htokens⟩ := List.exists_cons_of_ne_nil hunread
  rw [htokens, List.length_cons] at hlt
  rw [declarations, htokens, declarationsWithin_cons meaning budget hunread, declarations,
    declarationsWithin_congr meaning budget
      (fun token htoken => hspelled token (hsuffix.subset htoken)) (Nat.le_of_lt_succ hlt)
      (Nat.le_refl _)]

/-- None but the tokens that declarations are read from are involved in stops. -/
theorem within_of_mem_declarations {allowed : Token → Prop}
    (hspelled : ∀ token, allowed token → token.Spelled) (budget : Nat) {reading : Reading σ}
    (hallowed : ∀ token ∈ reading.unread, allowed token) :
    ∀ stop ∈ (reading.declarations meaning budget).1, stop.Within allowed := by
  generalize hlength : reading.unread.length = length
  induction length using Nat.strong_induction_on generalizing reading with
  | h length ih =>
      by_cases hnil : reading.unread = []
      · intro stop hstop
        rw [declarations, declarationsWithin_of_unread meaning budget hnil] at hstop
        cases hstop
      · obtain ⟨hsuffix, hlt, hwithin⟩ := declaration_spec meaning hspelled budget hallowed hnil
        rw [declarations_step meaning budget (fun token h => hspelled token (hallowed token h)) hnil]
        intro stop hstop
        rcases List.mem_append.1 hstop with hstop | hstop
        · exact hwithin stop (Option.mem_toList.1 hstop)
        · exact ih _ (hlength ▸ hlt) (fun token htoken => hallowed token (hsuffix.subset htoken)) rfl
            stop hstop

end Reading

/-! ### Declarations that do not stop -/

variable {meaning : Interpretation σ ε}

theorem diagram_nil_of_writtenAs {diagram : Diagram} (h : diagram.WrittenAs []) : diagram = [] := by
  generalize htokens : [] = tokens at h
  cases h with
  | nil => rfl
  | cons hfirst _ =>
      obtain ⟨-, first, rest, rfl, -⟩ := Declaration.grouped _ _ hfirst
      cases htokens

/-- Without tokens there is nothing to read, and nothing that could have been written. -/
theorem nothing_unread_iff {before after : Reading σ} (hnil : before.unread = []) :
    (([], before) = (([], after) : List (Stop ε) × Reading σ) ↔
      ∃ diagram : Diagram, diagram.WrittenAs before.unread ∧
        Passes meaning (diagram.flatMap Declaration.actions) before.unread before after) := by
  rw [hnil]
  constructor
  · intro h
    cases h
    exact ⟨[], .nil, passes_nil.2 rfl⟩
  · rintro ⟨diagram, hwritten, hpass⟩
    cases diagram_nil_of_writtenAs hwritten
    rw [passes_nil.1 hpass]

theorem declarations_ok_step {budget : Nat} {before after : Reading σ}
    (hspelled : ∀ token ∈ before.unread, token.Spelled) (hunread : before.unread ≠ []) :
    before.declarations meaning budget = ([], after) ↔
      ∃ middle, Reader.field meaning budget .start before = .ok () middle ∧
        middle.declarations meaning budget = ([], after) := by
  rw [Reading.declarations_step meaning budget hspelled hunread]
  cases hfield : Reader.field meaning budget .start before with
  | error fault middle => simp [Reading.declaration, hfield]
  | ok _ middle => simp [Reading.declaration, hfield, Prod.ext_iff]

/-- No declaration stops exactly if the tokens write a diagram, no deeper than allowed, and all its
actions are carried out. -/
theorem declarations_ok {budget : Nat} (hbudget : maxDepth + 1 ≤ budget)
    {before after : Reading σ} (hdepth : before.depth = 0)
    (hspelled : ∀ token ∈ before.unread, token.Spelled) :
    before.declarations meaning budget = ([], after) ↔
      ∃ diagram : Diagram, diagram.WrittenAs before.unread ∧
        Passes meaning (diagram.flatMap Declaration.actions) before.unread before after := by
  generalize hlength : before.unread.length = length
  induction length using Nat.strong_induction_on generalizing before with
  | h length ih =>
      by_cases hnil : before.unread = []
      · rw [Reading.declarations, Reading.declarationsWithin_of_unread meaning budget hnil]
        exact nothing_unread_iff hnil
      · rw [declarations_ok_step hspelled hnil]
        -- Behind the first declaration.
        have hrest : ∀ {first : Declaration} {front : List Token} {middle : Reading σ},
            first.WrittenAs front → Passes meaning first.actions front before middle →
              (middle.declarations meaning budget = ([], after) ↔
                ∃ diagram : Diagram, diagram.WrittenAs middle.unread ∧
                  Passes meaning (diagram.flatMap Declaration.actions) middle.unread middle
                    after) := by
          intro first front middle hfirst hpass
          obtain ⟨hbalanced, opening, rest, rfl, -⟩ := Declaration.grouped _ _ hfirst
          refine ih middle.unread.length ?_ ?_ (hpass.spelled hspelled) rfl
          · rw [← hlength, hpass.unread, List.cons_append, List.length_cons, List.length_append]
            omega
          · rw [hpass.depth, hdepth, hbalanced]
            rfl
        constructor
        · rintro ⟨middle, hfield, hmiddle⟩
          obtain ⟨first, front, hfirst, hpass⟩ :=
            (reads_declaration hbudget _ _ hdepth hspelled).1 hfield
          obtain ⟨diagram, hwritten, hpass'⟩ := (hrest hfirst hpass).1 hmiddle
          refine ⟨first :: diagram, hpass.unread ▸ .cons hfirst hwritten, ?_⟩
          exact hpass.unread ▸ (passes_append _ _).2 ⟨middle, hpass, hpass'⟩
        · rintro ⟨diagram, hwritten, hpass⟩
          generalize htokens : before.unread = tokens at hwritten hpass
          cases hwritten with
          | nil => exact absurd htokens hnil
          | @cons first diagram front back hfirst hwritten =>
              obtain ⟨middle, hfront, hback⟩ := (passes_append _ _).1 hpass
              have hunread : middle.unread = back :=
                List.append_cancel_left (hfront.unread.symm.trans htokens)
              have hfield := (reads_declaration hbudget _ _ hdepth hspelled).2
                ⟨first, front, hfirst, hfront⟩
              refine ⟨middle, hfield, (hrest hfirst hfront).2 ⟨diagram, ?_, ?_⟩⟩
              · rw [hunread]
                exact hwritten
              · rw [hunread]
                exact hback

end ErDiagram
