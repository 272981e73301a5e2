import ErDiagram.Proofs.Declarations

/-!
Loops that end by themselves. The readers of fields, of key names and of declarations are loops whose
passes are bounded in number by a list. The bound is never what ends them: they do what the unbounded
loops do, in which every pass stops or leaves fewer tokens.
-/

namespace ErDiagram

/-- A loop comes to a result. Each of its passes ends it, or goes on with fewer tokens. -/
inductive Loops {S R : Type} (unread : S → List Token) (pass : S → S ⊕ R) : S → R → Prop where
  | ends {state : S} {result : R} (hpass : pass state = .inr result) :
    Loops unread pass state result
  | goes {state next : S} {result : R} (hpass : pass state = .inl next)
    (hless : (unread next).length < (unread state).length)
    (hrest : Loops unread pass next result) : Loops unread pass state result

/-- A run that is bounded by a list is a loop, if it makes the passes of the loop and the list is long
enough. -/
theorem Loops.of_bound {S R : Type} {unread : S → List Token} {pass : S → S ⊕ R}
    {run : List Token → S → R} {good : S → Prop}
    (hend : ∀ state, unread state = [] → pass state = .inr (run [] state))
    (hpass : ∀ state token bound, good state →
      match pass state with
      | .inr result => run (token :: bound) state = result
      | .inl next => good next ∧ (unread next).length < (unread state).length ∧
          run (token :: bound) state = run bound next)
    {bound : List Token} {state : S} (hgood : good state)
    (hbound : (unread state).length ≤ bound.length) :
    Loops unread pass state (run bound state) := by
  induction bound generalizing state with
  | nil => exact .ends (hend state (List.eq_nil_of_length_eq_zero (Nat.le_zero.1 hbound)))
  | cons token bound ih =>
      have hrun := hpass state token bound hgood
      cases hstate : pass state with
      | inr result =>
          rw [hstate] at hrun
          exact hrun ▸ .ends hstate
      | inl next =>
          rw [hstate] at hrun
          obtain ⟨hnext, hless, hrun⟩ := hrun
          rw [List.length_cons] at hbound
          exact hrun ▸ .goes hstate hless (ih hnext (by omega))

variable {σ ε : Type}

namespace Reader

def itemPass (item : Reader σ ε Unit) (reading : Reading σ) :
    Reading σ ⊕ EStateM.Result (Fault ε) (Reading σ) Unit :=
  if reading.atBodyEnd then .inr (.ok () reading)
  else
    match item reading with
    | .ok () after => .inl after
    | .error fault after => .inr (.error fault after)

def keyName (meaning : Interpretation σ ε) : Reader σ ε String := do
  let name ← expectName .attribute
  report meaning (.ownsAttribute name.text) (some name)
  pure name.text

/-- One pass of the loop that reads the names of a primary key. -/
def namePass (meaning : Interpretation σ ε) (state : List String × Reading σ) :
    List String × Reading σ ⊕ EStateM.Result (Fault ε) (Reading σ) (List String) :=
  if state.2.atBodyEnd then .inr (.ok state.1.reverse state.2)
  else
    match keyName meaning state.2 with
    | .ok name after => .inl (name :: state.1, after)
    | .error fault after => .inr (.error fault after)

theorem bind_of_ok {α β : Type} {reader : Reader σ ε α} {next : α → Reader σ ε β} {a : α}
    {before middle : Reading σ} (h : reader before = .ok a middle) :
    (reader >>= next) before = next a middle := by
  change EStateM.bind reader next before = _
  unfold EStateM.bind
  rw [h]

theorem atBodyEnd_of_unread_eq_nil {reading : Reading σ} (h : reading.unread = []) :
    reading.atBodyEnd = true :=
  atBodyEnd_of_unread (Nat.le_of_eq (congrArg List.length h))

/-- Items are read by a loop. -/
theorem loops_items {allowed : Token → Prop} {item : Reader σ ε Unit}
    (hitem : Confined allowed (fun _ => True) 0 item) (hprogress : Progresses allowed item)
    {reading : Reading σ} (hallowed : ∀ token ∈ reading.unread, allowed token) :
    Loops Reading.unread (itemPass item) reading (items item reading) := by
  refine @Loops.of_bound _ _ _ _ (itemsWithin item) (∀ token ∈ ·.unread, allowed token) ?_ ?_
    reading.unread reading hallowed (Nat.le_refl _)
  · intro state hnil
    rw [itemPass, if_pos (atBodyEnd_of_unread_eq_nil hnil)]
    rfl
  · intro state token bound hgood
    by_cases hend : state.atBodyEnd = true
    · rw [itemPass, if_pos hend]
      exact itemsWithin_of_end hend _
    · rw [itemPass, if_neg hend, itemsWithin_of_item hend]
      cases hread : item state with
      | error fault after => exact bind_error.2 (Or.inl hread)
      | ok u next =>
          have hsuffix := (hitem.ok hgood hread).1.suffix
          exact ⟨fun token htoken => hgood token (hsuffix.subset htoken),
            hprogress _ _ _ hgood hread, bind_of_ok hread⟩

variable (meaning : Interpretation σ ε)

theorem keyNames_of_pass {state : List String × Reading σ} (h : ¬state.2.atBodyEnd = true)
    (token : Token) (bound : List Token) :
    keyNames meaning state.1 (token :: bound) state.2 =
      (keyName meaning >>= fun name => keyNames meaning (name :: state.1) bound) state.2 := by
  rw [keyNames_of_name h]
  simp only [keyName, bind_assoc, pure_bind]

/-- A name is one token. -/
theorem length_keyName {before after : Reading σ} {name : String}
    (h : keyName meaning before = .ok name after) : after.unread.length < before.unread.length := by
  obtain ⟨token, middle, hexpect, hrest⟩ := bind_ok.1 h
  obtain ⟨u, last, hreport, hpure⟩ := bind_ok.1 hrest
  cases hpure
  have hsame : middle.unread = after.unread := (report_ok.1 hreport).unread
  rw [(expect_ok_iff.1 hexpect).2.1, hsame, List.length_cons]
  exact Nat.lt_succ_self _

/-- The names of a primary key are read by a loop. -/
theorem loops_keyNames (reading : Reading σ) :
    Loops (fun state => state.2.unread) (namePass meaning) ([], reading)
      (keyNames meaning [] reading.unread reading) := by
  refine @Loops.of_bound _ _ (fun state => state.2.unread) _
    (fun bound state => keyNames meaning state.1 bound state.2) (fun _ => True) ?_ ?_ reading.unread
    ([], reading) trivial (Nat.le_refl _)
  · intro state hnil
    rw [namePass, if_pos (atBodyEnd_of_unread_eq_nil hnil)]
    rfl
  · intro state token bound _
    by_cases hend : state.2.atBodyEnd = true
    · rw [namePass, if_pos hend]
      exact keyNames_of_end hend _ _
    · rw [namePass, if_neg hend, keyNames_of_pass meaning hend]
      cases hread : keyName meaning state.2 with
      | error fault after => exact bind_error.2 (Or.inl hread)
      | ok name next => exact ⟨trivial, length_keyName meaning hread, bind_of_ok hread⟩

end Reader

namespace Reading

variable (meaning : Interpretation σ ε)

/-- One pass of the loop that reads declarations, behind the stops found already, which come last
first. -/
def declarationPass (budget : Nat) (state : List (Stop ε) × Reading σ) :
    List (Stop ε) × Reading σ ⊕ List (Stop ε) × Reading σ :=
  if state.2.unread.isEmpty then .inr (state.1.reverse, state.2)
  else
    match state.2.declaration meaning budget with
    | (none, after) => .inl (state.1, after)
    | (some stop, after) => .inl (stop :: state.1, after)

/-- Declarations are read by a loop, which a fault does not end. -/
theorem loops_declarations (budget : Nat) {reading : Reading σ}
    (hspelled : ∀ token ∈ reading.unread, token.Spelled) :
    Loops (fun state => state.2.unread) (declarationPass meaning budget) ([], reading)
      (reading.declarations meaning budget) := by
  refine @Loops.of_bound _ _ (fun state => state.2.unread) _
    (fun bound state => state.2.declarationsWithin meaning budget state.1 bound)
    (∀ token ∈ ·.2.unread, token.Spelled) ?_ ?_ reading.unread ([], reading) hspelled
    (Nat.le_refl _)
  · intro state hnil
    rw [declarationPass, if_pos (List.isEmpty_iff.2 hnil)]
    rfl
  · intro state token bound hgood
    by_cases hend : state.2.unread.isEmpty = true
    · rw [declarationPass, if_pos hend, declarationsWithin, if_pos hend]
    · have hne : state.2.unread ≠ [] := fun h => hend (List.isEmpty_iff.2 h)
      obtain ⟨hsuffix, hless, -⟩ := declaration_spec meaning (fun _ => id) budget hgood hne
      have hleft : ∀ token ∈ (state.2.declaration meaning budget).2.unread, token.Spelled :=
        fun token htoken => hgood token (hsuffix.subset htoken)
      rw [declarationPass, if_neg hend, declarationsWithin, if_neg hend]
      rcases hread : state.2.declaration meaning budget with ⟨_ | stop, after⟩
      · rw [hread] at hless hleft
        exact ⟨hleft, hless, rfl⟩
      · rw [hread] at hless hleft
        exact ⟨hleft, hless, rfl⟩

end Reading
end ErDiagram
