import ErDiagram.Proofs.Declarations
import ErDiagram.Proofs.Forms
import ErDiagram.Proofs.Viewing

/-!
Readers that call themselves. A reader of fields calls itself for the fields inside, and nothing but
the tokens need limit how often: each call uses up a token before it makes another one. So a reader
without a budget is determined by what one call does, and with a budget for as many calls as there are
tokens it is the same reader. Since parentheses nested too deeply are refused, a budget for as many
calls as parentheses may be nested, and one more, is as good as none.
-/

namespace ErDiagram

variable {σ τ ε ι : Type}

/-! ### Calls inside one another -/

/-- The reading has fewer tokens left than that. -/
def Reading.ShorterThan (count : Nat) (reading : Reading σ) : Prop :=
  reading.unread.length < count

theorem View.Ends.eq {meaning : Interpretation σ ε} {α : Type} {safe : Reading σ → Prop}
    {post : α → Reading σ → Prop} {result result' : EStateM.Result (Fault ε) (Reading σ) α}
    (h : (View.whole meaning).Ends safe post result result') : result = result' := by
  cases h <;> rfl

namespace Reader

/-- Two readers do the same where fewer tokens are left than that, and leave fewer. -/
def AgreesBelow (meaning : Interpretation σ ε) (count : Nat) (reader other : Reader σ ε Unit) :
    Prop :=
  (View.whole meaning).Follows (fun _ => True) (Reading.ShorterThan count) reader other
    fun _ => Reading.ShorterThan count

/-- Readers that call one another, as deep as a budget allows, by what one call does if it is given
readers for the calls that it makes. -/
def nested (call : (ι → Reader σ ε Unit) → ι → Reader σ ε Unit) : Nat → ι → Reader σ ε Unit
  | 0, _ => fail .exhausted none
  | budget + 1, i => call (nested call budget) i

/-- Readers that call one another as deep as there are tokens. -/
def unlimited (call : (ι → Reader σ ε Unit) → ι → Reader σ ε Unit) (i : ι) : Reader σ ε Unit :=
  fun reading => nested call (reading.unread.length + 1) i reading

/-- Each call uses up a token before it makes another one. -/
def Descends (meaning : Interpretation σ ε) (call : (ι → Reader σ ε Unit) → ι → Reader σ ε Unit) :
    Prop :=
  ∀ count readers others, (∀ i, AgreesBelow meaning count (readers i) (others i)) →
    ∀ i, AgreesBelow meaning (count + 1) (call readers i) (call others i)

theorem agreesBelow_zero (meaning : Interpretation σ ε) (reader other : Reader σ ε Unit) :
    AgreesBelow meaning 0 reader other :=
  fun _ hbefore => absurd hbefore (Nat.not_lt_zero _)

namespace Descends

variable {meaning : Interpretation σ ε} {call : (ι → Reader σ ε Unit) → ι → Reader σ ε Unit}
  (h : Descends meaning call)
include h

/-- The budget does not matter if there are no more tokens. -/
theorem agreesBelow_nested {count budget budget' : Nat} (hbudget : count ≤ budget)
    (hbudget' : count ≤ budget') (i : ι) :
    AgreesBelow meaning count (nested call budget i) (nested call budget' i) := by
  induction count generalizing budget budget' i with
  | zero => exact agreesBelow_zero _ _ _
  | succ count ih =>
      obtain ⟨less, rfl⟩ := Nat.exists_eq_add_of_le' hbudget
      obtain ⟨less', rfl⟩ := Nat.exists_eq_add_of_le' hbudget'
      exact h count _ _ (fun i => ih (Nat.le_add_left _ _) (Nat.le_add_left _ _) i) i

theorem agreesBelow_unlimited (count : Nat) (i : ι) :
    AgreesBelow meaning count (nested call count i) (unlimited call i) := by
  intro before hbefore
  have hagree := h.agreesBelow_nested hbefore (Nat.le_refl _) i
  exact hagree.weaken (fun _ _ hafter => Nat.lt_of_lt_of_le hafter hbefore) before
    (Nat.lt_succ_self _)

/-- With no budget, a call is made with readers that have none either. -/
theorem unlimited_eq (i : ι) : unlimited call i = call (unlimited call) i := by
  funext reading
  exact (h _ _ _ (h.agreesBelow_unlimited reading.unread.length) i reading (Nat.lt_succ_self _)).eq

/-- What one call does leaves no choice for readers that call themselves. -/
theorem calls_iff {readers : ι → Reader σ ε Unit} :
    (∀ i, readers i = call readers i) ↔ readers = unlimited call := by
  constructor
  · intro hreaders
    have hagree : ∀ count i, AgreesBelow meaning count (readers i) (unlimited call i) := by
      intro count
      induction count with
      | zero => exact fun i => agreesBelow_zero _ _ _
      | succ count ih =>
          intro i
          rw [hreaders i, h.unlimited_eq i]
          exact h count _ _ ih i
    funext i reading
    exact (hagree _ i reading (Nat.lt_succ_self _)).eq
  · rintro rfl
    exact h.unlimited_eq

end Descends

/-! ### Fields inside fields -/

/-- Reads a field of a construct, with the fields inside read by other readers. -/
def fieldWith (meaning : Interpretation σ ε) (inside : Node.Kind → Reader σ ε Unit)
    (owner : Node.Kind) : Reader σ ε Unit := do
  let paren ← expectKind .leftParen
  if maxDepth < (← ask Reading.depth) then
    fail (.malformed .nestedTooDeeply) (some paren)
  else
    let (keyword, kind) ← fieldKeyword owner
    fieldBody meaning inside keyword kind
    let _ ← expectKind .rightParen

/-- Reads a field of a construct, however deep fields are nested in it. -/
def unlimitedField (meaning : Interpretation σ ε) : Node.Kind → Reader σ ε Unit :=
  unlimited (fieldWith meaning)

theorem field_add_one (meaning : Interpretation σ ε) (budget : Nat) :
    field meaning (budget + 1) = fieldWith meaning (field meaning budget) := rfl

/-- Behind its reserved word, a field that does not stand too deep goes on with its body. -/
theorem fieldWith_of_keyword (meaning : Interpretation σ ε) (inside : Node.Kind → Reader σ ε Unit)
    {paren keyword : Token} (hparen : paren.kind = .leftParen) {owner : Node.Kind} {kind : Field}
    (hfind : Field.find? owner keyword.kind = some kind) {depth : Int} (hdepth : depth < maxDepth)
    (rest : List Token) (state : σ) :
    fieldWith meaning inside owner ⟨paren :: keyword :: rest, depth, state⟩ =
      (do
        fieldBody meaning inside keyword kind
        let _ ← expectKind .rightParen) ⟨rest, depth + 1, state⟩ := by
  have hopening : (expectKind .leftParen : Reader σ ε Token)
      ⟨paren :: keyword :: rest, depth, state⟩ =
        .ok paren ⟨keyword :: rest, depth + 1, state⟩ := by
    rw [expectKind, expect_cons hparen, nesting_leftParen hparen]
  have hdeep : (ask Reading.depth : Reader σ ε Int) ⟨keyword :: rest, depth + 1, state⟩ =
      .ok (depth + 1) ⟨keyword :: rest, depth + 1, state⟩ := rfl
  have hword : (fieldKeyword owner : Reader σ ε (Token × Field))
      ⟨keyword :: rest, depth + 1, state⟩ = .ok (keyword, kind) ⟨rest, depth + 1, state⟩ := by
    obtain ⟨word, hword, -⟩ := Field.find?_eq_some.1 hfind
    simp [fieldKeyword, Reading.next?, hfind, nesting_reserved hword]
  rw [fieldWith, bind_of_ok hopening, bind_of_ok hdeep, if_neg (by omega), bind_of_ok hword]

end Reader

theorem View.Follows.fieldWith {fine : Interpretation τ ε} {coarse : Interpretation σ ε}
    {view : View fine coarse} {safe outside inner : Reading τ → Prop}
    (hinner : View.Steady fine safe inner)
    (hsafe : ∀ reading, outside reading → safe reading)
    (hopen : ∀ reading token, outside reading → token ∈ reading.next? → token.kind = .leftParen →
      inner reading.advance)
    (hclose : ∀ reading token, inner reading → token ∈ reading.next? → token.kind = .rightParen →
      outside reading.advance)
    {inside : Node.Kind → Reader τ ε Unit} {inside' : Node.Kind → Reader σ ε Unit}
    (hinside : ∀ reading, inner reading → reading.depth ≤ maxDepth → ∀ kind,
      view.Follows safe inner (inside kind) (inside' kind) fun _ => inner)
    (owner : Node.Kind) :
    view.Follows safe outside (Reader.fieldWith fine inside owner)
      (Reader.fieldWith coarse inside' owner) fun _ => outside := by
  apply (expect hsafe hopen).bind
  intro paren
  apply depth.bind
  rintro depth reading ⟨hreading, hdepth⟩
  split
  · exact .error (hinner.safe hreading)
  · have hfields := hinside reading hreading (by omega)
    suffices hbody : view.Follows safe inner _ _ fun _ => outside from hbody reading hreading
    apply (fieldKeyword hinner owner).bind
    intro found
    apply (fieldBody hinner hfields found.1 found.2).bind
    intro _
    apply (expect (fun _ => hinner.safe) hclose).bind
    intro closing
    exact pure () fun _ => id

/-! ### No budget -/

namespace Reading

namespace ShorterThan

variable {count : Nat} {reading : Reading σ}

theorem more (h : reading.ShorterThan count) : reading.ShorterThan (count + 1) :=
  Nat.lt_succ_of_lt h

theorem advance (h : reading.ShorterThan (count + 1)) {token : Token}
    (hnext : token ∈ reading.next?) : reading.advance.ShorterThan count := by
  obtain ⟨unread, depth, state⟩ := reading
  cases unread with
  | nil => cases hnext
  | cons first rest => exact Nat.lt_of_succ_lt_succ h

theorem steady (meaning : Interpretation σ ε) (count : Nat) :
    View.Steady meaning (fun _ => True) (ShorterThan count) where
  safe _ := trivial
  advance hreading hnext _ := hreading.more.advance hnext
  act hreading _ := hreading

end ShorterThan

/-- So many parentheses are open, and the tokens that are left are spelled. -/
structure AtDepth (depth : Int) (reading : Reading σ) : Prop where
  depth_eq : reading.depth = depth
  spelled : ∀ token ∈ reading.unread, token.Spelled

theorem AtDepth.advance {depth : Int} {reading : Reading σ} (h : reading.AtDepth depth)
    {token : Token} (hnext : token ∈ reading.next?) :
    reading.advance.AtDepth (depth + token.nesting) := by
  obtain ⟨unread, _, state⟩ := reading
  obtain ⟨rfl, hspelled⟩ := h
  cases unread with
  | nil => cases hnext
  | cons first rest =>
      obtain rfl : first = token := Option.some.inj hnext
      exact ⟨rfl, fun token htoken => hspelled token (List.mem_cons_of_mem _ htoken)⟩

theorem AtDepth.steady (meaning : Interpretation σ ε) (depth : Int) :
    View.Steady meaning (fun reading => ∀ token ∈ reading.unread, token.Spelled)
      (AtDepth depth) where
  safe hreading := hreading.spelled
  advance {_ token} hreading hnext hflat := by
    have hadvance := hreading.advance hnext
    rwa [hflat (hreading.spelled token (mem_of_next? hnext)), Int.add_zero] at hadvance
  act hreading _ := ⟨hreading.depth_eq, hreading.spelled⟩

end Reading

namespace Reader

variable (meaning : Interpretation σ ε)

theorem descends_fieldWith : Descends meaning (fieldWith meaning) := by
  intro count readers others hagree owner
  exact View.Follows.fieldWith (Reading.ShorterThan.steady meaning count) (fun _ _ => trivial)
    (fun _ _ hreading hnext _ => hreading.advance hnext)
    (fun _ _ hreading hnext _ => (hreading.more.advance hnext).more) (fun _ _ _ => hagree) owner

/-- A budget for all parentheses that may be opened yet, and one more, is as good as none. -/
theorem follows_field {budget : Nat} {depth : Int} (hdepth : depth ≤ maxDepth)
    (hbudget : maxDepth < budget + depth) (owner : Node.Kind) :
    (View.whole meaning).Follows (fun reading => ∀ token ∈ reading.unread, token.Spelled)
      (Reading.AtDepth depth) (unlimitedField meaning owner) (field meaning budget owner)
      fun _ => Reading.AtDepth depth := by
  induction budget generalizing depth owner with
  | zero => omega
  | succ budget ih =>
      rw [unlimitedField, (descends_fieldWith meaning).unlimited_eq, field_add_one]
      refine View.Follows.fieldWith (Reading.AtDepth.steady meaning (depth + 1))
        (fun _ hreading => hreading.spelled) ?_ ?_ ?_ owner
      · intro reading token hreading hnext hkind
        exact nesting_leftParen hkind ▸ hreading.advance hnext
      · intro reading token hreading hnext hkind
        have hadvance := hreading.advance hnext
        rwa [nesting_rightParen hkind, Int.add_neg_cancel_right] at hadvance
      · intro reading hreading hshallow kind
        rw [hreading.depth_eq] at hshallow
        exact ih hshallow (by omega) kind

end Reader

/-! ### Declarations by any reader -/

namespace Reading

/-- Reads one declaration with a reader for it, as `declaration` does with that of a field. -/
def declarationBy (meaning : Interpretation σ ε) (field : Reader σ ε Unit) (reading : Reading σ) :
    Option (Stop ε) × Reading σ :=
  match field reading with
  | .ok () after => (none, after)
  | .error fault after =>
    (some ⟨fault, after.next?⟩,
      { after with state := meaning.undo reading.state after.state }.leaveGroup)

def declarationsByWithin (meaning : Interpretation σ ε) (field : Reader σ ε Unit)
    (stops : List (Stop ε)) (reading : Reading σ) : List Token → List (Stop ε) × Reading σ
  | [] => (stops.reverse, reading)
  | _ :: bound =>
    if reading.unread.isEmpty then (stops.reverse, reading)
    else
      match reading.declarationBy meaning field with
      | (none, after) => declarationsByWithin meaning field stops after bound
      | (some stop, after) => declarationsByWithin meaning field (stop :: stops) after bound

def declarationsBy (meaning : Interpretation σ ε) (field : Reader σ ε Unit) (reading : Reading σ) :
    List (Stop ε) × Reading σ :=
  declarationsByWithin meaning field [] reading reading.unread

theorem declarations_eq (meaning : Interpretation σ ε) (budget : Nat) (reading : Reading σ) :
    reading.declarations meaning budget =
      reading.declarationsBy meaning (Reader.field meaning budget .start) := by
  have hwithin : ∀ bound stops (reading : Reading σ),
      reading.declarationsWithin meaning budget stops bound =
        reading.declarationsByWithin meaning (Reader.field meaning budget .start) stops bound := by
    intro bound
    induction bound with
    | nil => exact fun _ _ => rfl
    | cons token bound ih =>
        intro stops reading
        have hone : reading.declaration meaning budget =
            reading.declarationBy meaning (Reader.field meaning budget .start) := rfl
        rw [declarationsWithin, declarationsByWithin, hone]
        split
        · rfl
        · generalize reading.declarationBy meaning (Reader.field meaning budget .start) = result
          obtain ⟨_ | stop, after⟩ := result
          · exact ih stops after
          · exact ih (stop :: stops) after
  exact hwithin _ _ _

end Reading

namespace View.Follows

variable {fine : Interpretation τ ε} {coarse : Interpretation σ ε} {view : View fine coarse}
  {safe outside : Reading τ → Prop} {field : Reader τ ε Unit} {field' : Reader σ ε Unit}
  (h : view.Follows safe outside field field' fun _ => outside)
  (hundo : ∀ before after, outside before → safe after →
    outside { after with state := fine.undo before.state after.state }.leaveGroup)
include h hundo

theorem declarationBy {reading : Reading τ} (hreading : outside reading) :
    (view.shown reading).declarationBy coarse field' =
        ((reading.declarationBy fine field).1, view.shown (reading.declarationBy fine field).2) ∧
      outside (reading.declarationBy fine field).2 := by
  have hfield := h reading hreading
  unfold Reading.declarationBy
  generalize field reading = result, field' (view.shown reading) = result' at hfield ⊢
  cases hfield with
  | ok hafter => exact ⟨rfl, hafter⟩
  | @error fault after hsafe =>
      refine ⟨?_, hundo reading after hreading hsafe⟩
      have hstate : coarse.undo (view.shown reading).state (view.shown after).state =
        view.see (fine.undo reading.state after.state) := view.undo _ _
      simp only [hstate]
      rfl

/-- Declarations stop alike if each one does. -/
theorem declarationsBy {reading : Reading τ} (hreading : outside reading) :
    (view.shown reading).declarationsBy coarse field' =
        ((reading.declarationsBy fine field).1, view.shown (reading.declarationsBy fine field).2) ∧
      outside (reading.declarationsBy fine field).2 := by
  have hwithin : ∀ bound stops reading, outside reading →
      (view.shown reading).declarationsByWithin coarse field' stops bound =
          ((reading.declarationsByWithin fine field stops bound).1,
            view.shown (reading.declarationsByWithin fine field stops bound).2) ∧
        outside (reading.declarationsByWithin fine field stops bound).2 := by
    intro bound
    induction bound with
    | nil => exact fun _ _ hreading => ⟨rfl, hreading⟩
    | cons token bound ih =>
        intro stops reading hreading
        obtain ⟨hone, hafter⟩ := h.declarationBy hundo hreading
        have hempty : (view.shown reading).unread = reading.unread := rfl
        rw [Reading.declarationsByWithin, Reading.declarationsByWithin, hone, hempty]
        split
        · exact ⟨rfl, hreading⟩
        · generalize reading.declarationBy fine field = result at hafter ⊢
          obtain ⟨_ | stop, after⟩ := result
          · exact ih stops after hafter
          · exact ih (stop :: stops) after hafter
  exact hwithin _ _ _ hreading

end View.Follows

/-- Declarations are read with no budget as they are with one for all parentheses that may be open, and
one more. -/
theorem Reading.declarationsBy_unlimitedField (meaning : Interpretation σ ε) {budget : Nat}
    (hbudget : maxDepth < budget) {reading : Reading σ} (hreading : reading.AtDepth 0) :
    reading.declarationsBy meaning (Reader.unlimitedField meaning .start) =
      reading.declarations meaning budget := by
  have hfield : (View.whole meaning).Follows _ (Reading.AtDepth 0) _
      (Reader.field meaning budget .start) _ :=
    Reader.follows_field meaning (by decide) (by omega) .start
  rw [declarations_eq]
  refine (hfield.declarationsBy ?_ hreading).1.symm
  intro before after _ hspelled
  exact ⟨rfl, fun token htoken => hspelled token ((afterGroup_suffix _ _).subset htoken)⟩

end ErDiagram
