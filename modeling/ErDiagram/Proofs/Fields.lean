import ErDiagram.Proofs.Bodies

/-!
The readers of fields that hold no fields themselves: primary keys, branches of associations, and
what mentions a name. Each of them runs through exactly on the tokens that stand behind its reserved
word in such a field.
-/

namespace ErDiagram

variable {σ ε α : Type} {meaning : Interpretation σ ε} {before after : Reading σ}

namespace Reader

theorem keyNames_of_end (h : before.atBodyEnd = true) (names : List String) (bound : List Token) :
    keyNames meaning names bound before = .ok names.reverse before := by
  cases bound with
  | nil => rfl
  | cons token bound =>
      rw [keyNames]
      change (if before.atBodyEnd = true then _ else _ : Reader σ ε (List String)) before = _
      rw [if_pos h]
      rfl

theorem keyNames_of_name (h : ¬before.atBodyEnd = true) (names : List String)
    (token : Token) (bound : List Token) :
    keyNames meaning names (token :: bound) before =
      (expectName .attribute >>= fun name =>
        report meaning (.ownsAttribute name.text) (some name) >>= fun _ =>
          keyNames meaning (name.text :: names) bound) before := by
  rw [keyNames]
  change (if before.atBodyEnd = true then _ else _ : Reader σ ε (List String)) before = _
  rw [if_neg h]

/-- At the end of a primary key, no more names are read. -/
theorem names_at_end {names result : List String} (hend : before.atBodyEnd = true) :
    (∃ tokens : List Token, (∀ token ∈ tokens, token.kind = .identifier) ∧
      result = names.reverse ++ tokens.map (·.text) ∧
        Passes meaning (tokens.map fun token => .ownsAttribute token.text) tokens before after ∧
          after.atBodyEnd) ↔ result = names.reverse ∧ after = before := by
  constructor
  · rintro ⟨tokens, hkinds, rfl, hpass, -⟩
    cases tokens with
    | nil => exact ⟨List.append_nil _, passes_nil.1 hpass⟩
    | cons name tokens =>
        have hname := Reading.atBodyEnd_iff.1 hend name (by simp [Reading.next?, hpass.unread])
        rw [hkinds name List.mem_cons_self] at hname
        cases hname
  · rintro ⟨rfl, rfl⟩
    exact ⟨[], by simp, (List.append_nil _).symm, passes_nil.2 rfl, hend⟩

/-- The names of a primary key, behind those read already. -/
theorem keyNames_ok {names result : List String} {bound : List Token}
    (hbound : before.unread.length ≤ bound.length) :
    keyNames meaning names bound before = .ok result after ↔
      ∃ tokens : List Token, (∀ token ∈ tokens, token.kind = .identifier) ∧
        result = names.reverse ++ tokens.map (·.text) ∧
          Passes meaning (tokens.map fun token => .ownsAttribute token.text) tokens before after ∧
            after.atBodyEnd := by
  have hlast : ∀ {names : List String} {bound : List Token} {before : Reading σ},
      before.atBodyEnd = true → (keyNames meaning names bound before = .ok result after ↔
        result = names.reverse ∧ after = before) := by
    intro names bound before hend
    rw [keyNames_of_end hend, EStateM.Result.ok.injEq, eq_comm, @eq_comm _ before]
  induction bound generalizing names before with
  | nil =>
      have hend : before.atBodyEnd = true := atBodyEnd_of_unread hbound
      rw [names_at_end hend]
      exact hlast hend
  | cons token bound ih =>
      by_cases hend : before.atBodyEnd = true
      · rw [names_at_end hend]
        exact hlast hend
      · rw [keyNames_of_name hend]
        simp only [bind_ok, expectName_ok meaning, report_ok]
        -- A name behind which the rest of the key is read.
        have hrest : ∀ {name : Token} {middle : Reading σ},
            Passes meaning [.ownsAttribute name.text] [name] before middle →
              (keyNames meaning (name.text :: names) bound middle = .ok result after ↔
                ∃ tokens : List Token, (∀ token ∈ tokens, token.kind = .identifier) ∧
                  result = (name.text :: names).reverse ++ tokens.map (·.text) ∧
                    Passes meaning (tokens.map fun token => .ownsAttribute token.text) tokens
                      middle after ∧ after.atBodyEnd) := by
          intro name middle hpass
          apply ih
          have hlength := congrArg List.length hpass.unread
          simp only [List.cons_append, List.nil_append, List.length_cons] at hlength hbound
          omega
        constructor
        · rintro ⟨name, first, ⟨hname, hpass⟩, ⟨⟩, middle, hreport, h⟩
          have hpass' := (passes_append_report []).2 ⟨first, hpass, hreport⟩
          obtain ⟨tokens, hkinds, rfl, hpass'', hlast⟩ := (hrest hpass').1 h
          refine ⟨name :: tokens, List.forall_mem_cons.2 ⟨hname, hkinds⟩, by simp, ?_, hlast⟩
          exact (passes_append [_] [name]).2 ⟨middle, hpass', hpass''⟩
        · rintro ⟨tokens, hkinds, hresult, hpass, hlast⟩
          cases tokens with
          | nil =>
              rw [passes_nil.1 hpass] at hlast
              exact absurd hlast hend
          | cons name tokens =>
              obtain ⟨hname, hkinds⟩ := List.forall_mem_cons.1 hkinds
              obtain ⟨middle, hpass, hpass'⟩ := (passes_append [_] [name]).1 hpass
              obtain ⟨first, hpass₁, hreport⟩ := (passes_append_report []).1 hpass
              exact ⟨name, first, ⟨hname, hpass₁⟩, (), middle, hreport,
                (hrest hpass).2 ⟨tokens, hkinds, by simp [hresult], hpass', hlast⟩⟩

theorem primaryKey_ok {keyword : Token} :
    primaryKey meaning keyword before = .ok () after ↔
      ∃ tokens : List Token, (∀ token ∈ tokens, token.kind = .identifier) ∧
        Passes meaning (Clause.key (tokens.map (·.text))).actions tokens before after ∧
          after.atBodyEnd := by
  unfold primaryKey
  simp only [bind_ok, report_ok, ask_ok meaning]
  constructor
  · rintro ⟨⟨⟩, first, hlacks, _, _, ⟨rfl, hsame⟩, names, last, hnames, hkey⟩
    cases passes_nil.1 hsame
    obtain ⟨tokens, hkinds, rfl, hpass, hend⟩ := (keyNames_ok (Nat.le_refl _)).1 hnames
    refine ⟨tokens, hkinds, ?_, (atBodyEnd_congr hkey).2 hend⟩
    rw [Clause.actions, List.map_map]
    exact (passes_append [_] []).2
      ⟨first, hlacks, (passes_append_report _).2 ⟨last, hpass, hkey⟩⟩
  · rintro ⟨tokens, hkinds, hpass, hend⟩
    rw [Clause.actions, List.map_map] at hpass
    obtain ⟨first, hlacks, hpass⟩ := (passes_append [_] []).1 hpass
    obtain ⟨last, hpass, hkey⟩ := (passes_append_report _).1 hpass
    exact ⟨(), first, hlacks, _, first, ⟨rfl, passes_nil.2 rfl⟩, _, last,
      (keyNames_ok (Nat.le_refl _)).2 ⟨tokens, hkinds, rfl, hpass, (atBodyEnd_congr hkey).1 hend⟩,
      hkey⟩

theorem knownName_ok {kind : Node.Kind} {name : Token} :
    knownName meaning kind before = .ok name after ↔
      name.kind = .identifier ∧ Passes meaning [.knows kind name.text] [name] before after := by
  unfold knownName
  simp only [bind_ok, expectName_ok meaning, report_ok, pure_ok meaning]
  constructor
  · rintro ⟨_, first, ⟨hname, hpass⟩, ⟨⟩, last, hknows, rfl, hsame⟩
    cases passes_nil.1 hsame
    exact ⟨hname, (passes_append_report []).2 ⟨first, hpass, hknows⟩⟩
  · rintro ⟨hname, hpass⟩
    obtain ⟨first, hpass, hknows⟩ := (passes_append_report []).1 hpass
    exact ⟨name, first, ⟨hname, hpass⟩, (), after, hknows, rfl, passes_nil.2 rfl⟩

theorem mention_ok {kind : Node.Kind} :
    mention meaning kind before = .ok () after ↔
      ∃ name : Token, name.kind = .identifier ∧
        Passes meaning [.knows kind name.text, .mention kind name.text] [name] before after := by
  unfold mention
  simp only [bind_ok, knownName_ok, report_ok]
  constructor
  · rintro ⟨name, middle, ⟨hname, hpass⟩, hmention⟩
    exact ⟨name, hname, (passes_append_report [_]).2 ⟨_, hpass, hmention⟩⟩
  · rintro ⟨name, hname, hpass⟩
    obtain ⟨middle, hpass, hmention⟩ := (passes_append_report [_]).1 hpass
    exact ⟨name, middle, ⟨hname, hpass⟩, hmention⟩

theorem attributeOf_ok :
    attributeOf meaning before = .ok () after ↔
      ∃ name entity : Token, name.kind = .identifier ∧ entity.kind = .identifier ∧
        Passes meaning (Clause.attributeOf name.text entity.text).actions [name, entity]
          before after := by
  unfold attributeOf
  simp only [bind_ok, expectName_ok meaning, knownName_ok, report_ok]
  constructor
  · rintro ⟨name, first, ⟨hname, hpass⟩, entity, second, ⟨hentity, hpass'⟩, hreport⟩
    have hknown := passes_cons.2 ⟨first, hpass, hpass'⟩
    exact ⟨name, entity, hname, hentity,
      (passes_append_report [_]).2 ⟨second, hknown, hreport⟩⟩
  · rintro ⟨name, entity, hname, hentity, hpass⟩
    obtain ⟨second, hknown, hreport⟩ := (passes_append_report [_]).1 hpass
    obtain ⟨first, hpass, hpass'⟩ := passes_cons.1 hknown
    exact ⟨name, first, ⟨hname, hpass⟩, entity, second, ⟨hentity, hpass'⟩, hreport⟩

theorem branch_ok {keyword : Token} :
    branch meaning keyword before = .ok () after ↔
      ∃ (entity card : Token) (cardinality : Cardinality) (rest : List Token),
        entity.kind = .identifier ∧ card.kind = .reserved .cardinality ∧
          cardinality.WrittenAs rest ∧
            Passes meaning (Clause.branch entity.text cardinality).actions (entity :: card :: rest)
              before after := by
  have hopen : Token.Kind.reserved .cardinality ≠ .leftParen := by decide
  unfold branch
  simp only [bind_ok, knownName_ok, expectKind, expect_ok meaning hopen,
    cardinality_ok meaning, report_ok]
  constructor
  · rintro ⟨entity, first, ⟨hentity, hpass⟩, card, second, ⟨hcard, hpass'⟩, cardinality, third,
      ⟨rest, hrest, hpass''⟩, hreport⟩
    refine ⟨entity, card, cardinality, rest, hentity, hcard, hrest, ?_⟩
    have hlast := (passes_append_report []).2 ⟨third, hpass'', hreport⟩
    exact (passes_append [_] [entity]).2
      ⟨first, hpass, passes_cons.2 ⟨second, hpass', hlast⟩⟩
  · rintro ⟨entity, card, cardinality, rest, hentity, hcard, hrest, hpass⟩
    obtain ⟨first, hpass, hpass'⟩ := (passes_append [_] [entity]).1 hpass
    obtain ⟨second, hpass', hlast⟩ := passes_cons.1 hpass'
    obtain ⟨third, hpass'', hreport⟩ := (passes_append_report []).1 hlast
    exact ⟨entity, first, ⟨hentity, hpass⟩, card, second, ⟨hcard, hpass'⟩, cardinality, third,
      ⟨rest, hrest, hpass''⟩, hreport⟩

end Reader
end ErDiagram
