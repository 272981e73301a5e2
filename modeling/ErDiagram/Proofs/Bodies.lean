import ErDiagram.Proofs.Details

/-!
The readers of bodies. A construct is read by a reader for the things in its body, and if that one
runs through exactly on the tokens that write such a thing and then has reported the actions of the
thing, so does the reader of the construct.
-/

namespace ErDiagram

/-! ### What is reported about a diagram -/

mutual

/-- What is reported about an attribute. -/
def Attribute.actions : Attribute → List Action
  | ⟨name, cardinality, inside⟩ =>
    .declare .attribute name ::
      (cardinality.toList.map .bound ++ (Attribute.allActions inside ++ [.close]))

def Attribute.allActions : List Attribute → List Action
  | [] => []
  | first :: rest => first.actions ++ Attribute.allActions rest

end

def Clause.actions {kind : Node.Kind} : Clause kind → List Action
  | .attr _ owned => owned.actions
  | .key names => .lacksKey :: (names.map .ownsAttribute ++ [.primaryKey names])
  | .branch entity cardinality => [.knows .entity entity, .branch entity cardinality]
  | .parent entity => [.knows .entity entity, .mention .entity entity]
  | .child entity => [.knows .entity entity, .mention .entity entity]
  | .attributeOf name entity => [.knows .entity entity, .attributeOf name entity]
  | .between entity => [.knows .entity entity, .mention .entity entity]
  | .across association =>
    [.knows .association association, .mention .association association]

def Declaration.actions (declaration : Declaration) : List Action :=
  .declare declaration.kind declaration.name ::
    (declaration.type?.toList.map .classify ++
      (declaration.clauses.flatMap Clause.actions ++ [.close]))

theorem Attribute.allActions_eq (attributes : List Attribute) :
    Attribute.allActions attributes = attributes.flatMap Attribute.actions := by
  induction attributes with
  | nil => rfl
  | cons first rest ih => rw [Attribute.allActions, ih, List.flatMap_cons]

/-! ### Bodies of constructs -/

variable {σ ε α : Type} {meaning : Interpretation σ ε} {before after : Reading σ}

/-- From a depth on, a reader runs through exactly on what writes a thing of a sort, and then it has
reported the actions of that thing. -/
def Reads (meaning : Interpretation σ ε) (reader : Reader σ ε Unit)
    (writes : α → List Token → Prop) (actions : α → List Action) (depth : Int) : Prop :=
  ∀ before after : Reading σ, before.depth = depth →
    (∀ token ∈ before.unread, token.Spelled) →
      (reader before = .ok () after ↔
        ∃ a tokens, writes a tokens ∧ Passes meaning (actions a) tokens before after)

theorem Reading.atBodyEnd_iff {reading : Reading σ} :
    reading.atBodyEnd ↔ ∀ token ∈ reading.next?, token.kind = .rightParen := by
  unfold Reading.atBodyEnd Reading.isNext Reading.next?
  cases reading.unread <;> simp

theorem not_atBodyEnd_of_passes {actions : List Action} {token : Token} {rest : List Token}
    (h : Passes meaning actions (token :: rest) before after) (hkind : token.kind = .leftParen) :
    before.atBodyEnd = false := by
  rw [← Bool.not_eq_true, Reading.atBodyEnd_iff]
  intro hend
  have := hend token (by simp [Reading.next?, h.unread])
  rw [hkind] at this
  cases this

/-- What is reported without a token read does not move the end of a body. -/
theorem atBodyEnd_congr {actions : List Action} (h : Passes meaning actions [] before after) :
    after.atBodyEnd ↔ before.atBodyEnd := by
  have hunread : before.unread = after.unread := h.unread
  rw [Reading.atBodyEnd_iff, Reading.atBodyEnd_iff, Reading.next?, Reading.next?, hunread]

/-- Where a body is written, a parenthesis or the end of input comes next. -/
theorem Row.atParen {writes : α → List Token → Prop} (hgrouped : Grouped writes)
    {things : List α} {tokens : List Token} (h : Row writes things tokens)
    {actions : List Action} (hpass : Passes meaning actions tokens before after)
    (hend : after.atBodyEnd) : before.AtParen := by
  intro token htoken
  rw [Reading.next?, hpass.unread] at htoken
  cases h with
  | nil => exact Or.inr (Reading.atBodyEnd_iff.1 hend token htoken)
  | cons hfirst _ =>
      obtain ⟨-, first, rest, rfl, hopen⟩ := hgrouped _ _ hfirst
      cases htoken
      exact Or.inl hopen

namespace Reader

variable {item : Reader σ ε Unit} {writes : α → List Token → Prop} {actions : α → List Action}

theorem atBodyEnd_of_unread {reading : Reading σ} (h : reading.unread.length ≤ 0) :
    reading.atBodyEnd = true := by
  rw [Reading.atBodyEnd, List.eq_nil_of_length_eq_zero (Nat.le_zero.1 h)]
  rfl

theorem itemsWithin_of_end (h : before.atBodyEnd = true) (bound : List Token) :
    itemsWithin item bound before = .ok () before := by
  cases bound with
  | nil => rfl
  | cons token bound =>
      rw [itemsWithin]
      change (if before.atBodyEnd = true then _ else _ : Reader σ ε Unit) before = _
      rw [if_pos h]
      rfl

theorem itemsWithin_of_item (h : ¬before.atBodyEnd = true) (token : Token) (bound : List Token) :
    itemsWithin item (token :: bound) before =
      (item >>= fun _ => itemsWithin item bound) before := by
  rw [itemsWithin]
  change (if before.atBodyEnd = true then _ else _ : Reader σ ε Unit) before = _
  rw [if_neg h]

/-- At the end of a body, only an empty row is read. -/
theorem row_at_end (hgrouped : Grouped writes) (hend : before.atBodyEnd = true) :
    (∃ things tokens, Row writes things tokens ∧
      Passes meaning (things.flatMap actions) tokens before after ∧ after.atBodyEnd) ↔
        after = before := by
  constructor
  · rintro ⟨things, tokens, hrow, hpass, -⟩
    cases hrow with
    | nil => exact passes_nil.1 hpass
    | cons hfirst _ =>
        obtain ⟨-, first, rest, rfl, hopen⟩ := hgrouped _ _ hfirst
        rw [List.cons_append] at hpass
        rw [not_atBodyEnd_of_passes hpass hopen] at hend
        cases hend
  · rintro rfl
    exact ⟨[], [], .nil, passes_nil.2 rfl, hend⟩

/-- The bound on the number of items is never what ends them, if there are at most as many tokens. -/
theorem itemsWithin_ok {depth : Int} (hitem : Reads meaning item writes actions depth)
    (hgrouped : Grouped writes) {bound : List Token} (hbound : before.unread.length ≤ bound.length)
    (hdepth : before.depth = depth) (hspelled : ∀ token ∈ before.unread, token.Spelled) :
    itemsWithin item bound before = .ok () after ↔
      ∃ things tokens, Row writes things tokens ∧
        Passes meaning (things.flatMap actions) tokens before after ∧ after.atBodyEnd := by
  have hlast : ∀ {bound : List Token} {before : Reading σ}, before.atBodyEnd = true →
      (itemsWithin item bound before = .ok () after ↔
        ∃ things tokens, Row writes things tokens ∧
          Passes meaning (things.flatMap actions) tokens before after ∧ after.atBodyEnd) := by
    intro bound before hend
    rw [itemsWithin_of_end hend, row_at_end hgrouped hend, EStateM.Result.ok.injEq]
    simp [eq_comm]
  induction bound generalizing before with
  | nil => exact hlast (atBodyEnd_of_unread hbound)
  | cons token bound ih =>
      by_cases hend : before.atBodyEnd = true
      · exact hlast hend
      · rw [itemsWithin_of_item hend, bind_ok]
        have hrest : ∀ {thing : α} {front : List Token} {middle : Reading σ},
            writes thing front → Passes meaning (actions thing) front before middle →
              (itemsWithin item bound middle = .ok () after ↔
                ∃ things tokens, Row writes things tokens ∧
                  Passes meaning (things.flatMap actions) tokens middle after ∧
                    after.atBodyEnd) := by
          intro thing front middle hwrites hpass
          obtain ⟨hbalanced, first, rest, rfl, -⟩ := hgrouped _ _ hwrites
          refine ih ?_ ?_ (hpass.spelled hspelled)
          · have hlength := congrArg List.length hpass.unread
            simp only [List.cons_append, List.length_cons, List.length_append] at hlength hbound
            omega
          · rw [hpass.depth, hbalanced, hdepth, Int.add_zero]
        constructor
        · rintro ⟨_, middle, hfirst, h⟩
          obtain ⟨thing, front, hwrites, hpass⟩ := (hitem _ _ hdepth hspelled).1 hfirst
          obtain ⟨things, tokens, hrow, hpass', hlast⟩ := (hrest hwrites hpass).1 h
          exact ⟨thing :: things, front ++ tokens, .cons hwrites hrow,
            (passes_append _ _).2 ⟨middle, hpass, hpass'⟩, hlast⟩
        · rintro ⟨things, tokens, hrow, hpass, hlast⟩
          cases hrow with
          | nil =>
              rw [passes_nil.1 hpass] at hlast
              exact absurd hlast hend
          | cons hfirst hrow =>
              obtain ⟨middle, hpass, hpass'⟩ := (passes_append _ _).1 hpass
              exact ⟨(), middle, (hitem _ _ hdepth hspelled).2 ⟨_, _, hfirst, hpass⟩,
                (hrest hfirst hpass).2 ⟨_, _, hrow, hpass', hlast⟩⟩

/-- The items of a body are things of a sort, one behind the other, up to the end of the body. -/
theorem items_ok (hitem : Reads meaning item writes actions before.depth)
    (hgrouped : Grouped writes) (hspelled : ∀ token ∈ before.unread, token.Spelled) :
    items item before = .ok () after ↔
      ∃ things tokens, Row writes things tokens ∧
        Passes meaning (things.flatMap actions) tokens before after ∧ after.atBodyEnd := by
  unfold items
  simp only [bind_ok, ask_ok meaning, passes_nil]
  rw [← itemsWithin_ok hitem hgrouped (Nat.le_refl _) rfl hspelled]
  constructor
  · rintro ⟨_, _, ⟨rfl, rfl⟩, h⟩
    exact h
  · exact fun h => ⟨_, _, ⟨rfl, rfl⟩, h⟩

/-- A construct is a name, its details and the things in its body. -/
theorem construct_ok {kind : Node.Kind} (hitem : Reads meaning item writes actions before.depth)
    (hgrouped : Grouped writes) (hspelled : ∀ token ∈ before.unread, token.Spelled) :
    construct meaning item kind before = .ok () after ↔
      ∃ (name : Token) (detailActions : List Action) (detail : List Token) (things : List α)
        (rest : List Token), name.kind = .identifier ∧ Details kind detailActions detail ∧
          Row writes things rest ∧
            Passes meaning
              (.declare kind name.text :: (detailActions ++ (things.flatMap actions ++ [.close])))
              (name :: (detail ++ rest)) before after ∧ after.atBodyEnd := by
  unfold construct
  simp only [bind_ok, expectName_ok meaning, report_ok, ask_ok meaning]
  -- The name of the construct, up to the state in which its declaration has been reported.
  have hstart : ∀ {name : Token} {first second : Reading σ}, name.kind = .identifier →
      Passes meaning [] [name] before first →
        Passes meaning [.declare kind name.text] [] first second →
          Passes meaning [.declare kind name.text] [name] before second ∧
            second.depth = before.depth ∧ ∀ token ∈ second.unread, token.Spelled := by
    intro name first second hname hpass hdeclare
    have hboth : Passes meaning [.declare kind name.text] [name] before second :=
      (passes_append_report []).2 ⟨first, hpass, hdeclare⟩
    refine ⟨hboth, ?_, hboth.spelled hspelled⟩
    rw [hboth.depth, openedBy_cons, nesting_of_ne (by simp [hname]) (by simp [hname])]
    simp
  constructor
  · rintro ⟨name, first, ⟨hname, hpass⟩, ⟨⟩, second, hdeclare, ⟨⟩, third, hdetails, ⟨⟩, fourth,
      hitems, next, fifth, ⟨-, hsame⟩, hclose⟩
    cases passes_nil.1 hsame
    obtain ⟨hstarted, hdepth, hsecond⟩ := hstart hname hpass hdeclare
    obtain ⟨detailActions, detail, hdetail, hpass'⟩ := exists_details_of_ok hsecond hdetails
    have hthird : third.depth = before.depth := by
      rw [hpass'.depth, hdetail.openedBy, hdepth, Int.add_zero]
    obtain ⟨things, rest, hrow, hbody, hend⟩ :=
      (items_ok (hthird ▸ hitem) hgrouped (hpass'.spelled hsecond)).1 hitems
    refine ⟨name, detailActions, detail, things, rest, hname, hdetail, hrow, ?_, ?_⟩
    · have hclosed := (passes_append_report _).2 ⟨_, hbody, hclose⟩
      exact (passes_append _ [name]).2 ⟨_, hstarted, (passes_append _ _).2 ⟨_, hpass', hclosed⟩⟩
    · exact (atBodyEnd_congr hclose).2 hend
  · rintro ⟨name, detailActions, detail, things, rest, hname, hdetail, hrow, hpass, hend⟩
    obtain ⟨second, hstarted, hpass⟩ := (passes_append [.declare kind name.text]
      [name]).1 hpass
    obtain ⟨third, hpass', hpass⟩ := (passes_append _ _).1 hpass
    obtain ⟨fourth, hbody, hclose⟩ := (passes_append_report _).1 hpass
    obtain ⟨first, hname', hdeclare⟩ := (passes_append_report []).1 hstarted
    obtain ⟨-, hdepth, hsecond⟩ := hstart hname hname' hdeclare
    have hthird : third.depth = before.depth := by
      rw [hpass'.depth, hdetail.openedBy, hdepth, Int.add_zero]
    have hfourth := (atBodyEnd_congr hclose).1 hend
    exact ⟨name, first, ⟨hname, hname'⟩, (), second, hdeclare, (), third,
      details_ok hsecond hdetail hpass' (hrow.atParen hgrouped hbody hfourth), (), fourth,
      (items_ok (hthird ▸ hitem) hgrouped (hpass'.spelled hsecond)).2
        ⟨things, rest, hrow, hbody, hfourth⟩, _, fourth, ⟨rfl, passes_nil.2 rfl⟩, hclose⟩

end Reader
end ErDiagram
