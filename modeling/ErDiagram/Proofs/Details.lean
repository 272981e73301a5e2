import ErDiagram.Proofs.Passage
import ErDiagram.Proofs.Spelling

/-!
The readers of details: cardinalities, the classifications of hierarchies, and what else may stand
between the name of a construct and its fields. Each of them runs through exactly on the tokens that
write a thing of its sort.
-/

namespace ErDiagram

variable {σ ε α : Type} {meaning : Interpretation σ ε} {before after : Reading σ}

namespace Reader

theorem cardinality_ok (meaning : Interpretation σ ε) {cardinality : Cardinality} :
    (Reader.cardinality : Reader σ ε Cardinality) before = .ok cardinality after ↔
      ∃ tokens, cardinality.WrittenAs tokens ∧ Passes meaning [] tokens before after := by
  have hopen : Token.Kind.cardinal ≠ .leftParen := by decide
  unfold Reader.cardinality
  simp only [expectKind, bind_ok, expect_ok meaning hopen]
  constructor
  · rintro ⟨first, middle, ⟨hfirst, hpass⟩, h⟩
    split at h
    · rw [decoded_ok meaning, passes_nil] at h
      obtain ⟨htext, rfl⟩ := h
      obtain ⟨lower, upper, htext, hmin, hmax⟩ := Cardinality.ofString_iff.1 htext
      exact ⟨[first], .pair hfirst htext hmin hmax, hpass⟩
    · simp only [bind_ok, decoded_ok meaning, expect_ok meaning hopen,
        pure_ok meaning, passes_nil] at h
      obtain ⟨min, _, ⟨hmin, rfl⟩, second, last, ⟨hsecond, hpass'⟩, max, _, ⟨hmax, rfl⟩, rfl, rfl⟩ :=
        h
      exact ⟨[first, second],
        .bounds hfirst hsecond (Bound.ofString_iff.1 hmin) (Bound.ofString_iff.1 hmax),
        passes_cons.2 ⟨_, hpass, hpass'⟩⟩
  · rintro ⟨tokens, hwritten, hpass⟩
    cases hwritten with
    | @pair first lower upper hkind htext hmin hmax =>
        refine ⟨first, after, ⟨hkind, hpass⟩, ?_⟩
        rw [if_pos (by rw [htext]; simp), decoded_ok meaning, passes_nil]
        exact ⟨Cardinality.ofString_iff.2 ⟨lower, upper, htext, hmin, hmax⟩, rfl⟩
    | @bounds first second hfirst hsecond hmin hmax =>
        obtain ⟨middle, hpass, hpass'⟩ := passes_cons.1 hpass
        refine ⟨first, middle, ⟨hfirst, hpass⟩, ?_⟩
        rw [if_neg hmin.isBound.not_mem_colon]
        simp only [bind_ok, decoded_ok meaning, expect_ok meaning hopen,
          pure_ok meaning, passes_nil]
        exact ⟨_, _, ⟨Bound.ofString_iff.2 hmin, rfl⟩, second, after, ⟨hsecond, hpass'⟩, _, _,
          ⟨Bound.ofString_iff.2 hmax, rfl⟩, rfl, rfl⟩

/-- A word that is decoded by its text is a reserved word of the grammar. -/
theorem decode_reserved_ok (meaning : Interpretation σ ε) {value? : String → Option α}
    {word : α → Keyword} {error : SyntaxError} {a : α} (hvalue : ∀ token : Token, token.Spelled → ∀ a,
      value? token.text = some a ↔ token.kind = .reserved (word a))
    (hspelled : ∀ token ∈ before.unread, token.Spelled) :
    (decode value? error : Reader σ ε α) before = .ok a after ↔
      ∃ token, token.kind = .reserved (word a) ∧ Passes meaning [] [token] before after := by
  rw [decode_ok]
  constructor
  · rintro ⟨token, htext, hunread, hafter⟩
    have hkind := (hvalue token (hspelled token (by simp [hunread])) a).1 htext
    exact ⟨token, hkind, (passes_token_of_ne (by simp [hkind])).2 ⟨hunread, hafter⟩⟩
  · rintro ⟨token, hkind, hpass⟩
    obtain ⟨hunread, hafter⟩ := (passes_token_of_ne (by simp [hkind])).1 hpass
    exact ⟨token, (hvalue token (hspelled token (by simp [hunread])) a).2 hkind, hunread, hafter⟩

end Reader

theorem Passes.spelled {actions : List Action} {tokens : List Token}
    (h : Passes meaning actions tokens before after)
    (hspelled : ∀ token ∈ before.unread, token.Spelled) :
    ∀ token ∈ after.unread, token.Spelled := by
  intro token htoken
  exact hspelled token (h.unread ▸ List.mem_append_right _ htoken)

/-- The next token is the first one that a passage passes over. -/
theorem Passes.isNext_cons {actions : List Action} {token : Token} {rest : List Token}
    (h : Passes meaning actions (token :: rest) before after) (kind : Token.Kind) :
    before.isNext kind = decide (token.kind = kind) := by
  simp [Reading.isNext, Reading.next?, h.unread]

namespace Reader

/-- The words of a classification, behind `type` or without it. -/
theorem words_ok (meaning : Interpretation σ ε) {type : HierarchyType}
    (hspelled : ∀ token ∈ before.unread, token.Spelled) :
    (do
      if ← accept (.reserved .subset) then
        pure .plainSubset
      else
        let total ← decode HierarchyType.coverage? .expectedCoverage
        let exclusive ← decode HierarchyType.disjointness? .expectedDisjointness
        pure (.ofFacets total exclusive) : Reader σ ε HierarchyType) before = .ok type after ↔
      ∃ (classification : Classification) (tokens : List Token), type = classification.type ∧
        classification.Words tokens ∧ Passes meaning [] tokens before after := by
  have hcoverage : ∀ token : Token, token.Spelled → ∀ total,
      HierarchyType.coverage? token.text = some total ↔
        token.kind = .reserved (if total then .totalCover else .partialCover) :=
    fun token h total => coverage?_iff h
  have hdisjointness : ∀ token : Token, token.Spelled → ∀ exclusive,
      HierarchyType.disjointness? token.text = some exclusive ↔
        token.kind = .reserved (if exclusive then .exclusive else .overlapped) :=
    fun token h exclusive => disjointness?_iff h
  rw [bind_ok]
  constructor
  · rintro ⟨subset, middle, haccept, h⟩
    cases subset with
    | true =>
        obtain ⟨token, hkind, hpass⟩ :=
          (accept_true meaning (by decide)).1 haccept
        obtain ⟨rfl, hend⟩ := (pure_ok meaning).1 h
        exact ⟨.subset, [token], rfl, .subset hkind, passes_nil.1 hend ▸ hpass⟩
    | false =>
        obtain ⟨-, hsame⟩ := (accept_false meaning).1 haccept
        cases passes_nil.1 hsame
        simp only [Bool.false_eq_true, if_false, bind_ok] at h
        obtain ⟨total, second, htotal, exclusive, third, hexclusive, h⟩ := h
        obtain ⟨coverage, hcover, hpass⟩ :=
          (decode_reserved_ok meaning hcoverage hspelled).1 htotal
        obtain ⟨disjointness, hdisjoint, hpass'⟩ :=
          (decode_reserved_ok meaning hdisjointness (hpass.spelled hspelled)).1
            hexclusive
        obtain ⟨rfl, hend⟩ := (pure_ok meaning).1 h
        cases passes_nil.1 hend
        exact ⟨.facets total exclusive, [coverage, disjointness], rfl, .facets hcover hdisjoint,
          passes_cons.2 ⟨_, hpass, hpass'⟩⟩
  · rintro ⟨classification, tokens, rfl, hwords, hpass⟩
    cases hwords with
    | @subset token hkind =>
        exact ⟨true, after, (accept_true meaning (by decide)).2 ⟨token, hkind, hpass⟩,
          (pure_ok meaning).2 ⟨rfl, passes_nil.2 rfl⟩⟩
    | @facets total exclusive coverage disjointness hcover hdisjoint =>
        have hnext : before.isNext (.reserved .subset) = false := by
          rw [hpass.isNext_cons, hcover]
          cases total <;> rfl
        obtain ⟨middle, hpass, hpass'⟩ := passes_cons.1 hpass
        refine ⟨false, before, (accept_false meaning).2 ⟨hnext, passes_nil.2 rfl⟩, ?_⟩
        simp only [Bool.false_eq_true, if_false, bind_ok]
        exact ⟨total, middle,
          (decode_reserved_ok meaning hcoverage hspelled).2 ⟨coverage, hcover, hpass⟩,
          exclusive, after,
          (decode_reserved_ok meaning hdisjointness (hpass.spelled hspelled)).2
            ⟨disjointness, hdisjoint, hpass'⟩,
          (pure_ok meaning).2 ⟨rfl, passes_nil.2 rfl⟩⟩

theorem hierarchyType_ok (meaning : Interpretation σ ε) {type : HierarchyType}
    (hspelled : ∀ token ∈ before.unread, token.Spelled) :
    (hierarchyType : Reader σ ε HierarchyType) before = .ok type after ↔
      ∃ (classification : Classification) (tokens : List Token), type = classification.type ∧
        classification.WrittenAs tokens ∧ Passes meaning [] tokens before after := by
  unfold hierarchyType
  rw [bind_ok]
  constructor
  · rintro ⟨announced, middle, haccept, h⟩
    cases announced with
    | true =>
        obtain ⟨token, hkind, hpass⟩ :=
          (accept_true meaning (by decide)).1 haccept
        obtain ⟨classification, tokens, htype, hwords, hpass'⟩ :=
          (words_ok meaning (hpass.spelled hspelled)).1 h
        exact ⟨classification, token :: tokens, htype, .announced hkind hwords,
          passes_cons.2 ⟨middle, hpass, hpass'⟩⟩
    | false =>
        obtain ⟨-, hsame⟩ := (accept_false meaning).1 haccept
        cases passes_nil.1 hsame
        obtain ⟨classification, tokens, htype, hwords, hpass⟩ :=
          (words_ok meaning hspelled).1 h
        exact ⟨classification, tokens, htype, .plain hwords, hpass⟩
  · rintro ⟨classification, tokens, htype, hwritten, hpass⟩
    cases hwritten with
    | plain hwords =>
        have hnext : before.isNext (.reserved .type) = false := by
          cases hwords with
          | subset hkind => rw [hpass.isNext_cons, hkind]; rfl
          | @facets total _ _ _ hcover =>
              rw [hpass.isNext_cons, hcover]
              cases total <;> rfl
        exact ⟨false, before, (accept_false meaning).2 ⟨hnext, passes_nil.2 rfl⟩,
          (words_ok meaning hspelled).2 ⟨classification, tokens, htype, hwords, hpass⟩⟩
    | @announced token tokens hkind hwords =>
        obtain ⟨middle, hpass, hpass'⟩ := passes_cons.1 hpass
        exact ⟨true, middle,
          (accept_true meaning (by decide)).2 ⟨token, hkind, hpass⟩,
          (words_ok meaning (hpass.spelled hspelled)).2
            ⟨classification, tokens, htype, hwords, hpass'⟩⟩

end Reader

/-- What stands between the name of a construct and its fields, and what is reported about it. -/
inductive Details : Node.Kind → List Action → List Token → Prop where
  | hierarchy {classification : Classification} {tokens : List Token}
    (hwritten : classification.WrittenAs tokens) :
    Details .hierarchy [.classify classification.type] tokens
  | attr {cardinality : Option Cardinality} {tokens : List Token}
    (hdetail : Attribute.Detail cardinality tokens) :
    Details .attribute (cardinality.toList.map .bound) tokens
  | plain {kind : Node.Kind} (hhierarchy : kind ≠ .hierarchy) (hattribute : kind ≠ .attribute) :
    Details kind [] []

theorem Details.openedBy {kind : Node.Kind} {actions : List Action} {tokens : List Token}
    (h : Details kind actions tokens) : openedBy tokens = 0 := by
  cases h with
  | hierarchy hwritten => exact hwritten.openedBy
  | attr hdetail => exact hdetail.openedBy
  | plain => rfl

/-- The next token, if there is one, is a parenthesis. -/
def Reading.AtParen (reading : Reading σ) : Prop :=
  ∀ token ∈ reading.next?, token.kind = .leftParen ∨ token.kind = .rightParen

theorem Reading.AtParen.isNext {reading : Reading σ} (h : reading.AtParen) (word : Keyword) :
    reading.isNext (.reserved word) = false := by
  rw [Reading.isNext, Option.any_eq_false]
  intro token htoken
  rcases h token htoken with hkind | hkind <;> simp [hkind]

namespace Reader

theorem exists_detail_of_ok (h : details meaning .attribute before = .ok () after) :
    ∃ (cardinality : Option Cardinality) (tokens : List Token),
      Attribute.Detail cardinality tokens ∧
        Passes meaning (cardinality.toList.map .bound) tokens before after := by
  unfold details at h
  obtain ⟨announced, middle, haccept, h⟩ := bind_ok.1 h
  cases announced with
  | true =>
      obtain ⟨card, hcard, hpass⟩ := (accept_true meaning (by decide)).1 haccept
      simp only [if_true, bind_ok, cardinality_ok meaning, report_ok] at h
      obtain ⟨cardinality, last, ⟨tokens, htokens, hpass'⟩, hreport⟩ := h
      exact ⟨some cardinality, card :: tokens, .some hcard htokens, passes_cons.2
        ⟨middle, hpass, (passes_append_report []).2 ⟨last, hpass', hreport⟩⟩⟩
  | false =>
      obtain ⟨-, hsame⟩ := (accept_false meaning).1 haccept
      cases passes_nil.1 hsame
      obtain ⟨-, hend⟩ := (pure_ok meaning).1 h
      exact ⟨none, [], .none, hend⟩

/-- An attribute without a cardinality is recognized by the parenthesis that follows. -/
theorem details_attribute_ok {cardinality : Option Cardinality} {tokens : List Token}
    (hdetail : Attribute.Detail cardinality tokens)
    (hpass : Passes meaning (cardinality.toList.map .bound) tokens before after)
    (hfollow : after.AtParen) : details meaning .attribute before = .ok () after := by
  unfold details
  apply bind_ok.2
  cases hdetail with
  | none =>
      have hsame := passes_nil.1 hpass
      refine ⟨false, before, (accept_false meaning).2 ⟨?_, passes_nil.2 rfl⟩,
        (pure_ok meaning).2 ⟨rfl, hpass⟩⟩
      exact hsame ▸ hfollow.isNext .cardinality
  | @some cardinality card tokens hcard htokens =>
      obtain ⟨middle, hpass, hpass'⟩ := passes_cons.1 hpass
      obtain ⟨last, hpass', hreport⟩ := (passes_append_report []).1 hpass'
      refine ⟨true, middle, (accept_true meaning (by decide)).2 ⟨card, hcard, hpass⟩,
        ?_⟩
      simp only [if_true, bind_ok, cardinality_ok meaning, report_ok]
      exact ⟨cardinality, last, ⟨tokens, htokens, hpass'⟩, hreport⟩

theorem details_hierarchy_ok (hspelled : ∀ token ∈ before.unread, token.Spelled) :
    details meaning .hierarchy before = .ok () after ↔
      ∃ (classification : Classification) (tokens : List Token),
        classification.WrittenAs tokens ∧
          Passes meaning [.classify classification.type] tokens before after := by
  unfold details
  simp only [bind_ok, report_ok]
  constructor
  · rintro ⟨type, middle, htype, hreport⟩
    obtain ⟨classification, tokens, rfl, hwritten, hpass⟩ :=
      (hierarchyType_ok meaning hspelled).1 htype
    exact ⟨classification, tokens, hwritten,
      (passes_append_report []).2 ⟨middle, hpass, hreport⟩⟩
  · rintro ⟨classification, tokens, hwritten, hpass⟩
    obtain ⟨middle, hpass, hreport⟩ := (passes_append_report []).1 hpass
    exact ⟨classification.type, middle, (hierarchyType_ok meaning hspelled).2
      ⟨classification, tokens, rfl, hwritten, hpass⟩, hreport⟩

theorem details_plain {kind : Node.Kind} (hhierarchy : kind ≠ .hierarchy)
    (hattribute : kind ≠ .attribute) : details meaning kind = pure () := by
  unfold details
  split
  · exact absurd rfl hhierarchy
  · exact absurd rfl hattribute
  · rfl

theorem exists_details_of_ok {kind : Node.Kind}
    (hspelled : ∀ token ∈ before.unread, token.Spelled)
    (h : details meaning kind before = .ok () after) :
    ∃ actions tokens, Details kind actions tokens ∧
      Passes meaning actions tokens before after := by
  by_cases hhierarchy : kind = .hierarchy
  · subst hhierarchy
    obtain ⟨classification, tokens, hwritten, hpass⟩ := (details_hierarchy_ok hspelled).1 h
    exact ⟨_, tokens, .hierarchy hwritten, hpass⟩
  by_cases hattribute : kind = .attribute
  · subst hattribute
    obtain ⟨cardinality, tokens, hdetail, hpass⟩ := exists_detail_of_ok h
    exact ⟨_, tokens, .attr hdetail, hpass⟩
  · rw [details_plain hhierarchy hattribute, pure_ok meaning] at h
    exact ⟨[], [], .plain hhierarchy hattribute, h.2⟩

/-- The details of a construct are read in front of a parenthesis. -/
theorem details_ok {kind : Node.Kind} {actions : List Action} {tokens : List Token}
    (hspelled : ∀ token ∈ before.unread, token.Spelled) (hdetails : Details kind actions tokens)
    (hpass : Passes meaning actions tokens before after) (hfollow : after.AtParen) :
    details meaning kind before = .ok () after := by
  cases hdetails with
  | hierarchy hwritten => exact (details_hierarchy_ok hspelled).2 ⟨_, tokens, hwritten, hpass⟩
  | attr hdetail => exact details_attribute_ok hdetail hpass hfollow
  | plain hhierarchy hattribute =>
      rw [details_plain hhierarchy hattribute, pure_ok meaning]
      exact ⟨rfl, hpass⟩

end Reader
end ErDiagram
