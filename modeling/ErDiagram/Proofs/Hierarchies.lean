import ErDiagram.Proofs.Classifying
import ErDiagram.Proofs.Earliest
import ErDiagram.Proofs.Recursion

/-!
Hierarchies in source texts. Wherever one is declared under a new name, its classification is read as
it is decoded from the joined texts of the same tokens. If the tokens there write none, the source
text is told so, at the first token that no classification goes on with.
-/

namespace ErDiagram

variable {σ ε α : Type}

open HierarchyType (Named)

/-! ### Where declarations are read -/

namespace Compile

/-- A declaration of a source text starts at a reading: at the first one, or where the declaration
before it left off. -/
inductive StartsAt (source : String) : Reading Builder → Prop where
  | first : StartsAt source (start (Lexer.tokens source))
  | next {before : Reading Builder} (h : StartsAt source before) (hunread : before.unread ≠ []) :
    StartsAt source (before.declaration Builder.meaning (maxDepth + 1)).2

namespace StartsAt

variable {source : String} {before : Reading Builder}

theorem stands (h : StartsAt source before) : before.Stands 0 0 [] := by
  induction h with
  | first => exact stands_start source
  | next _ _ ih => exact ih.declaration.1

theorem unread_subset (h : StartsAt source before) :
    before.unread ⊆ significant (Lexer.tokens source) := by
  induction h with
  | first => exact List.Subset.refl _
  | next h hunread ih =>
      obtain ⟨hsuffix, -, -⟩ := Reading.declaration_spec Builder.meaning (fun _ => id)
        (maxDepth + 1) h.stands.spelled hunread
      exact fun token htoken => ih (hsuffix.subset htoken)

theorem stops_subset (h : StartsAt source before) :
    (before.declarations Builder.meaning (maxDepth + 1)).1 ⊆ (declarationsOf source).1 := by
  induction h with
  | first => exact List.Subset.refl _
  | next h hunread ih =>
      rw [Reading.declarations_step Builder.meaning _ h.stands.spelled hunread] at ih
      exact fun stop hstop => ih (List.mem_append_right _ hstop)

/-- Where a declaration stops, the source text is told. -/
theorem stop_mem (h : StartsAt source before) (hunread : before.unread ≠ []) {stop : Stop Refusal}
    (hstop : stop ∈ (before.declaration Builder.meaning (maxDepth + 1)).1) :
    stop ∈ (declarationsOf source).1 := by
  apply h.stops_subset
  rw [Reading.declarations_step Builder.meaning _ h.stands.spelled hunread]
  exact List.mem_append_left _ (Option.mem_toList.2 hstop)

end StartsAt
end Compile

/-- A stop that the grammar is the reason for is told at what it is blamed on. -/
theorem exists_malformed_of_stop {source : String} {stop : Stop Refusal}
    (h : stop ∈ (declarationsOf source).1) {error : SyntaxError}
    (hcause : stop.fault.cause = .malformed error) :
    ∃ diagnostic ∈ diagnosticsOf source, diagnostic.category = .malformed ∧
      diagnostic.message = error.message ∧ diagnostic.StandsAt source stop.fault.token := by
  obtain ⟨finding, hreports, hfaults⟩ := exists_faults source
  have htold := Compile.diagnosticOf_of_faultFinding (Compile.eq_of_mapM_eq_map hfaults h)
  have hmem : (finding stop).diagnostic ∈
      (diagnosticsOf source).filter (·.category ≠ .lexical) := by
    rw [filter_faults_diagnosticsOf hreports (diagnosticsOf_of_faults hfaults)]
    exact List.mem_map_of_mem h
  rw [Compile.diagnosticOf, hcause, Except.ok.injEq] at htold
  refine ⟨_, (List.mem_filter.1 hmem).1, ?_⟩
  rw [← htold]
  refine ⟨rfl, rfl, ?_⟩
  cases stop.fault.token with
  | none => exact ⟨rfl, rfl⟩
  | some token => exact ⟨rfl, rfl⟩

/-! ### Where hierarchies are declared -/

/-- Reads a hierarchy on from behind its name. -/
def Reader.hierarchyBody : Reader Builder Refusal Unit := do
  let type ← hierarchyType
  report Builder.meaning (.classify type) none
  items (field Builder.meaning maxDepth .hierarchy)
  report Builder.meaning .close (← ask Reading.next?)
  let _ ← expectKind .rightParen

/-- A declaration is that of a hierarchy whose name is new, and its classification comes next. -/
inductive DeclaresHierarchy (before : Reading Builder) : Reading Builder → Prop where
  | behindName {paren keyword name : Token} {tokens : List Token} {id : Nat} {opened : Builder}
    (hunread : before.unread = paren :: keyword :: name :: tokens)
    (hparen : paren.kind = .leftParen) (hkeyword : keyword.kind = .reserved .hierarchy)
    (hname : name.kind = .identifier)
    (hopened : before.state.openNode .hierarchy name.text = .ok (id, opened)) :
    DeclaresHierarchy before ⟨tokens, 1, opened⟩

theorem Reader.details_hierarchy : details Builder.meaning .hierarchy =
    (hierarchyType >>= fun type => report Builder.meaning (.classify type) none) := rfl

/-- What follows a reader depends on nothing but what the reader comes to. -/
theorem Reader.bind_eq_of_eq {reader reader' : Reader σ ε α} {before before' : Reading σ}
    (h : reader before = reader' before') {β : Type} (next : α → Reader σ ε β) :
    (reader >>= next) before = (reader' >>= next) before' := by
  change EStateM.bind reader next before = EStateM.bind reader' next before'
  unfold EStateM.bind
  rw [h]

/-- Behind its name, a hierarchy goes on with its classification. -/
theorem Reader.construct_of_opened {name : Token} (hname : name.kind = .identifier)
    {builder opened : Builder} {id : Nat}
    (hopened : builder.openNode .hierarchy name.text = .ok (id, opened))
    (tokens : List Token) (depth : Int) (inside : Reader Builder Refusal Unit) :
    construct Builder.meaning inside .hierarchy ⟨name :: tokens, depth, builder⟩ =
      (do
        details Builder.meaning .hierarchy
        items inside
        report Builder.meaning .close (← ask Reading.next?)) ⟨tokens, depth, opened⟩ := by
  have hact : Builder.meaning.act (.declare .hierarchy name.text) builder = .ok opened := by
    change (Refusal.ofScope (builder.openNode .hierarchy name.text) >>= fun found =>
      pure found.2) = _
    rw [hopened]
    rfl
  rw [construct, bind_of_ok (expectName_cons hname .hierarchy tokens depth builder),
    bind_of_ok (report_of_act hact (some name))]

/-- Behind its reserved word, a field that does not stand too deep goes on with its body. -/
theorem Reader.field_of_keyword (meaning : Interpretation σ ε) {paren keyword : Token}
    (hparen : paren.kind = .leftParen) {owner : Node.Kind} {kind : Field}
    (hfind : Field.find? owner keyword.kind = some kind) {depth : Int} (hdepth : depth < maxDepth)
    (budget : Nat) (rest : List Token) (state : σ) :
    field meaning (budget + 1) owner ⟨paren :: keyword :: rest, depth, state⟩ =
      (do
        fieldBody meaning (field meaning budget) keyword kind
        let _ ← expectKind .rightParen) ⟨rest, depth + 1, state⟩ :=
  fieldWith_of_keyword meaning (field meaning budget) hparen hfind hdepth rest state

theorem DeclaresHierarchy.field_eq {before inside : Reading Builder}
    (h : DeclaresHierarchy before inside) (hdepth : before.depth = 0) :
    Reader.field Builder.meaning (maxDepth + 1) .start before = Reader.hierarchyBody inside := by
  obtain ⟨unread, depth, state⟩ := before
  obtain rfl : depth = 0 := hdepth
  cases h with
  | @behindName paren keyword name tokens id opened hunread hparen hkeyword hname hopened =>
      obtain rfl : unread = paren :: keyword :: name :: tokens := hunread
      have hfind : Field.find? .start keyword.kind = some (.construct .hierarchy) := by
        rw [hkeyword]
        rfl
      have hbody : Reader.hierarchyBody =
          ((do
            Reader.details Builder.meaning .hierarchy
            Reader.items (Reader.field Builder.meaning maxDepth .hierarchy)
            Reader.report Builder.meaning .close (← Reader.ask Reading.next?)) >>= fun _ =>
              Reader.expectKind .rightParen >>= fun _ => pure ()) := by
        simp only [Reader.hierarchyBody, Reader.details_hierarchy, bind_assoc]
      rw [Reader.field_of_keyword Builder.meaning hparen hfind (by decide), hbody]
      exact Reader.bind_eq_of_eq (Reader.construct_of_opened hname hopened tokens 1 _) _

/-- Where a hierarchy is declared, the next tokens are read as its classification exactly if their
joined texts decode to it, and if neither one token nor two decode, the source text is told so at
the first token that spoils the classification. -/
structure ClassifiesAsDecoded (source : String) (before inside : Reading Builder) : Prop where
  /-- The declaration goes on with the classification. -/
  goesOn : Reader.field Builder.meaning (maxDepth + 1) .start before = Reader.hierarchyBody inside
  taken : ∀ front back type, behindType inside.unread = front ++ back →
    ((Reader.hierarchyType : Reader Builder Refusal HierarchyType) inside =
        .ok type { inside with unread := back } ↔
      HierarchyType.ofString (" ".intercalate (texts front)) = .ok type)
  stopped : (∀ front back type, behindType inside.unread = front ++ back →
      front.length = 1 ∨ front.length = 2 →
        HierarchyType.ofString (" ".intercalate (texts front)) ≠ .ok type) →
    ∃ error spoiler, SpoiledAt (behindType inside.unread) spoiler ∧
      (∃ stop ∈ (before.declaration Builder.meaning (maxDepth + 1)).1,
        stop.fault = ⟨.malformed error, spoiler⟩) ∧
      ∃ diagnostic ∈ diagnosticsOf source, diagnostic.category = .malformed ∧
        diagnostic.message = error.message ∧ diagnostic.StandsAt source spoiler

theorem classifiesAsDecoded {source : String} {before inside : Reading Builder}
    (hstarts : Compile.StartsAt source before) (hdeclares : DeclaresHierarchy before inside) :
    ClassifiesAsDecoded source before inside := by
  have hgoesOn := hdeclares.field_eq hstarts.stands.depth_eq
  have hsuffix : inside.unread <:+ before.unread := by
    obtain ⟨hunread⟩ := hdeclares
    exact hunread ▸ ⟨[_, _, _], rfl⟩
  have hspelled : ∀ token ∈ inside.unread, token.Spelled := fun token htoken =>
    hstarts.stands.spelled token (hsuffix.subset htoken)
  have hunbroken : ∀ token ∈ inside.unread, IsUnbroken token.text.toList := fun token htoken =>
    isUnbroken_of_mem_significant (hstarts.unread_subset (hsuffix.subset htoken))
  have htaken : ∀ front back type, behindType inside.unread = front ++ back →
      ((Reader.hierarchyType : Reader Builder Refusal HierarchyType) inside =
          .ok type { inside with unread := back } ↔
        HierarchyType.ofString (" ".intercalate (texts front)) = .ok type) :=
    fun front back type htokens => Reader.hierarchyType_iff hspelled hunbroken htokens _ _ type
  refine ⟨hgoesOn, htaken, fun hnone => ?_⟩
  have hread := @Reader.classifies_hierarchyType Builder Refusal _ hspelled inside.depth
    inside.state
  generalize hresult : (Reader.hierarchyType : Reader Builder Refusal HierarchyType) inside = result
    at hread
  cases hread with
  | @named front back type htokens hnamed =>
      refine absurd ((htaken front back type htokens).1 hresult) (hnone front back type htokens ?_)
      simpa [texts] using hnamed.length_eq
  | @spoiled error spoiler after hspoiled =>
      have hunread : before.unread ≠ [] := by
        obtain ⟨hunread⟩ := hdeclares
        exact hunread ▸ List.cons_ne_nil _ _
      have hstop : (⟨⟨.malformed error, spoiler⟩, after.next?⟩ : Stop Refusal) ∈
          (before.declaration Builder.meaning (maxDepth + 1)).1 := by
        rw [Reading.declaration, hgoesOn, Reader.hierarchyBody, Reader.bind_of_error hresult]
        rfl
      exact ⟨error, spoiler, hspoiled, ⟨_, hstop, rfl⟩,
        exists_malformed_of_stop (hstarts.stop_mem hunread hstop) rfl⟩

/-! ### Both ways -/

/-- A hierarchy is declared at the outermost level only. -/
theorem Field.eq_of_find?_hierarchy {owner : Node.Kind} {kind : Token.Kind}
    (h : Field.find? owner kind = some (.construct .hierarchy)) :
    owner = .start ∧ kind = .reserved .hierarchy := by
  obtain ⟨word, rfl, hlookup⟩ := find?_eq_some.1 h
  have hall : ∀ entry ∈ table owner, entry.2 = .construct .hierarchy →
      owner = .start ∧ entry.1 = .hierarchy := by
    cases owner <;> decide
  obtain ⟨howner, hword⟩ := hall _ (mem_table hlookup) rfl
  exact ⟨howner, congrArg _ hword⟩

/-- The two ways to read a classification agree, and what a text decodes to is printed as its words,
one space apart. -/
structure ClassificationsAgree : Prop where
  /-- The words of a text are those that it is made of, with white space between them. -/
  separated : ∀ text ws, words text = ws ↔ SpacedOut (ws.map String.toList) text.toList
  decoded : ∀ text type, HierarchyType.ofString text = .ok type ↔ Named (words text) type
  printed : ∀ text type, HierarchyType.ofString text = .ok type →
    type.text = " ".intercalate (words text) ∧ HierarchyType.ofString type.text = .ok type
  outermost : ∀ owner kind, Field.find? owner kind = some (.construct .hierarchy) →
    owner = .start ∧ kind = .reserved .hierarchy
  declared : ∀ source before inside, Compile.StartsAt source before →
    DeclaresHierarchy before inside → ClassifiesAsDecoded source before inside

theorem classificationsAgree : ClassificationsAgree where
  separated _ _ := words_eq_iff
  decoded _ _ := HierarchyType.ofString_iff
  printed _ _ h :=
    ⟨(HierarchyType.ofString_iff.1 h).text_eq, (HierarchyType.ofString_iff.1 h).ofString_text⟩
  outermost _ _ h := Field.eq_of_find?_hierarchy h
  declared _ _ _ hstarts hdeclares := classifiesAsDecoded hstarts hdeclares

/-- A hierarchy that is reached, with what its classification is to be read from. -/
example : ∃ inside,
    DeclaresHierarchy (Compile.start (Lexer.tokens "(gerarchy g type total subset)")) inside ∧
      texts (behindType inside.unread) = ["total", "subset", ")"] := by
  have hunread : (Compile.start (Lexer.tokens "(gerarchy g type total subset)")).unread =
      ⟨.leftParen, "(", 0⟩ :: ⟨.reserved .hierarchy, "gerarchy", 1⟩ :: ⟨.identifier, "g", 10⟩ ::
        [⟨.reserved .type, "type", 12⟩, ⟨.reserved .totalCover, "total", 17⟩,
          ⟨.reserved .subset, "subset", 23⟩, ⟨.rightParen, ")", 29⟩] := by
    decide +kernel
  exact ⟨_, .behindName hunread rfl rfl rfl rfl, rfl⟩

/-- It is malformed at the second of these words. -/
example : (diagnosticsOf "(gerarchy g type total subset)").map
    (fun told => (told.offset, told.message)) =
      [(23, "expected 'exclusive' or 'overlapped' for gerarchy type")] := by
  decide +kernel

end ErDiagram
