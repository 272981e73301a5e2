import ErDiagram.Proofs.Compiling
import ErDiagram.Proofs.Layout
import ErDiagram.Proofs.References

/-!
Compiling a text undoes writing it. However a valid diagram is written and laid out, the text
compiles to the graph of the diagram, and each name that is mentioned stands in that graph for just
the construct that was declared with it.
-/

namespace ErDiagram

/-! ### What is written has no invalid tokens -/

def AllValid (tokens : List Token) : Prop :=
  ∀ token ∈ tokens, token.kind ≠ .invalid

theorem allValid_nil : AllValid [] :=
  List.forall_mem_nil _

theorem AllValid.cons {token : Token} {kind : Token.Kind} {rest : List Token} (hrest : AllValid rest)
    (h : token.kind = kind) (hkind : kind ≠ .invalid) : AllValid (token :: rest) :=
  List.forall_mem_cons.2 ⟨h ▸ hkind, hrest⟩

theorem AllValid.append {front back : List Token} (hfront : AllValid front)
    (hback : AllValid back) : AllValid (front ++ back) :=
  List.forall_mem_append.2 ⟨hfront, hback⟩

theorem Enclosed.allValid {word : Keyword} {inner tokens : List Token}
    (h : Enclosed word inner tokens) (hinner : AllValid inner) : AllValid tokens := by
  obtain ⟨hopening, hkeyword, hclosing⟩ := h
  have hend := hinner.append (allValid_nil.cons hclosing (by decide))
  exact (hend.cons hkeyword (by simp)).cons hopening (by decide)

theorem Row.allValid {α : Type} {writes : α → List Token → Prop}
    (hwrites : ∀ a tokens, writes a tokens → AllValid tokens) {things : List α}
    {tokens : List Token} (h : Row writes things tokens) : AllValid tokens := by
  induction h with
  | nil => exact allValid_nil
  | cons hfirst _ ih => exact (hwrites _ _ hfirst).append ih

theorem Cardinality.WrittenAs.allValid {cardinality : Cardinality} {tokens : List Token}
    (h : cardinality.WrittenAs tokens) : AllValid tokens := by
  cases h with
  | pair hkind => exact allValid_nil.cons hkind (by decide)
  | bounds hlower hupper => exact (allValid_nil.cons hupper (by decide)).cons hlower (by decide)

theorem Classification.WrittenAs.allValid {classification : Classification} {tokens : List Token}
    (h : classification.WrittenAs tokens) : AllValid tokens := by
  have hwords : ∀ {words}, classification.Words words → AllValid words := by
    intro words hwords
    cases hwords with
    | subset hkind => exact allValid_nil.cons hkind (by simp)
    | facets hcoverage hdisjointness =>
        exact (allValid_nil.cons hdisjointness (by simp)).cons hcoverage (by simp)
  cases h with
  | plain h => exact hwords h
  | announced htype h => exact (hwords h).cons htype (by simp)

mutual

theorem Attribute.WrittenAs.allValid {owned : Attribute} {tokens : List Token} :
    owned.WrittenAs tokens → AllValid tokens
  | .mk hname hdetail hinside henclosed => by
      have hrest := Attribute.AllWrittenAs.allValid hinside
      refine henclosed.allValid (AllValid.cons ?_ hname (by decide))
      cases hdetail with
      | none => exact hrest
      | some hcard htokens => exact (htokens.allValid.cons hcard (by simp)).append hrest

theorem Attribute.AllWrittenAs.allValid {attributes : List Attribute} {tokens : List Token} :
    Attribute.AllWrittenAs attributes tokens → AllValid tokens
  | .nil => allValid_nil
  | .cons hfirst hrest =>
      (Attribute.WrittenAs.allValid hfirst).append (Attribute.AllWrittenAs.allValid hrest)

end

theorem Clause.WrittenAs.allValid {kind : Node.Kind} {clause : Clause kind} {tokens : List Token}
    (h : clause.WrittenAs tokens) : AllValid tokens := by
  cases h with
  | attr howned => exact howned.allValid
  | key hnames henclosed =>
      refine henclosed.allValid fun name hname => ?_
      rw [hnames name hname]
      decide
  | branch hentity hcard hrest henclosed =>
      exact henclosed.allValid ((hrest.allValid.cons hcard (by simp)).cons hentity (by decide))
  | parent hname henclosed | child hname henclosed | between hname henclosed
  | across hname henclosed => exact henclosed.allValid (allValid_nil.cons hname (by decide))
  | attributeOf hname hentity henclosed =>
      exact henclosed.allValid ((allValid_nil.cons hentity (by decide)).cons hname (by decide))

theorem Declaration.WrittenAs.allValid {declaration : Declaration} {tokens : List Token}
    (h : declaration.WrittenAs tokens) : AllValid tokens := by
  have hrow : ∀ {kind : Node.Kind} {clauses : List (Clause kind)} {rest : List Token},
      Row Clause.WrittenAs clauses rest → AllValid rest :=
    Row.allValid fun _ _ h => h.allValid
  cases h with
  | entity hname hclauses henclosed | association hname hclauses henclosed
  | foreignKey hname hclauses henclosed =>
      exact henclosed.allValid ((hrow hclauses).cons hname (by decide))
  | hierarchy hname hwords hclauses henclosed =>
      exact henclosed.allValid ((hwords.allValid.append (hrow hclauses)).cons hname (by decide))

/-! ### What names stand for -/

/-- Each name in a diagram gives one id, that of the construct which was declared with it: a name of
an entity or an association that of the earlier declaration with that kind and name, a name in a
primary key that of the attribute before the key, and an attribute that a foreign key refers to
that of the attribute in the earlier entity. -/
structure Diagram.Resolved (diagram : Diagram) : Prop where
  declarations : ∀ earlier declaration later, diagram = earlier ++ declaration :: later →
    ∀ clause ∈ declaration.clauses, ∀ kind name, clause.mentioned? = some (kind, name) →
      ∃ (front : Diagram) (target : Declaration) (back : Diagram),
        earlier = front ++ target :: back ∧ target.kind = kind ∧ target.name = name ∧
          Diagram.ids earlier kind name = [front.nextId]
  keys : ∀ earlier declaration later, diagram = earlier ++ declaration :: later →
    ∀ before clause after names, declaration.clauses = before ++ clause :: after →
      clause.key? = some names → ∀ name ∈ names,
        ∃ front owner back attr, before = front ++ owner :: back ∧
          owner.attribute? = some attr ∧ attr.name = name ∧
            (Clause.attributeIds (Diagram.nextId earlier) before).lookup name =
              some (Diagram.nextId earlier + 1 + Clause.sizes front)
  attributes : ∀ earlier declaration later, diagram = earlier ++ declaration :: later →
    ∀ clause ∈ declaration.clauses, ∀ name entity, clause.attributeOf? = some (name, entity) →
      ∃ (front : Diagram) (target : Declaration) (back : Diagram),
        earlier = front ++ target :: back ∧ target.kind = .entity ∧ target.name = entity ∧
          ∃ before owner after attr, target.clauses = before ++ owner :: after ∧
            owner.attribute? = some attr ∧ attr.name = name ∧
              clause.mentions earlier = [front.nextId + 1 + Clause.sizes before]

theorem Clause.Fits.resolved {kind : Node.Kind} {earlier : Diagram} {before : List (Clause kind)}
    {clause : Clause kind} (h : clause.Fits earlier before) {name entity : String}
    (hattribute : clause.attributeOf? = some (name, entity)) :
    ∃ (front : Diagram) (target : Declaration) (back : Diagram),
      earlier = front ++ target :: back ∧ target.kind = .entity ∧ target.name = entity ∧
        ∃ first owner rest attr, target.clauses = first ++ owner :: rest ∧
          owner.attribute? = some attr ∧ attr.name = name ∧
            clause.mentions earlier = [front.nextId + 1 + sizes first] := by
  cases clause with
  | attributeOf =>
      cases hattribute
      obtain ⟨place, hplace, hattr⟩ := h
      obtain ⟨hkind, hname, front, back, hsplit, hid⟩ := Diagram.split_of_place? hplace
      obtain ⟨found, hfound⟩ :=
        (@lookup_attributeIds_isSome _ place.1 place.2.clauses name).2 hattr
      obtain ⟨first, owner, rest, attr, hclauses, howner, hattrName, rfl⟩ := split_of_lookup hfound
      refine ⟨front, place.2, back, hsplit, hkind, hname, first, owner, rest, attr, hclauses, howner,
        hattrName, ?_⟩
      rw [mentions, hplace, Option.bind_some, hfound, hid]
      rfl
  | attr | key | branch | parent | child | between | across => cases hattribute

theorem Diagram.Valid.resolved {diagram : Diagram} (h : diagram.Valid) : diagram.Resolved where
  declarations := by
    intro earlier declaration later hsplit clause hclause kind name hmentioned
    have hdeclares := h.mentions earlier declaration later hsplit clause hclause kind name hmentioned
    obtain ⟨place, hplace⟩ := place?_isSome.2 hdeclares
    obtain ⟨hkind, hname, front, back, hearlier, hid⟩ := split_of_place? hplace
    refine ⟨front, place.2, back, hearlier, hkind, hname, ?_⟩
    rw [ids, hplace, ← hid]
    rfl
  keys := by
    intro earlier declaration later hsplit before clause after names hclauses hkey name hname
    have hdeclaration : declaration ∈ diagram := by simp [hsplit]
    have howned := h.keys.owned declaration hdeclaration before clause after names hclauses hkey
    obtain ⟨found, hfound⟩ :=
      (@Clause.lookup_attributeIds_isSome _ (Diagram.nextId earlier) before name).2
        (howned name hname)
    obtain ⟨front, owner, back, attr, hbefore, howner, hattr, rfl⟩ := Clause.split_of_lookup hfound
    exact ⟨front, owner, back, attr, hbefore, howner, hattr, hfound⟩
  attributes := by
    intro earlier declaration later hsplit clause hclause name entity hattribute
    obtain ⟨before, after, hclauses⟩ := List.append_of_mem hclause
    exact ((h.fits hsplit).2 before clause after hclauses).resolved hattribute

/-! ### Compiling what is written -/

/-- However a valid diagram is written, with parentheses nested no deeper than allowed, and however
that is laid out, the text compiles to the graph of the diagram. -/
theorem compile_of_written {diagram : Diagram} {tokens : List Token} {source : String}
    (hvalid : diagram.Valid) (hwritten : diagram.WrittenAs tokens)
    (hnests : NestsWithin maxDepth tokens) (hlaid : LaidOut none 0 tokens source.toList) :
    compile source = .ok diagram.graph ∧ diagram.Resolved := by
  have htokens : AllValid tokens := Row.allValid (fun _ _ h => h.allValid) hwritten
  have hscan : (Lexer.tokens source).dropLast = tokens := by
    rw [dropLast_tokens]
    exact hlaid.scan_eq htokens
  refine ⟨compile_ok_iff.2 ⟨?_, diagram, ?_, ?_, hvalid, rfl⟩, hvalid.resolved⟩
  · rw [tokens_eq, hlaid.scan_eq htokens]
    exact htokens.append (allValid_nil.cons rfl (by simp))
  · rw [hscan]
    exact hwritten
  · rw [hscan]
    exact hnests

/-- Between parentheses at two places, with the reserved word right behind the first. -/
theorem enclosed_at (word : Keyword) (spelling : String) (first last : Nat) (inner : List Token) :
    Enclosed word inner (⟨.leftParen, "(", first⟩ :: ⟨.reserved word, spelling, first + 1⟩ ::
      (inner ++ [⟨.rightParen, ")", last⟩])) :=
  .mk rfl rfl rfl

/-- A diagram with a construct and a reference of every sort. -/
def sampleDiagram : Diagram :=
  [.entity "a" [.attr (.inl rfl) ⟨"x", none, [⟨"y", some ⟨.count 1, .many⟩, []⟩]⟩, .key ["x"]],
    .entity "b" [],
    .association "r" [.branch "a" ⟨.count 0, .many⟩],
    .hierarchy "g" (.facets true true) [.parent "a", .child "b"],
    .foreignKey "f" [.attributeOf "x" "a", .between "b"]]

/-- The lines of a text that writes it. -/
def sampleLines : List String :=
  ["(entity a ; its key is x",
    " (attribute x (attr y card 1 N))",
    " (primary-key x))",
    "(entity b)",
    "(association r (entity a card 0:n))",
    "(gerarchy g type total exclusive (parent a)(child b))",
    "(fk f (attr x a) (between b)) ; f joins them"]

def sampleText : String :=
  String.ofList (sampleLines.flatMap (·.toList ++ ['\n']))

theorem toList_sampleText : sampleText.toList = sampleLines.flatMap (·.toList ++ ['\n']) :=
  String.toList_ofList

theorem writtenAs_sampleText :
    sampleDiagram.WrittenAs (scan 0 sampleText.toList) ∧
      NestsWithin maxDepth (scan 0 sampleText.toList) ∧
        (scan 0 sampleText.toList).IsChain Token.Parts := by
  let name (text : String) (offset : Nat) : Token := ⟨.identifier, text, offset⟩
  have hmany : Bound.many.WrittenAs ['n'] ∧ Bound.many.WrittenAs ['N'] := ⟨.inl rfl, .inr rfl⟩
  have hcount : Bound.WrittenAs (.count 0) ['0'] ∧ Bound.WrittenAs (.count 1) ['1'] :=
    ⟨⟨List.cons_ne_nil _ _, List.forall_mem_singleton.2 rfl, rfl⟩,
      ⟨List.cons_ne_nil _ _, List.forall_mem_singleton.2 rfl, rfl⟩⟩
  have hy : Attribute.WrittenAs ⟨"y", some ⟨.count 1, .many⟩, []⟩ _ :=
    @Attribute.WrittenAs.mk (name "y" 45) _ _ _ _ _ rfl
      (@Attribute.Detail.some _ ⟨.reserved .cardinality, "card", 47⟩ _ rfl
        (@Cardinality.WrittenAs.bounds _ ⟨.cardinal, "1", 52⟩ ⟨.cardinal, "N", 54⟩ rfl rfl
          hcount.2 hmany.2))
      .nil (enclosed_at .attribute "attr" 39 55 _)
  have hx : Attribute.WrittenAs ⟨"x", none, [⟨"y", some ⟨.count 1, .many⟩, []⟩]⟩ _ :=
    @Attribute.WrittenAs.mk (name "x" 37) _ _ _ _ _ rfl .none (.cons hy .nil)
      (enclosed_at .attribute "attribute" 26 56 _)
  have hkey : Clause.WrittenAs (.key ["x"]) _ :=
    @Clause.WrittenAs.key [name "x" 72] _ (by decide)
      (enclosed_at .primaryKey "primary-key" 59 73 _)
  have hbranch : Clause.WrittenAs (.branch "a" ⟨.count 0, .many⟩) _ :=
    @Clause.WrittenAs.branch (name "a" 110) ⟨.reserved .cardinality, "card", 112⟩ _ _ _ rfl rfl
      (@Cardinality.WrittenAs.pair _ ⟨.cardinal, "0:n", 117⟩ ['0'] ['n'] rfl rfl hcount.1 hmany.1)
      (enclosed_at .entity "entity" 102 120 _)
  have hparent : Clause.WrittenAs (.parent "a") _ :=
    @Clause.WrittenAs.parent (name "a" 164) _ rfl (enclosed_at .parent "parent" 156 165 _)
  have hchild : Clause.WrittenAs (.child "b") _ :=
    @Clause.WrittenAs.child (name "b" 173) _ rfl (enclosed_at .child "child" 166 174 _)
  have htype : Classification.WrittenAs (.facets true true) _ :=
    @Classification.WrittenAs.announced _ ⟨.reserved .type, "type", 135⟩ _ rfl
      (@Classification.Words.facets true true ⟨.reserved .totalCover, "total", 140⟩
        ⟨.reserved .exclusive, "exclusive", 146⟩ rfl rfl)
  have hattributeOf : Clause.WrittenAs (.attributeOf "x" "a") _ :=
    @Clause.WrittenAs.attributeOf (name "x" 189) (name "a" 191) _ rfl rfl
      (enclosed_at .attribute "attr" 183 192 _)
  have hbetween : Clause.WrittenAs (.between "b") _ :=
    @Clause.WrittenAs.between (name "b" 203) _ rfl (enclosed_at .between "between" 194 204 _)
  have hwritten : sampleDiagram.WrittenAs _ :=
    .cons (@Declaration.WrittenAs.entity (name "a" 8) _ _ _ rfl (.cons (.attr hx) (.cons hkey .nil))
        (enclosed_at .entity "entity" 0 74 _)) <|
      .cons (@Declaration.WrittenAs.entity (name "b" 84) _ _ _ rfl .nil
        (enclosed_at .entity "entity" 76 85 _)) <|
      .cons (@Declaration.WrittenAs.association (name "r" 100) _ _ _ rfl (.cons hbranch .nil)
        (enclosed_at .association "association" 87 121 _)) <|
      .cons (@Declaration.WrittenAs.hierarchy (name "g" 133) _ _ _ _ _ rfl htype
        (.cons hparent (.cons hchild .nil)) (enclosed_at .hierarchy "gerarchy" 123 175 _)) <|
      .cons (@Declaration.WrittenAs.foreignKey (name "f" 181) _ _ _ rfl
        (.cons hattributeOf (.cons hbetween .nil)) (enclosed_at .foreignKey "fk" 177 205 _)) .nil
  -- the text is cut into tokens once
  suffices h : ∃ tokens, scan 0 sampleText.toList = tokens ∧ sampleDiagram.WrittenAs tokens ∧
      NestsWithin maxDepth tokens ∧ tokens.IsChain Token.Parts by
    obtain ⟨_, rfl, hwritten⟩ := h
    exact hwritten
  rw [toList_sampleText]
  exact ⟨_, by decide +kernel, hwritten, nestsWithin_iff.2 (by decide +kernel), by decide +kernel⟩

/-- A diagram with several declarations compiles from a text with synonyms, comments and a split
cardinality. -/
theorem compile_of_written_sample :
    compile (sampleText ++ "\n") = .ok sampleDiagram.graph ∧ sampleDiagram.Resolved := by
  have hvalid : sampleDiagram.Valid := by decide
  obtain ⟨hwritten, hnests, hparted⟩ := writtenAs_sampleText
  have hlaid : LaidOut none 0 (scan 0 sampleText.toList) (sampleText ++ "\n").toList := by
    rw [String.toList_append]
    exact laidOut_scan (fun _ h => by cases h) (by rwa [Option.toList_none, List.nil_append])
  exact compile_of_written hvalid hwritten hnests hlaid

end ErDiagram
