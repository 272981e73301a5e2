import ErDiagram.Proofs.Pointing

/-!
What messages quote. A message quotes names and literals, and these are texts of tokens or, behind an
owner, names that its node got from a token. No token is written with a line feed, so every
diagnostic is shown in one line, whatever the source text is.
-/

namespace ErDiagram

def IsLine (text : String) : Prop :=
  '\n' ∉ text.toList

instance (text : String) : Decidable (IsLine text) :=
  inferInstanceAs (Decidable ('\n' ∉ text.toList))

theorem IsLine.append {front back : String} (h : IsLine front) (h' : IsLine back) :
    IsLine (front ++ back) := by
  rw [IsLine, String.toList_append, List.mem_append, not_or]
  exact ⟨h, h'⟩

theorem isLine_repr (n : Nat) : IsLine n.repr := by
  intro hmem
  exact absurd (isDigit_of_mem_repr hmem) (by decide)

theorem isLine_of_mem_scan {source : String} {token : Token}
    (h : token ∈ scan 0 source.toList) : IsLine token.text :=
  fun hmem => absurd (isBlank_of_mem_token h hmem) (by decide)

/-! ### What is quoted -/

theorem Node.Kind.isLine_text (kind : Node.Kind) : IsLine kind.text := by
  cases kind <;> decide

theorem Node.Kind.isLine_label (kind : Node.Kind) : IsLine kind.label := by
  cases kind <;> decide

theorem Token.Kind.isLine_describe (kind : Token.Kind) : IsLine kind.describe := by
  cases kind with
  | reserved word => cases word <;> decide
  | leftParen | rightParen | identifier | cardinal | endOfInput | invalid => decide

/-- Of what the grammar does not allow, only literals are quoted. -/
theorem SyntaxError.isLine_message {error : SyntaxError}
    (h : ∀ invalid, error = .invalidCardinality invalid → IsLine invalid.text) :
    IsLine error.message := by
  cases error with
  | expectedToken kind => exact (show IsLine "expected " by decide).append kind.isLine_describe
  | expectedName kind =>
      exact ((show IsLine "expected " by decide).append kind.isLine_label).append (by decide)
  | unknownField owner =>
      exact (show IsLine "unrecognized field in " by decide).append owner.isLine_label
  | invalidCardinality invalid =>
      exact ((show IsLine "invalid cardinality '" by decide).append (h invalid rfl)).append (by decide)
  | expectedDeclaration | expectedCoverage | expectedDisjointness | nestedTooDeeply => decide

/-- The causes whose report is a text of one line. -/
def Fault.Cause.TellsLine : Fault.Cause Refusal → Prop
  | .malformed error => IsLine error.message
  | .refused refusal => IsLine refusal.message
  | .exhausted => True

/-- The names of all nodes, but for the start node, are texts of one line. -/
structure Builder.HoldsLines (builder : Builder) : Prop where
  closed : ∀ node ∈ builder.graph.nodes, IsLine node.name
  opened : ∀ frame ∈ builder.inner, IsLine frame.node.name

namespace Builder.HoldsLines

variable {builder after : Builder}

theorem empty : Builder.empty.HoldsLines :=
  ⟨fun _ h => (List.not_mem_nil h).elim, fun _ h => (List.not_mem_nil h).elim⟩

theorem modifyTop (h : builder.HoldsLines) {change : Frame → Frame}
    (hname : ∀ frame, (change frame).node.name = frame.node.name) :
    (builder.modifyTop change).HoldsLines := by
  obtain ⟨nextId, root, inner, graph⟩ := builder
  cases inner with
  | nil => exact ⟨h.closed, h.opened⟩
  | cons frame outer =>
      obtain ⟨hframe, houter⟩ := List.forall_mem_cons.1 h.opened
      refine ⟨h.closed, List.forall_mem_cons.2 ⟨?_, houter⟩⟩
      rw [hname]
      exact hframe

theorem modifyCurrent (h : builder.HoldsLines) {change : Node → Node}
    (hname : ∀ node, (change node).name = node.name) : (builder.modifyCurrent change).HoldsLines :=
  h.modifyTop fun frame => hname frame.node

theorem insert (h : builder.HoldsLines) {node : Node} (hnode : IsLine node.name) :
    Builder.HoldsLines { builder with graph := builder.graph.insert node } where
  closed := by
    intro other hother
    rcases Graph.eq_or_mem_of_mem_insertNode hother with rfl | hother
    · exact hnode
    · exact h.closed other hother
  opened := h.opened

theorem opened_opened (h : builder.HoldsLines) (kind : Node.Kind) {name : String}
    (hname : IsLine name) : (builder.opened kind name).HoldsLines := by
  have houter : (builder.modifyTop fun frame =>
      { frame.link builder.nextId with
        scope := frame.scope.bind kind name builder.nextId }).HoldsLines :=
    h.modifyTop fun _ => rfl
  exact ⟨houter.closed, List.forall_mem_cons.2 ⟨hname, houter.opened⟩⟩

theorem link (h : builder.HoldsLines) (id : Nat) : (builder.link id).HoldsLines :=
  h.modifyTop fun _ => rfl

theorem grown (h : builder.HoldsLines) {leaf : Node} (hleaf : IsLine leaf.name) :
    (builder.grown leaf).HoldsLines := by
  have hinsert := (h.link leaf.id).insert hleaf
  refine ⟨?_, hinsert.opened⟩
  have hgraph : (builder.link leaf.id).graph = builder.graph := graph_modifyTop builder _
  have hclosed := hinsert.closed
  rw [hgraph] at hclosed
  exact hclosed

/-- Nodes are named by actions, or by their ids. -/
theorem act (h : builder.HoldsLines) {action : Action} (haction : ∀ name ∈ action.names, IsLine name)
    (hact : meaning.act action builder = .ok after) : after.HoldsLines := by
  have hleaf : ∀ suffix, IsLine suffix →
      IsLine (builder.nextId.repr ++ "_" ++ suffix) := fun suffix hsuffix =>
    ((isLine_repr _).append (by decide)).append hsuffix
  cases action with
  | declare kind name =>
      obtain ⟨-, rfl⟩ := act_declare.1 hact
      exact h.opened_opened kind (haction name List.mem_cons_self)
  | classify type =>
      rw [act_classify] at hact
      cases hact
      exact h.modifyCurrent fun _ => rfl
  | bound cardinality =>
      rw [act_bound] at hact
      cases hact
      exact h.modifyCurrent fun _ => rfl
  | close =>
      cases hinner : builder.inner with
      | nil =>
          change (Refusal.ofScope builder.closeNode >>= fun found => pure found.2) = _ at hact
          obtain ⟨found, hclose, -⟩ := ofScope_bind_ok.1 hact
          rw [closeNode, hinner] at hclose
          cases hclose
      | cons frame outer =>
          rw [act_close hinner] at hact
          cases hact
          have hopened := h.opened
          rw [hinner, List.forall_mem_cons] at hopened
          exact ⟨(h.insert hopened.1).closed, hopened.2⟩
  | lacksKey =>
      obtain ⟨-, rfl⟩ := act_lacksKey.1 hact
      exact h
  | ownsAttribute name =>
      obtain ⟨-, rfl⟩ := act_ownsAttribute.1 hact
      exact h
  | knows kind name =>
      obtain ⟨-, rfl⟩ := act_knows.1 hact
      exact h
  | primaryKey names =>
      obtain ⟨-, rfl⟩ := act_primaryKey.1 hact
      exact h.grown (hleaf "pk" (by decide))
  | branch entity cardinality =>
      obtain ⟨id, -, rfl⟩ := act_branch.1 hact
      exact h.grown (hleaf "card" (by decide))
  | attributeOf name entity =>
      obtain ⟨owner, id, -, -, rfl⟩ := act_attributeOf.1 hact
      exact h.link id
  | mention kind name =>
      obtain ⟨id, -, rfl⟩ := act_mention.1 hact
      exact h.link id

theorem rollback (h : builder.HoldsLines) (checkpoint : Checkpoint) :
    (builder.rollback checkpoint).HoldsLines where
  closed node hnode := h.closed node (List.mem_of_mem_filter hnode)
  opened _ hframe := by cases hframe

/-- Refusals quote names that actions give, or that nodes have. -/
theorem refused (h : builder.HoldsLines) {action : Action} (haction : ∀ name ∈ action.names, IsLine name)
    {refusal : Refusal} (hact : meaning.act action builder = .error refusal) :
    IsLine refusal.message := by
  cases refuses_of_act hact with
  | duplicate kind hname =>
      exact ((((show IsLine "duplicate definition of " by decide).append kind.isLine_text).append
        (by decide)).append (haction _ hname)).append (by decide)
  | unresolved kind hname =>
      exact ((((show IsLine "unresolved reference to " by decide).append kind.isLine_text).append
        (by decide)).append (haction _ hname)).append (by decide)
  | @missingAttribute node _ hnode hname =>
      exact ((((((show IsLine "attribute '" by decide).append (haction _ hname)).append
        (by decide)).append node.kind.isLine_text).append (by decide)).append
          (h.closed node hnode)).append (by decide)
  | secondKey => decide
  | closingStart => decide

end Builder.HoldsLines

/-! ### Readers -/

/-- The tokens left are texts of one line, and so are the names of the nodes so far. -/
structure Reading.HoldsLines (reading : Reading Builder) : Prop where
  tokens : ∀ token ∈ reading.unread, IsLine token.text
  state : reading.state.HoldsLines

theorem Reading.HoldsLines.advance {reading : Reading Builder} (h : reading.HoldsLines) :
    reading.advance.HoldsLines := by
  obtain ⟨unread, depth, state⟩ := reading
  cases unread with
  | nil => exact h
  | cons token rest => exact ⟨fun other hother => h.tokens other (List.mem_cons_of_mem _ hother), h.state⟩

/-- A reader that keeps to texts of one line, gives such things and reports its stops in one line. -/
structure TellsLines {α : Type} (gives : α → Prop) (reader : Reader Builder Refusal α) : Prop where
  ok : ∀ {before after : Reading Builder} {a : α}, before.HoldsLines → reader before = .ok a after →
    gives a ∧ after.HoldsLines
  error : ∀ {before after : Reading Builder} {fault : Fault Refusal}, before.HoldsLines →
    reader before = .error fault after → fault.cause.TellsLine ∧ after.HoldsLines

namespace TellsLines

variable {α β : Type} {gives : α → Prop} {gives' : β → Prop}

theorem bind {reader : Reader Builder Refusal α} {next : α → Reader Builder Refusal β}
    (h : TellsLines gives reader) (hnext : ∀ a, gives a → TellsLines gives' (next a)) :
    TellsLines gives' (reader >>= next) where
  ok := by
    intro before after b hbefore hok
    obtain ⟨a, middle, hfirst, hsecond⟩ := Reader.bind_ok.1 hok
    obtain ⟨ha, hmiddle⟩ := h.ok hbefore hfirst
    exact (hnext a ha).ok hmiddle hsecond
  error := by
    intro before after fault hbefore herror
    rcases Reader.bind_error.1 herror with hfirst | ⟨a, middle, hfirst, hsecond⟩
    · exact h.error hbefore hfirst
    · obtain ⟨ha, hmiddle⟩ := h.ok hbefore hfirst
      exact (hnext a ha).error hmiddle hsecond

theorem pure {a : α} (h : gives a) : TellsLines gives (pure a : Reader Builder Refusal α) where
  ok hbefore hok := by
    cases hok
    exact ⟨h, hbefore⟩
  error _ herror := by cases herror

theorem fail (cause : Fault.Cause Refusal) (h : cause.TellsLine) (token : Option Token) :
    TellsLines gives (Reader.fail cause token : Reader Builder Refusal α) where
  ok _ hok := by cases hok
  error hbefore herror := by
    cases herror
    exact ⟨h, hbefore⟩

theorem ask (question : Reading Builder → α) :
    TellsLines (fun _ => True) (Reader.ask question) where
  ok hbefore hok := by
    cases hok
    exact ⟨trivial, hbefore⟩
  error _ herror := by cases herror

theorem peek {reader : Reader Builder Refusal α} {take : Token → Option α} {error : SyntaxError}
    (hread : reader.Peeks take error) (herror : IsLine error.message)
    (htake : ∀ token a, IsLine token.text → take token = some a → gives a) :
    TellsLines gives reader where
  ok := by
    intro before after a hbefore hok
    rw [hread] at hok
    split at hok
    · rename_i b htaken
      cases hok
      obtain ⟨token, hnext, htaken⟩ := Option.bind_eq_some_iff.1 htaken
      exact ⟨htake token a (hbefore.tokens token (Reading.mem_of_next? hnext)) htaken,
        hbefore.advance⟩
    · cases hok
  error := by
    intro before after fault hbefore hstop
    rw [hread] at hstop
    split at hstop
    · cases hstop
    · cases hstop
      exact ⟨herror, hbefore⟩

theorem expect (kind : Token.Kind) {error : SyntaxError} (herror : IsLine error.message) :
    TellsLines (fun token => IsLine token.text) (Reader.expect kind error) := by
  apply peek (Reader.expect_peeks kind error) herror
  intro token a htoken htake
  split at htake
  · cases htake
    exact htoken
  · cases htake

theorem expectKind (kind : Token.Kind) :
    TellsLines (fun token => IsLine token.text) (Reader.expectKind kind) :=
  expect kind (SyntaxError.isLine_message fun _ h => by cases h)

theorem expectName (kind : Node.Kind) :
    TellsLines (fun token => IsLine token.text) (Reader.expectName kind) :=
  expect .identifier (SyntaxError.isLine_message fun _ h => by cases h)

theorem decode (value? : String → Option α) {error : SyntaxError} (herror : IsLine error.message) :
    TellsLines (fun _ => True) (Reader.decode value? error) :=
  peek (Reader.decode_peeks value? error) herror fun _ _ _ _ => trivial

theorem fieldKeyword (owner : Node.Kind) :
    TellsLines (fun _ => True) (Reader.fieldKeyword owner) := by
  refine peek (Reader.fieldKeyword_peeks owner) (SyntaxError.isLine_message fun _ h => ?_)
    fun _ _ _ _ => trivial
  split at h <;> cases h

theorem accept (kind : Token.Kind) : TellsLines (fun _ => True) (Reader.accept kind) where
  ok := by
    intro before after found hbefore hok
    unfold Reader.accept at hok
    split at hok
    · cases hok
      exact ⟨trivial, hbefore.advance⟩
    · cases hok
      exact ⟨trivial, hbefore⟩
  error := by
    intro before after fault hbefore herror
    unfold Reader.accept at herror
    split at herror <;> cases herror

/-- What is quoted of a literal that stands for nothing is its text. -/
theorem decoded {token : Token} (htoken : IsLine token.text) {result : Except InvalidCardinality α}
    (h : ∀ error, result = .error error → error.text = token.text) :
    TellsLines (fun _ => True) (Reader.decoded token result) := by
  cases result with
  | ok value => exact pure trivial
  | error error =>
      refine fail (.malformed _) (SyntaxError.isLine_message fun invalid heq => ?_) _
      cases heq
      rw [h error rfl]
      exact htoken

theorem report (action : Action) (haction : ∀ name ∈ action.names, IsLine name)
    (token : Option Token) :
    TellsLines (fun _ => True) (Reader.report Builder.meaning action token) where
  ok := by
    intro before after u hbefore hok
    unfold Reader.report at hok
    split at hok
    · rename_i state hstate
      cases hok
      exact ⟨trivial, hbefore.tokens, hbefore.state.act haction hstate⟩
    · cases hok
  error := by
    intro before after fault hbefore herror
    unfold Reader.report at herror
    split at herror
    · cases herror
    · rename_i refusal hrefusal
      cases herror
      exact ⟨hbefore.state.refused haction hrefusal, hbefore⟩

/-- A report of an action that gives no names. -/
theorem report_nameless {action : Action} (haction : action.names = []) (token : Option Token) :
    TellsLines (fun _ => True) (Reader.report Builder.meaning action token) :=
  report action (by simp [haction]) token

/-- A report of an action that gives one name. -/
theorem report_name {action : Action} {name : String} (haction : action.names = [name])
    (hname : IsLine name) (token : Option Token) :
    TellsLines (fun _ => True) (Reader.report Builder.meaning action token) :=
  report action (by simpa [haction] using hname) token

theorem cardinality : TellsLines (fun _ => True) Reader.cardinality := by
  have hbound : ∀ (text : String) (error : InvalidCardinality),
      Bound.ofString text = .error error → error.text = text := by
    intro text error h
    unfold Bound.ofString at h
    split at h <;> cases h
    rfl
  apply (expectKind .cardinal).bind
  intro first hfirst
  split
  · refine decoded hfirst fun error h => ?_
    unfold Cardinality.ofString at h
    split at h <;> cases h
    rfl
  · apply (decoded hfirst (hbound first.text)).bind
    intro min _
    apply (expectKind .cardinal).bind
    intro second hsecond
    apply (decoded hsecond (hbound second.text)).bind
    intro max _
    exact pure trivial

theorem hierarchyType : TellsLines (fun _ => True) Reader.hierarchyType := by
  apply (accept _).bind
  intro _ _
  apply (accept _).bind
  intro subset _
  split
  · exact pure trivial
  · apply (decode _ (by decide)).bind
    intro total _
    apply (decode _ (by decide)).bind
    intro exclusive _
    exact pure trivial

theorem details (kind : Node.Kind) :
    TellsLines (fun _ => True) (Reader.details Builder.meaning kind) := by
  unfold Reader.details
  split
  · apply hierarchyType.bind
    intro type _
    exact report_nameless rfl _
  · apply (accept _).bind
    intro announced _
    split
    · apply cardinality.bind
      intro cardinality _
      exact report_nameless rfl _
    · exact pure trivial
  · exact pure trivial

theorem items {item : Reader Builder Refusal Unit} (hitem : TellsLines (fun _ => True) item) :
    TellsLines (fun _ => True) (Reader.items item) := by
  have hwithin : ∀ bound, TellsLines (fun _ => True) (Reader.itemsWithin item bound) := by
    intro bound
    induction bound with
    | nil => exact pure trivial
    | cons token bound ih =>
        rw [Reader.itemsWithin]
        apply (ask _).bind
        intro atEnd _
        split
        · exact pure trivial
        · exact hitem.bind fun _ _ => ih
  exact (ask _).bind fun unread _ => hwithin unread

theorem construct {inside : Reader Builder Refusal Unit}
    (hinside : TellsLines (fun _ => True) inside) (kind : Node.Kind) :
    TellsLines (fun _ => True) (Reader.construct Builder.meaning inside kind) := by
  apply (expectName kind).bind
  intro name hname
  apply (report_name rfl hname _).bind
  intro _ _
  apply (details kind).bind
  intro _ _
  apply (items hinside).bind
  intro _ _
  apply (ask _).bind
  intro next _
  exact report_nameless rfl next

theorem keyNames {names : List String} (hnames : ∀ name ∈ names, IsLine name)
    (bound : List Token) :
    TellsLines (fun names => ∀ name ∈ names, IsLine name)
      (Reader.keyNames Builder.meaning names bound) := by
  induction bound generalizing names with
  | nil => exact pure fun name hname => hnames name (List.mem_reverse.1 hname)
  | cons token bound ih =>
      rw [Reader.keyNames]
      apply (ask _).bind
      intro atEnd _
      split
      · exact pure fun name hname => hnames name (List.mem_reverse.1 hname)
      · apply (expectName .attribute).bind
        intro name hname
        apply (report_name rfl hname _).bind
        intro _ _
        exact ih (List.forall_mem_cons.2 ⟨hname, hnames⟩)

theorem knownName (kind : Node.Kind) :
    TellsLines (fun token => IsLine token.text) (Reader.knownName Builder.meaning kind) := by
  apply (expectName kind).bind
  intro name hname
  exact (report_name rfl hname _).bind fun _ _ => pure hname

theorem fieldBody {inside : Node.Kind → Reader Builder Refusal Unit}
    (hinside : ∀ kind, TellsLines (fun _ => True) (inside kind)) (keyword : Token) (field : Field) :
    TellsLines (fun _ => True) (Reader.fieldBody Builder.meaning inside keyword field) := by
  cases field with
  | construct kind => exact construct (hinside kind) kind
  | primaryKey =>
      apply (report_nameless rfl _).bind
      intro _ _
      apply (ask _).bind
      intro unread _
      apply (keyNames (fun _ h => (List.not_mem_nil h).elim) unread).bind
      intro names hnames
      exact report (.primaryKey names) hnames _
  | branch =>
      apply (knownName .entity).bind
      intro entity hentity
      apply (expectKind _).bind
      intro _ _
      apply cardinality.bind
      intro cardinality _
      exact report_name rfl hentity _
  | attributeOf =>
      apply (expectName .attribute).bind
      intro name hname
      apply (knownName .entity).bind
      intro entity hentity
      have hboth : ∀ word ∈ [name.text, entity.text], IsLine word :=
        List.forall_mem_cons.2 ⟨hname, List.forall_mem_singleton.2 hentity⟩
      exact report (.attributeOf name.text entity.text) hboth _
  | mention kind =>
      apply (knownName kind).bind
      intro name hname
      exact report_name rfl hname _

theorem field (budget : Nat) (owner : Node.Kind) :
    TellsLines (fun _ => True) (Reader.field Builder.meaning budget owner) := by
  induction budget generalizing owner with
  | zero => exact fail .exhausted trivial none
  | succ budget ih =>
      rw [Reader.field_succ]
      apply (expectKind .leftParen).bind
      intro paren _
      apply (ask _).bind
      intro depth _
      split
      · exact fail (.malformed .nestedTooDeeply)
          (show IsLine "declaration nested too deeply" by decide) _
      · have hinside : TellsLines (fun _ => True) (Reader.fieldInside Builder.meaning budget owner) :=
          (fieldKeyword owner).bind fun found _ => fieldBody ih found.1 found.2
        apply hinside.bind
        intro _ _
        exact (expectKind .rightParen).bind fun _ _ => pure trivial

end TellsLines

/-! ### Declarations -/

namespace Reading.HoldsLines

variable {reading : Reading Builder}

theorem declaration (h : reading.HoldsLines) (budget : Nat) :
    (∀ stop ∈ (reading.declaration Builder.meaning budget).1, stop.fault.cause.TellsLine) ∧
      (reading.declaration Builder.meaning budget).2.HoldsLines := by
  have hfield := TellsLines.field budget .start
  unfold Reading.declaration
  split
  · rename_i after hok
    exact ⟨by simp, (hfield.ok h hok).2⟩
  · rename_i fault after herror
    obtain ⟨hfault, hafter⟩ := hfield.error h herror
    refine ⟨fun stop hstop => ?_, fun token htoken => ?_, hafter.state.rollback _⟩
    · rw [← Option.mem_some.1 hstop]
      exact hfault
    · exact hafter.tokens token ((Reading.afterGroup_suffix _ _).subset htoken)

/-- No stop of any declaration is reported in more than one line. -/
theorem declarations (h : reading.HoldsLines) (budget : Nat) :
    ∀ stop ∈ (reading.declarations Builder.meaning budget).1, stop.fault.cause.TellsLine := by
  suffices hwithin : ∀ (bound : List Token) (reading : Reading Builder), reading.HoldsLines →
      ∀ stop ∈ (reading.declarationsWithin Builder.meaning budget [] bound).1,
        stop.fault.cause.TellsLine from hwithin reading.unread reading h
  intro bound
  induction bound with
  | nil => simp [Reading.declarationsWithin]
  | cons token bound ih =>
      intro reading h
      by_cases hnil : reading.unread = []
      · simp [Reading.declarationsWithin_of_unread Builder.meaning budget hnil]
      · rw [Reading.declarationsWithin_cons Builder.meaning budget hnil]
        intro stop hstop
        rcases List.mem_append.1 hstop with hstop | hstop
        · exact (h.declaration budget).1 stop (Option.mem_toList.1 hstop)
        · exact ih _ (h.declaration budget).2 stop hstop

end Reading.HoldsLines

/-! ### Diagnostics -/

theorem Diagnostic.isLine_display {diagnostic : Diagnostic}
    (hnear : ∀ text, diagnostic.near = .token text → IsLine text)
    (hmessage : IsLine diagnostic.message) : IsLine diagnostic.display := by
  have hphrase : IsLine diagnostic.near.phrase := by
    cases h : diagnostic.near with
    | token text => exact ((show IsLine " at '" by decide).append (hnear text h)).append (by decide)
    | endOfFile | nothing => decide
  have hplace : IsLine (diagnostic.place.line.toNat.repr ++ ":" ++
      diagnostic.place.column.toNat.repr) :=
    ((isLine_repr _).append (by decide)).append (isLine_repr _)
  exact (((hplace.append (by decide)).append hphrase).append (by decide)).append hmessage

/-- A declaration that stops is reported in one line. -/
theorem tellsLine_of_mem_declarationsOf {source : String} {stop : Stop Refusal}
    (h : stop ∈ (declarationsOf source).1) : stop.fault.cause.TellsLine := by
  have hstart : (Compile.start (Lexer.tokens source)).HoldsLines := by
    refine ⟨fun token htoken => ?_, .empty⟩
    exact isLine_of_mem_scan (Compile.mem_scan_of_mem_significant htoken)
  exact hstart.declarations (maxDepth + 1) stop h

theorem Compile.isLine_message {bytes : List UInt8} {fault : Fault Refusal} {diagnostic : Diagnostic}
    (h : Compile.diagnosticOf bytes fault = .ok diagnostic) (hcause : fault.cause.TellsLine) :
    IsLine diagnostic.message := by
  obtain ⟨cause, token⟩ := fault
  cases cause with
  | malformed error =>
      cases h
      exact hcause
  | refused refusal =>
      unfold Compile.diagnosticOf at h
      dsimp only at h
      split at h
      · cases h
        exact hcause
      · cases h
  | exhausted => cases h

/-- Every diagnostic of a source text is shown in one line. -/
theorem isLine_of_mem_diagnosticsOf {source : String} {diagnostic : Diagnostic}
    (h : diagnostic ∈ diagnosticsOf source) : IsLine diagnostic.display := by
  rcases exists_of_mem_diagnosticsOf h with ⟨token, htoken, -, rfl⟩ | ⟨stop, hstop, hfault⟩
  · have htext := isLine_of_mem_scan htoken
    refine Diagnostic.isLine_display (fun text hnear => by cases hnear) ?_
    exact ((show IsLine "unexpected character '" by decide).append htext).append (by decide)
  · refine Diagnostic.isLine_display (fun text hnear => ?_)
      (Compile.isLine_message hfault (tellsLine_of_mem_declarationsOf hstop))
    obtain ⟨-, token, htoken, -, rfl, -⟩ := (pointsInto_of_mem_diagnosticsOf h).text text hnear
    rw [tokens_eq] at htoken
    rcases List.mem_append.1 htoken with htoken | htoken
    · exact isLine_of_mem_scan htoken
    · rw [List.mem_singleton.1 htoken]
      exact show IsLine "" by decide

end ErDiagram
