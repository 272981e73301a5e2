import ErDiagram.Proofs.Following
import ErDiagram.Proofs.Loops

/-!
One pass does what compiling does. The parts of a declaration follow its readers one by one, so a pass
stops in the same declarations, and what it tells on the way is told in the order in which the findings
are put afterwards.
-/

namespace ErDiagram.Pass

open Builder (Stacks)

variable {source : String} {α β : Type}

/-! ### Loops of a pass -/

namespace Step

variable {pass : Pass}

theorem itemsWithin_of_end (h : pass.atBodyEnd = true) (item : Step Unit) (bound : Nat) :
    itemsWithin item bound pass = .ok () pass := by
  cases bound with
  | zero => rfl
  | succ bound =>
      rw [itemsWithin]
      change (if pass.atBodyEnd = true then _ else _ : Step Unit) pass = _
      rw [if_pos h]
      rfl

theorem itemsWithin_of_item (h : ¬pass.atBodyEnd = true) (item : Step Unit) (bound : Nat) :
    itemsWithin item (bound + 1) pass = (item >>= fun _ => itemsWithin item bound) pass := by
  rw [itemsWithin]
  change (if pass.atBodyEnd = true then _ else _ : Step Unit) pass = _
  rw [if_neg h]

theorem keyIds_of_end (h : pass.atBodyEnd = true) (ids : List Nat) (bound : Nat) :
    keyIds ids bound pass = .ok ids pass := by
  cases bound with
  | zero => rfl
  | succ bound =>
      rw [keyIds]
      change (if pass.atBodyEnd = true then _ else _ : Step (List Nat)) pass = _
      rw [if_pos h]
      rfl

theorem keyIds_of_name (h : ¬pass.atBodyEnd = true) (ids : List Nat) (bound : Nat) :
    keyIds ids (bound + 1) pass = (ownId >>= fun id => keyIds (ids ++ [id]) bound) pass := by
  rw [keyIds]
  change (if pass.atBodyEnd = true then _ else _ : Step (List Nat)) pass = _
  rw [if_neg h]

end Step

theorem mapM_concat {ε : Type} {find : α → Except ε β} {names : List α} {found : List β} {name : α}
    {id : β} (h : names.mapM find = .ok found) (hname : find name = .ok id) :
    (names ++ [name]).mapM find = .ok (found ++ [id]) := by
  rw [List.mapM_append, h, List.mapM_cons, hname]
  rfl

namespace Follows

variable (hbytes : byteLength source < 2 ^ 31) (holds : Builder → Prop)
include hbytes

/-! ### Details -/

theorem cardinality :
    Follows source (holds ·.state) Step.cardinality Reader.cardinality
      (Same fun _ reading => holds reading.state) := by
  apply (expect hbytes holds _ (by decide)).bind_same
  intro first
  apply assume
  intro hfirst
  by_cases hpair : ':' ∈ first.text.toList
  · rw [if_pos hpair, if_pos hpair]
    exact decoded holds hfirst _
  · rw [if_neg hpair, if_neg hpair]
    apply (decoded holds hfirst _).bind_same
    intro min
    apply (expect hbytes holds _ (by decide)).bind_same
    intro second
    apply assume
    intro hsecond
    apply (decoded holds hsecond _).bind_same
    intro max
    exact pure fun _ h => ⟨rfl, h⟩

theorem hierarchyType :
    Follows source (holds ·.state) Step.hierarchyType Reader.hierarchyType
      (Same fun _ reading => holds reading.state) := by
  apply (accept hbytes holds (by decide)).bind_same
  intro _
  apply (accept hbytes holds (by decide)).bind_same
  intro subset
  by_cases hsubset : subset = true
  · rw [if_pos hsubset, if_pos hsubset]
    exact pure fun _ h => ⟨rfl, h⟩
  · rw [if_neg hsubset, if_neg hsubset]
    apply (decode hbytes holds _ rfl).bind_same
    intro total
    apply (decode hbytes holds _ rfl).bind_same
    intro exclusive
    exact pure fun _ h => ⟨rfl, h⟩

theorem details (kind : Node.Kind) :
    Mirrors source (Step.details kind) (Reader.details Builder.meaning kind) := by
  unfold Step.details
  split
  · apply (hierarchyType hbytes fun _ => True).bind_same
    intro type
    exact edit (fun _ => True) fun _ _ => rfl
  · apply (accept hbytes (fun _ => True) (by decide)).bind_same
    intro announced
    by_cases hannounced : announced = true
    · rw [if_pos hannounced, if_pos hannounced]
      apply (cardinality hbytes fun _ => True).bind_same
      intro cardinality
      exact edit (fun _ => True) fun _ _ => rfl
    · rw [if_neg hannounced, if_neg hannounced]
      exact pure fun _ _ => trivial
  · rename_i hhierarchy hattribute
    rw [Reader.details_plain hhierarchy hattribute]
    exact pure fun _ _ => trivial


/-- Names of attributes that the construct has declared itself, and their ids. -/
theorem ownId :
    Follows source (holds ·.state) Step.ownId (Reader.keyName Builder.meaning)
      fun id name reading => holds reading.state ∧
        reading.state.findOwn .attribute name = .ok id := by
  apply (expect hbytes holds _ (by decide)).bind_same
  intro name
  apply assume
  intro hname
  rw [← bind_pure (Step.build _ _)]
  exact (lookUp holds (·.findOwn .attribute name.text) hname (Stacks.findOwn_ofBuilder · _ _)
    fun _ => rfl).bind fun _ _ => pure fun _ h => h

/-- Names in reach, and their ids. -/
theorem knownId (kind : Node.Kind) :
    Follows source (fun _ => True) (Step.knownId kind) (Reader.knownName Builder.meaning kind)
      fun id name reading => reading.state.findVisible kind name.text = .ok id := by
  apply (expect hbytes (fun _ => True) _ (by decide)).bind_same
  intro name
  apply assume
  intro hname
  rw [← bind_pure (Step.build _ _)]
  exact (lookUp (fun _ => True) (·.findVisible kind name.text) hname
    (Stacks.findVisible_ofBuilder · _ _) fun _ => rfl).bind fun _ _ => pure fun _ h => h.2

theorem mention (kind : Node.Kind) :
    Mirrors source (Step.mention kind) (Reader.mention Builder.meaning kind) := by
  apply (knownId hbytes kind).bind
  intro id name
  refine edit (·.findVisible kind name.text = .ok id) fun builder hfind => ?_
  simp only [Builder.act, hfind]
  rfl

theorem branch {keyword : Token} (hkeyword : Blames source keyword (some keyword)) :
    Mirrors source (Step.branch keyword) (Reader.branch Builder.meaning keyword) := by
  apply (knownId hbytes .entity).bind
  intro id name
  apply (expect hbytes (·.findVisible .entity name.text = .ok id) _ (by decide)).bind_same
  intro _
  apply assume
  intro _
  apply (cardinality hbytes (·.findVisible .entity name.text = .ok id)).bind_same
  intro cardinality
  refine (operate (·.findVisible .entity name.text = .ok id)
    (·.addLeaf .cardinality [id] (some cardinality)) hkeyword
    (Stacks.addLeaf_ofBuilder · _ _ _) fun builder hfind => ?_).last
  simp only [Builder.act, hfind]
  rfl

theorem construct {inside : Step Unit} {inside' : Reader Builder Refusal Unit}
    (hinside : Mirrors source (Step.items inside) (Reader.items inside')) (kind : Node.Kind) :
    Mirrors source (Step.construct inside kind) (Reader.construct Builder.meaning inside' kind) := by
  apply (expect hbytes (fun _ => True) _ (by decide)).bind_same
  intro name
  apply assume
  intro hname
  apply (operate (fun _ => True) (·.openNode kind name.text) hname
    (Stacks.openNode_ofBuilder · _ _) fun _ _ => rfl).bind
  intro _ _
  apply (details hbytes kind).bind
  intro _ _
  apply hinside.bind
  intro _ _
  have hnext : Follows source (fun _ => True) (Step.ask Pass.next) (Reader.ask Reading.next?)
      fun token token? _ => Blames source token token? := ask fun _ _ _ hshows _ => hshows.blames
  apply hnext.bind
  intro next next? base pass reading hshows hblames
  exact (operate (fun _ => True) (·.closeNode) hblames Stacks.closeNode_ofBuilder fun _ _ => rfl).last
    base pass reading hshows trivial

theorem attributeOf :
    Mirrors source Step.attributeOf (Reader.attributeOf Builder.meaning) := by
  apply (expect hbytes (fun _ => True) _ (by decide)).bind_same
  intro name
  apply assume
  intro hname
  apply (knownId hbytes .entity).bind
  intro id entity
  refine linkFound (·.findVisible .entity entity.text = .ok id) (·.findAttribute id name.text) hname
    (Stacks.findAttribute_ofBuilder · _ _) fun builder hfind => ?_
  simp only [Builder.act, hfind]
  rfl

/-! ### Loops -/

/-- The bounds of a loop of a pass and of the same loop of a reading are large enough for what is
left. -/
def Suffice (bound : Nat) (tokens : List Token) (reading : Reading Builder) : Prop :=
  reading.unread.length ≤ bound ∧ reading.unread.length ≤ tokens.length

omit hbytes in
theorem Suffice.further {bound : Nat} {token : Token} {tokens : List Token}
    {before after : Reading Builder} (h : Suffice (bound + 1) (token :: tokens) before)
    (hless : after.unread.length < before.unread.length) : Suffice bound tokens after :=
  ⟨Nat.le_of_lt_succ (Nat.lt_of_lt_of_le hless h.1), Nat.le_of_lt_succ (Nat.lt_of_lt_of_le hless h.2)⟩

omit hbytes in
theorem askBounds :
    Follows source (fun _ => True) (Step.ask Pass.bound) (Reader.ask Reading.unread) Suffice :=
  ask fun _ _ _ hshows _ => ⟨hshows.length_unread_le, Nat.le_refl _⟩

omit hbytes in
theorem itemsWithin {item : Step Unit} {item' : Reader Builder Refusal Unit}
    (hitem : Mirrors source item item') (hprogress : Progresses Token.Spelled item') (bound : Nat)
    (tokens : List Token) :
    Follows source (Suffice bound tokens) (Step.itemsWithin item bound)
      (Reader.itemsWithin item' tokens) fun _ _ _ => True := by
  induction bound generalizing tokens with
  | zero =>
      intro base pass reading hshows hbound
      have hend : reading.atBodyEnd = true := Reader.atBodyEnd_of_unread hbound.1
      rw [Reader.itemsWithin_of_end hend]
      exact .ok hshows trivial
  | succ bound ih =>
      intro base pass reading hshows hbound
      by_cases hend : reading.atBodyEnd = true
      · rw [Reader.itemsWithin_of_end hend, Step.itemsWithin_of_end (hshows.atBodyEnd_eq ▸ hend)]
        exact .ok hshows trivial
      · cases tokens with
        | nil => exact absurd (Reader.atBodyEnd_of_unread hbound.2) hend
        | cons token tokens =>
            have hfirst : Follows source (Suffice (bound + 1) (token :: tokens)) item item'
                fun _ _ after => True ∧ Suffice bound tokens after := by
              refine (hitem.weaken (fun _ _ => trivial) fun _ _ _ => id).and_of_reader ?_
              intro before after _ hspelled hbefore hread
              exact hbefore.further (hprogress before after () hspelled hread)
            rw [Reader.itemsWithin_of_item hend,
              Step.itemsWithin_of_item (hshows.atBodyEnd_eq ▸ hend)]
            exact (hfirst.bind fun _ _ => assume fun _ => ih tokens) base pass reading hshows hbound

omit hbytes in
theorem items {item : Step Unit} {item' : Reader Builder Refusal Unit}
    (hitem : Mirrors source item item') (hprogress : Progresses Token.Spelled item') :
    Mirrors source (Step.items item) (Reader.items item') :=
  askBounds.bind fun bound tokens => itemsWithin hitem hprogress bound tokens

omit hbytes in
/-- What follows the word that begins a primary key is read if there is none yet. -/
theorem unlessKey {keyword : Token} {rest : Step α} {rest' : Reader Builder Refusal β}
    {post : α → β → Reading Builder → Prop} (hkeyword : Blames source keyword (some keyword))
    (h : Follows source (fun _ => True) rest rest' post) :
    Follows source (fun _ => True)
      (do
        if ← Step.build (Stacks.hasLinkTo .primaryKey) keyword then
          Step.blame keyword .duplicateDefinition Refusal.secondKey.message
        else
          rest)
      (do
        Reader.report Builder.meaning .lacksKey (some keyword)
        rest') post := by
  intro base pass reading hshows _
  have hact : Builder.meaning.act .lacksKey reading.state =
      if reading.state.hasLinkTo .primaryKey then .error .secondKey else .ok reading.state := rfl
  have hbuild : Step.build (Stacks.hasLinkTo .primaryKey) keyword pass =
      .ok (reading.state.hasLinkTo .primaryKey)
        { pass with built := Stacks.ofBuilder reading.state } := by
    unfold Step.build
    rw [hshows.built_eq, Stacks.hasLinkTo_ofBuilder]
  change Ends source base _ (EStateM.bind _ _ pass) (EStateM.bind _ _ reading)
  unfold EStateM.bind Reader.report
  rw [hbuild, hact]
  by_cases hkey : reading.state.hasLinkTo .primaryKey = true
  · rw [hkey]
    exact (hshows.rebuilt _).blame hkeyword fun _ => rfl
  · rw [if_neg hkey]
    dsimp only
    rw [if_neg hkey]
    exact h base _ _ (hshows.rebuilt _) trivial

theorem keyIds (bound : Nat) (ids : List Nat) (names : List String) (tokens : List Token) :
    Follows source
      (fun reading => Suffice bound tokens reading ∧
        names.reverse.mapM (reading.state.findOwn .attribute) = .ok ids)
      (Step.keyIds ids bound) (Reader.keyNames Builder.meaning names tokens)
      fun ids names reading => names.mapM (reading.state.findOwn .attribute) = .ok ids := by
  induction bound generalizing ids names tokens with
  | zero =>
      intro base pass reading hshows hpre
      have hend : reading.atBodyEnd = true := Reader.atBodyEnd_of_unread hpre.1.1
      rw [Reader.keyNames_of_end hend]
      exact .ok hshows hpre.2
  | succ bound ih =>
      intro base pass reading hshows hpre
      by_cases hend : reading.atBodyEnd = true
      · rw [Reader.keyNames_of_end hend, Step.keyIds_of_end (hshows.atBodyEnd_eq ▸ hend)]
        exact .ok hshows hpre.2
      · cases tokens with
        | nil => exact absurd (Reader.atBodyEnd_of_unread hpre.1.2) hend
        | cons token tokens =>
            have hfirst : Follows source
                (fun before => Suffice (bound + 1) (token :: tokens) before ∧
                  names.reverse.mapM (before.state.findOwn .attribute) = .ok ids)
                Step.ownId (Reader.keyName Builder.meaning)
                fun id name after =>
                  (names.reverse.mapM (after.state.findOwn .attribute) = .ok ids ∧
                    after.state.findOwn .attribute name = .ok id) ∧ Suffice bound tokens after := by
              refine ((ownId hbytes fun builder =>
                names.reverse.mapM (builder.findOwn .attribute) = .ok ids).weaken
                  (fun _ h => h.2) fun _ _ _ h => h).and_of_reader ?_
              intro before after _ _ hbefore hread
              exact hbefore.1.further (Reader.length_keyName Builder.meaning hread)
            have hrest : ∀ id name, Follows source
                (fun after => (names.reverse.mapM (after.state.findOwn .attribute) = .ok ids ∧
                  after.state.findOwn .attribute name = .ok id) ∧ Suffice bound tokens after)
                (Step.keyIds (ids ++ [id]) bound)
                (Reader.keyNames Builder.meaning (name :: names) tokens)
                fun ids names after => names.mapM (after.state.findOwn .attribute) = .ok ids := by
              intro id name
              refine (ih (ids ++ [id]) (name :: names) tokens).weaken (fun after h => ⟨h.2, ?_⟩)
                fun _ _ _ h => h
              rw [List.reverse_cons]
              exact mapM_concat h.1.1 h.1.2
            rw [@Reader.keyNames_of_pass _ _ _ (names, reading) hend,
              Step.keyIds_of_name (hshows.atBodyEnd_eq ▸ hend)]
            exact (hfirst.bind hrest) base pass reading hshows hpre

theorem primaryKey {keyword : Token} (hkeyword : Blames source keyword (some keyword)) :
    Mirrors source (Step.primaryKey keyword) (Reader.primaryKey Builder.meaning keyword) := by
  apply unlessKey hkeyword
  apply askBounds.bind
  intro bound tokens
  apply ((keyIds hbytes bound [] [] tokens).weaken (fun _ h => ⟨h, rfl⟩) fun _ _ _ => id).bind
  intro ids names
  refine (operate (fun builder => names.mapM (builder.findOwn .attribute) = .ok ids)
    (·.addLeaf .primaryKey ids none) hkeyword (Stacks.addLeaf_ofBuilder · _ _ _)
    fun builder hfind => ?_).last
  simp only [Builder.act, hfind]
  rfl

/-! ### Fields -/

theorem fieldBody {inside : Node.Kind → Step Unit}
    {inside' : Node.Kind → Reader Builder Refusal Unit}
    (hinside : ∀ owner, Mirrors source (Step.items (inside owner)) (Reader.items (inside' owner)))
    {keyword : Token} (hkeyword : Blames source keyword (some keyword)) (field : Field) :
    Mirrors source (Step.fieldBody inside keyword field)
      (Reader.fieldBody Builder.meaning inside' keyword field) := by
  cases field with
  | construct kind => exact construct hbytes (hinside kind) kind
  | primaryKey => exact primaryKey hbytes hkeyword
  | branch => exact branch hbytes hkeyword
  | attributeOf => exact attributeOf hbytes
  | mention kind => exact mention hbytes kind

/-- A field of a pass follows the reader of a field. -/
theorem field (budget : Nat) (owner : Node.Kind) :
    Mirrors source (Step.field budget owner) (Reader.field Builder.meaning budget owner) := by
  induction budget generalizing owner with
  | zero => exact fun _ _ _ hshows _ => @Ends.error _ _ _ _ _ ⟨.exhausted, none⟩ _ _ hshows
  | succ budget ih =>
      have hinside : ∀ owner, Mirrors source (Step.items (Step.field budget owner))
          (Reader.items (Reader.field Builder.meaning budget owner)) := fun owner =>
        items (ih owner) (Confined.field Builder.meaning (fun _ => id) budget owner).2
      apply (expect hbytes (fun _ => True) _ (by decide)).bind_same
      intro paren
      apply assume
      intro hparen
      have hdepth : Follows source (fun _ => True) (Step.ask Pass.depth) (Reader.ask Reading.depth)
          fun word depth _ => word.toInt = depth ∧ True :=
        ask fun _ _ _ hshows _ => ⟨hshows.depth_eq, trivial⟩
      apply hdepth.bind
      intro word depth
      apply assume
      intro hword
      have hiff : Int32.ofNat maxDepth < word ↔ maxDepth < depth := by
        rw [Int32.lt_iff_toInt_lt, hword]
        rfl
      by_cases hdeep : (maxDepth : Int) < depth
      · rw [if_pos (hiff.2 hdeep), if_pos hdeep]
        exact fun _ _ _ hshows _ => hshows.malformed hparen
      · rw [if_neg (mt hiff.1 hdeep), if_neg hdeep]
        apply (fieldKeyword hbytes (fun _ => True) owner).bind_same
        intro found
        apply assume
        intro hfound
        apply (fieldBody hbytes hinside hfound found.2).bind
        intro _ _
        exact (expect hbytes (fun _ => True) _ (by decide)).bind fun _ _ => pure fun _ _ => trivial

end Follows

/-! ### What is told on the way -/

theorem map_lexicalFindings (source : String) (tokens : List Token) :
    (Compile.lexicalFindings (utf8Bytes source.toList) tokens).map (·.diagnostic) =
      complaintsIn source tokens := by
  rw [Compile.lexicalFindings, complaintsIn, List.map_map]
  exact List.map_congr_left fun token htoken =>
    (invalidComplaint_eq (of_decide_eq_true (List.mem_filter.1 htoken).2) source).symm

namespace Placed

variable {pass : Pass} (h : pass.Placed source)
include h

/-- The tokens before it start before the token that comes next. -/
theorem offset_lt_next {front : List Token} (hfront : front ++ pass.ahead <:+ scan 0 source.toList) :
    ∀ token ∈ front, token.offset < pass.next.offset := by
  intro token htoken
  by_cases hend : pass.next.kind = .endOfInput
  · have hlt := (mem_scan (hfront.subset (List.mem_append_left _ htoken))).2.2.2
    rw [h.ended hend]
    dsimp only [byteLength]
    omega
  · have hpairwise := (pairwise_scan 0 source.toList).sublist hfront.sublist
    exact (List.pairwise_append.1 hpairwise).2.2 token htoken pass.next
      (ahead_eq hend ▸ List.mem_cons_self)

theorem offset_le_of_mem_ahead : ∀ token ∈ pass.ahead, pass.next.offset ≤ token.offset := by
  intro token htoken
  by_cases hend : pass.next.kind = .endOfInput
  · rw [ahead_eq_nil hend] at htoken
    cases htoken
  · rw [ahead_eq hend] at htoken
    rcases List.mem_cons.1 htoken with rfl | htoken
    · exact Nat.le_refl _
    · exact Nat.le_of_lt ((h.offset_lt hend).2 token htoken)

/-- The token that comes next parts what has been told from what has not. -/
theorem parts {front : List Token} (hfront : front ++ pass.ahead <:+ scan 0 source.toList)
    (bytes : List UInt8) :
    (Compile.lexicalFindings bytes (front ++ pass.ahead)).takeWhile
        (·.reached < pass.next.offset) = Compile.lexicalFindings bytes front ∧
      (Compile.lexicalFindings bytes (front ++ pass.ahead)).dropWhile
        (·.reached < pass.next.offset) = Compile.lexicalFindings bytes pass.ahead := by
  have htold : ∀ finding ∈ Compile.lexicalFindings bytes front,
      decide (finding.reached < pass.next.offset) = true := by
    intro finding hfinding
    obtain ⟨token, htoken, rfl⟩ := List.mem_map.1 hfinding
    exact decide_eq_true (h.offset_lt_next hfront token (List.mem_filter.1 htoken).1)
  have huntold : ∀ finding ∈ Compile.lexicalFindings bytes pass.ahead,
      pass.next.offset ≤ finding.reached := by
    intro finding hfinding
    obtain ⟨token, htoken, rfl⟩ := List.mem_map.1 hfinding
    exact h.offset_le_of_mem_ahead token (List.mem_filter.1 htoken).1
  rw [Compile.lexicalFindings_append, List.takeWhile_append_of_pos htold,
    List.dropWhile_append_of_pos htold]
  cases hahead : Compile.lexicalFindings bytes pass.ahead with
  | nil => simp
  | cons finding rest =>
      have hle := huntold finding (hahead ▸ List.mem_cons_self)
      rw [List.takeWhile_cons_of_neg (by simpa using hle),
        List.dropWhile_cons_of_neg (by simpa using hle)]
      exact ⟨List.append_nil _, rfl⟩

end Placed

/-- What is found when declarations are read from some place on. -/
def foundFrom (source : String) (pass : Pass) (faults : List Finding) : List Diagnostic :=
  (Compile.mergeFindings (Compile.lexicalFindings (utf8Bytes source.toList) pass.ahead) faults).map
    (·.diagnostic)

/-- What a pass comes to when it reads declarations: it has told the findings, and the stacks are those
of a builder; or the compiler is at fault. -/
inductive Comes (source : String) (pass : Pass) (state : Builder) :
    Except String Pass → Except String (List Finding) → Prop where
  | ok {after : Pass} {faults : List Finding} (hbuilt : after.built = Stacks.ofBuilder state)
    (htold : after.told = pass.told ++ foundFrom source pass faults)
    (hlater : ∀ fault ∈ faults, pass.next.offset ≤ fault.reached) :
    Comes source pass state (.ok after) (.ok faults)
  | error (cause : String) : Comes source pass state (.error cause) (.error cause)

section

variable {base pass : Pass} {reading : Reading Builder}

/-- What has been told by then does not matter from a place on. -/
theorem Shows.rebase (h : Shows source base pass reading) (told : List Diagnostic) :
    Shows source { pass with told } { pass with told } reading where
  placed := ⟨h.placed.source_eq, h.placed.endToken_eq, h.placed.valid, h.placed.ended, h.placed.ahead⟩
  passed := ⟨[], rfl, (List.append_nil _).symm⟩
  unread_eq := h.unread_eq
  depth_eq := h.depth_eq
  depth_le := h.depth_le
  built_eq := h.built_eq

theorem Shows.offsetOf_next? (h : Shows source base pass reading) :
    Compile.offsetOf (utf8Bytes source.toList) reading.next? = pass.next.offset := by
  rw [h.next?_eq, next?]
  by_cases hend : pass.next.kind = .endOfInput
  · rw [if_pos hend, h.placed.ended hend]
    rfl
  · rw [if_neg hend]
    rfl

variable (hbase : base.Placed source) (h : Shows source base pass reading)
include hbase h

theorem Shows.offset_le : base.next.offset ≤ pass.next.offset := by
  obtain ⟨skipped, hskipped, -⟩ := h.passed
  by_cases hend : pass.next.kind = .endOfInput
  · rw [h.placed.ended hend]
    exact hbase.offset_le
  · refine hbase.offset_le_of_mem_ahead pass.next ?_
    rw [hskipped, ahead_eq hend]
    exact List.mem_append_right _ List.mem_cons_self

/-- What has been told on the way to a place comes before what is found from there on. -/
theorem Shows.foundFrom_eq {faults : List Finding}
    (hlater : ∀ fault ∈ faults, pass.next.offset ≤ fault.reached) :
    base.told ++ foundFrom source base faults = pass.told ++ foundFrom source pass faults := by
  obtain ⟨skipped, hskipped, htold⟩ := h.passed
  obtain ⟨htake, hdrop⟩ := h.placed.parts (hskipped ▸ hbase.ahead) (utf8Bytes source.toList)
  rw [foundFrom, hskipped, Compile.mergeFindings_of_le hlater, htake, hdrop, List.map_append,
    map_lexicalFindings, htold, List.append_assoc]
  rfl

/-- A fault at a place is told behind what has been told on the way there. -/
theorem Shows.foundFrom_cons {fault : Finding} (hfault : fault.reached = pass.next.offset)
    (faults : List Finding) :
    base.told ++ foundFrom source base (fault :: faults) =
      pass.told ++ fault.diagnostic :: foundFrom source pass faults := by
  obtain ⟨skipped, hskipped, htold⟩ := h.passed
  obtain ⟨htake, hdrop⟩ := h.placed.parts (hskipped ▸ hbase.ahead) (utf8Bytes source.toList)
  rw [foundFrom, hskipped, Compile.mergeFindings, hfault, htake, hdrop, List.map_append,
    map_lexicalFindings, htold, List.append_assoc]
  rfl

/-- What a pass comes to from a later place on it comes to. -/
theorem Comes.behind {state : Builder} {result : Except String Pass}
    {found : Except String (List Finding)} (hcomes : Comes source pass state result found) :
    Comes source base state result found := by
  cases hcomes with
  | ok hbuilt htold hlater =>
      refine .ok hbuilt ?_ fun fault hfault => Nat.le_trans (h.offset_le hbase) (hlater fault hfault)
      rw [htold, h.foundFrom_eq hbase hlater]
  | error cause => exact .error cause

/-- A fault is told, and then what a pass comes to from there on. -/
theorem Comes.stopped {state : Builder} {built : Stacks} {diagnostic : Diagnostic}
    {result : Except String Pass} {found : Except String (List Finding)}
    (hcomes : Comes source { pass with built, told := pass.told ++ [diagnostic] } state result
      found) :
    Comes source base state result
      (found >>= fun faults => pure (⟨pass.next.offset, diagnostic⟩ :: faults)) := by
  cases hcomes with
  | ok hbuilt htold hlater =>
      refine .ok hbuilt ?_ ?_
      · rw [htold, h.foundFrom_cons hbase rfl, List.append_assoc]
        rfl
      · refine List.forall_mem_cons.2 ⟨h.offset_le hbase, fun fault hfault => ?_⟩
        exact Nat.le_trans (h.offset_le hbase) (hlater fault hfault)
  | error cause => exact .error cause

end

/-- At the end of input there is nothing to find. -/
theorem comes_at_end {pass : Pass} {reading : Reading Builder}
    (h : Shows source pass pass reading) (hend : pass.next.kind = .endOfInput) (budget : Nat) :
    Comes source pass (reading.declarations Builder.meaning budget).2.state (.ok pass)
      ((reading.declarations Builder.meaning budget).1.mapM
        (Compile.faultFinding (utf8Bytes source.toList))) := by
  have hnil := h.unread_eq_nil hend
  rw [Reading.declarations, Reading.declarationsWithin_of_unread Builder.meaning budget hnil]
  refine .ok h.built_eq ?_ (by simp)
  rw [foundFrom, ahead_eq_nil hend]
  exact (List.append_nil _).symm

/-- Declarations are read alike, and the findings are told in their order. -/
theorem comes_declarationsWithin (hbytes : byteLength source < 2 ^ 31) (budget : Nat) {pass : Pass}
    {reading : Reading Builder} (h : Shows source pass pass reading) {bound : Nat}
    (hbound : reading.unread.length ≤ bound) :
    Comes source pass (reading.declarations Builder.meaning budget).2.state
      (declarationsWithin budget bound pass)
      ((reading.declarations Builder.meaning budget).1.mapM
        (Compile.faultFinding (utf8Bytes source.toList))) := by
  induction bound generalizing pass reading with
  | zero =>
      by_cases hend : pass.next.kind = .endOfInput
      · exact comes_at_end h hend budget
      · rw [h.unread_of_ne hend] at hbound
        exact absurd hbound (Nat.not_succ_le_zero _)
  | succ bound ih =>
      by_cases hend : pass.next.kind = .endOfInput
      · rw [declarationsWithin, if_pos hend]
        exact comes_at_end h hend budget
      · have hunread : reading.unread ≠ [] := h.unread_of_ne hend ▸ List.cons_ne_nil _ _
        obtain ⟨-, hless, -⟩ :=
          Reading.declaration_spec Builder.meaning (fun _ => id) budget h.spelled hunread
        rw [Reading.declarations_step Builder.meaning budget h.spelled hunread, declarationsWithin,
          if_neg hend]
        have hless' := Nat.le_of_lt_succ (Nat.lt_of_lt_of_le hless hbound)
        unfold Reading.declaration at hless' ⊢
        have hfield := Follows.field hbytes budget .start pass pass reading h trivial
        generalize Step.field budget .start pass = result,
          Reader.field Builder.meaning budget .start reading = result' at hfield hless' ⊢
        cases hfield with
        | ok hshows _ => exact (ih (hshows.rebase _) hless').behind h.placed hshows
        | @error fault after after' hshows =>
            dsimp only [Option.toList_some] at hless' ⊢
            rw [List.singleton_append, List.mapM_cons, Compile.faultFinding, hshows.offsetOf_next?,
              faultShown]
            cases Compile.diagnosticOf (utf8Bytes source.toList) fault with
            | error cause => exact .error cause
            | ok diagnostic =>
                have hrolled : Stacks.rollback pass.built.checkpoint after.built =
                    .ok () (Stacks.ofBuilder (after'.state.rollback reading.state.checkpoint)) := by
                  rw [h.built_eq, hshows.built_eq, Stacks.checkpoint_ofBuilder,
                    Stacks.rollback_ofBuilder]
                dsimp only
                rw [hrolled]
                have hstopped :=
                  (hshows.rebuilt (after'.state.rollback reading.state.checkpoint)).rebase
                    (after.told ++ [diagnostic])
                have hleft := hstopped.leaveGroup hbytes
                exact Comes.stopped h.placed hshows
                  ((ih (hleft.rebase _) hless').behind hstopped.placed hleft)

/-- One pass does what compiling does, as long as a 32-bit word can count the bytes of the source. -/
theorem compile_eq {source : String} (hbytes : byteLength source < 2 ^ 31) :
    Pass.compile source = ErDiagram.compile source := by
  obtain ⟨hplaced, invalid, -, hscan, htold⟩ := placed_start source
  have hstart := shows_start source
  have hcomes := comes_declarationsWithin hbytes (maxDepth + 1) hstart hstart.length_unread_le
  unfold Pass.compile ErDiagram.compile compileWithin
  dsimp only
  generalize (Compile.start (Lexer.tokens source)).declarations Builder.meaning (maxDepth + 1) =
    declared at hcomes ⊢
  obtain ⟨stops, reading⟩ := declared
  dsimp only at hcomes ⊢
  generalize declarationsWithin (maxDepth + 1) (start source).bound (start source) = result,
    stops.mapM (Compile.faultFinding (utf8Bytes source.toList)) = found at hcomes ⊢
  cases hcomes with
  | error cause => rfl
  | @ok after faults hbuilt htold' hlater =>
      have htold'' : after.told = (Compile.mergeFindings
          (Compile.lexicalFindings (utf8Bytes source.toList) (Lexer.tokens source)) faults).map
            (·.diagnostic) := by
        have hsuffix : invalid ++ (start source).ahead <:+ scan 0 source.toList :=
          hscan ▸ List.suffix_refl (scan 0 source.toList)
        obtain ⟨htake, hdrop⟩ := hplaced.parts hsuffix (utf8Bytes source.toList)
        rw [Compile.lexicalFindings_tokens_eq, hscan, Compile.mergeFindings_of_le hlater, htake,
          hdrop, List.map_append, map_lexicalFindings, htold', htold]
        rfl
      dsimp only
      rw [htold'', hbuilt, Stacks.finish_ofBuilder]
      cases Compile.mergeFindings
          (Compile.lexicalFindings (utf8Bytes source.toList) (Lexer.tokens source)) faults with
      | nil => cases reading.state.finish <;> rfl
      | cons finding findings => rfl

end ErDiagram.Pass
