import ErDiagram.Proofs.Histories

/-!
Three ways to resolve a name, one meaning. While a node is open, what it declares is found in its
scope; once it is closed the scope is gone, and what it declares is found among its links. Both give
what was opened inside it under the name, for as long as the node is there.
-/

namespace ErDiagram.Builder

variable {births : List Birth} {builder : Builder}

theorem toOption_findOwn (builder : Builder) (kind : Node.Kind) (name : String) :
    (builder.findOwn kind name).toOption = builder.top.scope.get? kind name := by
  unfold findOwn
  cases builder.top.scope.get? kind name <;> rfl

theorem toOption_findVisible (builder : Builder) (kind : Node.Kind) (name : String) :
    (builder.findVisible kind name).toOption =
      builder.frames.findSome? (·.scope.get? kind name) := by
  unfold findVisible
  cases builder.frames.findSome? (·.scope.get? kind name) <;> rfl

theorem toOption_findAttribute {owner : Nat} {node : Node} (h : builder.graph.get? owner = some node)
    (name : String) :
    (builder.findAttribute owner name).toOption =
      ((node.links.filterMap builder.graph.get?).find? fun child =>
        child.kind = .attribute && child.name = name).map (·.id) := by
  unfold findAttribute Graph.linkedNodes
  rw [h]
  dsimp only
  cases (node.links.filterMap builder.graph.get?).find? fun child =>
    child.kind = .attribute && child.name = name <;> rfl

/-! ### Open nodes -/

/-- A scope binds a name to what was opened under it. -/
theorem Mirrored.get?_iff (h : Mirrored births builder) {frame : Frame}
    (hframe : frame ∈ builder.frames) {kind : Node.Kind} {name : String} {id : Nat} :
    frame.scope.get? kind name = some id ↔ frame.node.OpenedIn births kind name id := by
  rw [Scope.get?_eq_some (h.mirrors frame hframe).distinct]
  exact (h.mirrors frame hframe).binds kind name id

theorem Mirrored.get?_eq_none (h : Mirrored births builder) {frame : Frame}
    (hframe : frame ∈ builder.frames) {kind : Node.Kind} {name : String} :
    frame.scope.get? kind name = none ↔ ∀ id, ¬frame.node.OpenedIn births kind name id := by
  rw [Option.eq_none_iff_forall_ne_some]
  exact forall_congr' fun id => not_congr (h.get?_iff hframe)

/-- All that the innermost node links to is closed. -/
theorem Mirrored.exists_child (h : Mirrored births builder) {id : Nat}
    (hid : id ∈ builder.current.links) : ∃ child, builder.graph.get? id = some child := by
  have htop := Mirrored.top_mem builder
  have hlater := ((h.mirrors _ htop).linked id hid).1
  have hclosed : id ∈ builder.graph.ids := by
    rcases List.mem_append.1 (h.housed _ htop id hid) with hgraph | hopen
    · exact hgraph
    · have hnested := h.nested
      rw [openIds, frames_eq, List.map_cons] at hnested hopen
      rcases List.mem_cons.1 hopen with rfl | hopen
      · exact absurd hlater (Nat.lt_irrefl _)
      · exact absurd ((List.pairwise_cons.1 hnested).1 id hopen) (Nat.lt_asymm hlater)
  obtain ⟨child, hchild, rfl⟩ := List.mem_map.1 hclosed
  exact ⟨child, Graph.get?_eq_some hchild⟩

theorem id_of_newestBirth? {birth : Birth} {id : Nat} (h : newestBirth? births id = some birth) :
    birth.id = id := by
  simpa using List.find?_some h

/-- Whether a linked node was opened as an attribute of a name can be seen from the node. -/
theorem Mirrored.openedIn_iff (h : Mirrored births builder) {frame : Frame}
    (hframe : frame ∈ builder.frames) {id : Nat} (hid : id ∈ frame.node.links) {child : Node}
    (hchild : builder.graph.get? id = some child) {name : String} :
    frame.node.OpenedIn births .attribute name id ↔
      child.kind = .attribute ∧ child.name = name := by
  obtain ⟨hmem, rfl⟩ := Graph.mem_nodes_of_get? hchild
  obtain ⟨birth, hbirth, hborn⟩ := h.closed child hmem
  obtain ⟨-, other, hother, hparent⟩ := (h.mirrors frame hframe).linked child.id hid
  obtain rfl : birth = other := Option.some.inj (hbirth.symm.trans hother)
  have hbirthId := id_of_newestBirth? hbirth
  obtain ⟨birthId, parent, opened⟩ := birth
  obtain rfl : birthId = child.id := hbirthId
  obtain rfl : parent = frame.node.id := hparent
  constructor
  · rintro ⟨-, hopened⟩
    cases hbirth.symm.trans hopened
    rcases hborn with hborn | ⟨hleaf, -⟩
    · obtain ⟨hkind, hname⟩ := Prod.mk.inj (Option.some.inj hborn)
      exact ⟨hkind.symm, hname.symm⟩
    · cases hleaf
  · rintro ⟨hkind, rfl⟩
    rcases hborn with hborn | ⟨-, hleaf⟩
    · obtain rfl : opened = some (child.kind, child.name) := hborn
      rw [hkind] at hbirth
      exact ⟨hid, hbirth⟩
    · rw [hkind] at hleaf
      cases hleaf

/-! ### Closed nodes -/

namespace History

variable {history next : History}

/-- A later history, up to which the node with an id has been in the graph all the time. -/
def Survives (owner : Nat) : History → History → Prop :=
  Relation.ReflTransGen fun history next =>
    history.Step next ∧ next.builder.graph.contains owner = true

/-- Closed nodes stay as they are until they are dropped by going back. -/
theorem Kept.get?_step (h : history.Kept) (hstep : history.Step next) {id : Nat} {node : Node}
    (hnode : history.builder.graph.get? id = some node) :
    next.builder.graph.get? id = some node ∨ ∃ checkpoint ∈ history.kept,
      checkpoint.nextId ≤ id ∧ next.builder = history.builder.rollback checkpoint := by
  have hinsert : ∀ other : Node, other.id ∉ history.builder.graph.ids →
      (history.builder.graph.insert other).get? id = some node := by
    intro other hfresh
    have hne : other.id ≠ id := by
      rintro rfl
      rw [Graph.get?_eq_none hfresh] at hnode
      cases hnode
    rw [Graph.get?_insert, if_neg hne]
    exact hnode
  cases hstep with
  | opens kind name hopen =>
      obtain ⟨-, -, rfl⟩ := openNode_ok.1 hopen
      exact Or.inl ((congrArg (Graph.get? · id) (graph_modifyTop history.builder _)).trans hnode)
  | closes hclose =>
      obtain ⟨frame, outer, hinner, -, rfl⟩ := closeNode_ok.1 hclose
      have hfresh := (h.mirrored.identified.pop hinner).2.1
      exact Or.inl (hinsert frame.node (mt (List.mem_append_left _) hfresh))
  | grows kind links cardinality hleaf =>
      obtain ⟨leaf, hid, -, rfl, rfl⟩ := exists_leaf_of_addLeaf hleaf
      have hfresh : leaf.id ∉ history.builder.allIds := hid ▸ h.mirrored.identified.fresh
      exact Or.inl (hinsert leaf (mt (List.mem_append_left _) hfresh))
  | keeps => exact Or.inl hnode
  | @returns newer checkpoint older hkept =>
      by_cases hlt : id < checkpoint.nextId
      · exact Or.inl (Graph.get?_before.trans ((if_pos hlt).trans hnode))
      · have hmem : checkpoint ∈ history.kept := by
          rw [hkept]
          exact List.mem_append_right _ List.mem_cons_self
        exact Or.inr ⟨checkpoint, hmem, Nat.not_lt.1 hlt, rfl⟩

theorem mem_kept_step (hstep : history.Step next) {checkpoint : Checkpoint}
    (h : checkpoint ∈ next.kept) :
    checkpoint ∈ history.kept ∨ checkpoint = history.builder.checkpoint := by
  cases hstep with
  | opens | closes | grows => exact Or.inl h
  | keeps => exact (List.mem_cons.1 h).symm
  | returns newer hkept =>
      rw [hkept]
      exact Or.inl (List.mem_append_right _ h)

/-- A closed node rests: it is there with all that it linked to when it was closed, and no checkpoint
lies between them. -/
structure Rests (graph : Graph) (owner : Nat) (node : Node) (history : History) : Prop where
  kept : history.Kept
  closed : history.builder.graph.get? owner = some node
  children : ∀ id ∈ node.links, ∃ child, graph.get? id = some child ∧
    history.builder.graph.get? id = some child
  checkpoints : ∀ checkpoint ∈ history.kept, owner < checkpoint.nextId →
    ∀ id ∈ node.links, id < checkpoint.nextId

theorem Rests.step {graph : Graph} {owner : Nat} {node : Node} (h : Rests graph owner node history)
    (hstep : history.Step next) (hcontains : next.builder.graph.contains owner = true) :
    Rests graph owner node next := by
  have hbelow : ∀ checkpoint : Checkpoint,
      next.builder = history.builder.rollback checkpoint → owner < checkpoint.nextId := by
    intro checkpoint hnext
    by_contra hle
    rw [Graph.contains, hnext] at hcontains
    rw [show (history.builder.rollback checkpoint).graph.get? owner = none from
      Graph.get?_before.trans (if_neg hle)] at hcontains
    cases hcontains
  refine ⟨h.kept.step hstep, ?_, fun id hid => ?_, fun checkpoint hmem hlt id hid => ?_⟩
  · rcases h.kept.get?_step hstep h.closed with hnext | ⟨checkpoint, -, hle, hnext⟩
    · exact hnext
    · exact absurd (hbelow checkpoint hnext) (Nat.not_lt.2 hle)
  · obtain ⟨child, hgraph, hchild⟩ := h.children id hid
    rcases h.kept.get?_step hstep hchild with hnext | ⟨checkpoint, hmem, hle, hnext⟩
    · exact ⟨child, hgraph, hnext⟩
    · have hlt := h.checkpoints checkpoint hmem (hbelow checkpoint hnext) id hid
      exact absurd hlt (Nat.not_lt.2 hle)
  · rcases mem_kept_step hstep hmem with hmem | rfl
    · exact h.checkpoints checkpoint hmem hlt id hid
    · obtain ⟨child, -, hchild⟩ := h.children id hid
      obtain ⟨hnode, rfl⟩ := Graph.mem_nodes_of_get? hchild
      exact h.kept.mirrored.identified.below _
        (List.mem_append_left _ (List.mem_map_of_mem hnode))

/-- A node rests from its closing on. -/
theorem Kept.rests (h : history.Kept) {owner : Nat} {after : Builder}
    (hclose : history.builder.closeNode = .ok (owner, after)) :
    Rests history.builder.graph owner history.builder.current
      ⟨history.births, history.kept, after⟩ := by
  obtain ⟨frame, outer, hinner, rfl, rfl⟩ := closeNode_ok.1 hclose
  have hcurrent : history.builder.current = frame.node := by
    rw [current, top, hinner]
    rfl
  refine ⟨h.step (.closes hclose), ?_, fun id hid => ?_, fun checkpoint hmem hlt => ?_⟩
  · rw [hcurrent, Graph.get?_insert, if_pos rfl]
  · obtain ⟨child, hchild⟩ := h.mirrored.exists_child hid
    refine ⟨child, hchild, ?_⟩
    have hlater := ((h.mirrored.mirrors _ (Mirrored.top_mem _)).linked id hid).1
    rw [show history.builder.top.node = frame.node from hcurrent] at hlater
    rw [Graph.get?_insert, if_neg (Nat.ne_of_lt hlater)]
    exact hchild
  · obtain ⟨newer, older, hkept⟩ := List.append_of_mem hmem
    have hbacked := h.backed
    rw [hkept] at hbacked
    obtain ⟨before, rfl, hsince, -⟩ := hbacked.exists_before
    have hle := hsince.frames frame (hinner ▸ List.mem_cons_self)
    exact absurd hlt (Nat.not_lt.2 hle)

theorem Rests.survives {graph : Graph} {owner : Nat} {node : Node}
    (h : Rests graph owner node history) (hlater : Survives owner history next) :
    Rests graph owner node next := by
  induction hlater with
  | refl => exact h
  | tail _ hstep ih => exact ih.step hstep.1 hstep.2

/-- The links of a closed node give what its scope gave while it was open. -/
theorem Kept.findAttribute_eq (h : history.Kept) {owner : Nat} {after : Builder}
    (hclose : history.builder.closeNode = .ok (owner, after)) {later : History}
    (hlater : Survives owner ⟨history.births, history.kept, after⟩ later) (name : String) :
    (later.builder.findAttribute owner name).toOption =
      (history.builder.findOwn .attribute name).toOption := by
  have hrests := (h.rests hclose).survives hlater
  have htop := Mirrored.top_mem history.builder
  have hopened : ∀ child : Node, child.id ∈ history.builder.current.links →
      later.builder.graph.get? child.id = some child →
        (history.builder.top.node.OpenedIn history.births .attribute name child.id ↔
          child.kind = .attribute ∧ child.name = name) := by
    intro child hid hlaterChild
    obtain ⟨other, hgraph, hother⟩ := hrests.children child.id hid
    obtain rfl : child = other := Option.some.inj (hlaterChild.symm.trans hother)
    exact h.mirrored.openedIn_iff htop hid hgraph
  rw [toOption_findAttribute hrests.closed, toOption_findOwn]
  have hfound : ∀ child, (history.builder.current.links.filterMap later.builder.graph.get?).find?
      (fun child => child.kind = .attribute && child.name = name) = some child →
        history.builder.top.scope.get? .attribute name = some child.id := by
    intro child hfind
    obtain ⟨id, hid, hchild⟩ := List.mem_filterMap.1 (List.mem_of_find?_eq_some hfind)
    obtain ⟨-, rfl⟩ := Graph.mem_nodes_of_get? hchild
    have hfits := List.find?_some hfind
    simp only [Bool.and_eq_true, decide_eq_true_eq] at hfits
    exact (h.mirrored.get?_iff htop).2 ((hopened child hid hchild).2 hfits)
  cases hfind : (history.builder.current.links.filterMap later.builder.graph.get?).find?
      fun child => child.kind = .attribute && child.name = name with
  | some child => exact (hfound child hfind).symm
  | none =>
      symm
      rw [Option.map_none, h.mirrored.get?_eq_none htop]
      intro id hopenedId
      obtain ⟨child, -, hchild⟩ := hrests.children id hopenedId.1
      obtain ⟨-, rfl⟩ := Graph.mem_nodes_of_get? hchild
      rw [List.find?_eq_none] at hfind
      have hfits := (hopened child hopenedId.1 hchild).1 hopenedId
      exact hfind child (List.mem_filterMap.2 ⟨child.id, hopenedId.1, hchild⟩) (by simp [hfits])

/-! ### The ways to resolve a name -/

/-- What names stand for: under each open node, for what was opened inside it under them. -/
structure Resolves (history : History) : Prop where
  /-- The scope of an open node binds what was opened inside it, … -/
  binds : ∀ frame ∈ history.builder.frames, ∀ kind name id,
    frame.scope.get? kind name = some id ↔ frame.node.OpenedIn history.births kind name id
  /-- … which is at most one node for a name. -/
  unique : ∀ frame ∈ history.builder.frames, ∀ kind name id other,
    frame.node.OpenedIn history.births kind name id →
      frame.node.OpenedIn history.births kind name other → id = other
  /-- From inside, a name leads to the innermost open node that has one of that name, … -/
  visible : ∀ kind name id, history.builder.findVisible kind name = .ok id ↔
    ∃ closer frame farther, history.builder.frames = closer ++ frame :: farther ∧
      frame.node.OpenedIn history.births kind name id ∧
        ∀ inner ∈ closer, ∀ other, ¬inner.node.OpenedIn history.births kind name other
  /-- … and nowhere if none has. -/
  hidden : ∀ kind name, (∃ error, history.builder.findVisible kind name = .error error) ↔
    ∀ frame ∈ history.builder.frames, ∀ id, ¬frame.node.OpenedIn history.births kind name id
  own : ∀ kind name id, history.builder.findOwn kind name = .ok id ↔
    history.builder.current.OpenedIn history.births kind name id
  disowned : ∀ kind name, (∃ error, history.builder.findOwn kind name = .error error) ↔
    ∀ id, ¬history.builder.current.OpenedIn history.births kind name id
  /-- A closed node has the attributes that it had when it was closed, until it is dropped. -/
  attributes : ∀ owner after, history.builder.closeNode = .ok (owner, after) →
    ∀ later, Survives owner ⟨history.births, history.kept, after⟩ later → ∀ name,
      (later.builder.findAttribute owner name).toOption =
        (history.builder.findOwn .attribute name).toOption

theorem toOption_eq_none {ε α : Type} {result : Except ε α} :
    (∃ error, result = .error error) ↔ result.toOption = none := by
  cases result <;> simp [Except.toOption]

theorem toOption_eq_some {ε α : Type} {result : Except ε α} {a : α} :
    result = .ok a ↔ result.toOption = some a := by
  cases result <;> simp [Except.toOption]

/-- However a builder has been used, with all links made by opening nodes and adding leaves, its
scopes mirror its links, and all ways to resolve a name agree. -/
theorem resolves_of_reached (h : history.Reached) : history.Resolves where
  binds _ hframe _ _ _ := (kept_of_reached h).mirrored.get?_iff hframe
  unique := by
    intro frame hframe kind name id other hid hother
    rw [← (kept_of_reached h).mirrored.get?_iff hframe] at hid hother
    exact Option.some.inj (hid.symm.trans hother)
  visible := by
    intro kind name id
    have hmirrored := (kept_of_reached h).mirrored
    rw [toOption_eq_some, toOption_findVisible, List.findSome?_eq_some_iff]
    constructor
    · rintro ⟨closer, frame, farther, hframes, hfound, hcloser⟩
      have hframe : frame ∈ history.builder.frames := by simp [hframes]
      refine ⟨closer, frame, farther, hframes, (hmirrored.get?_iff hframe).1 hfound, ?_⟩
      intro inner hinner
      exact (hmirrored.get?_eq_none (by simp [hframes, hinner])).1 (hcloser inner hinner)
    · rintro ⟨closer, frame, farther, hframes, hopened, hcloser⟩
      have hframe : frame ∈ history.builder.frames := by simp [hframes]
      refine ⟨closer, frame, farther, hframes, (hmirrored.get?_iff hframe).2 hopened, ?_⟩
      intro inner hinner
      exact (hmirrored.get?_eq_none (by simp [hframes, hinner])).2 (hcloser inner hinner)
  hidden := by
    intro kind name
    rw [toOption_eq_none, toOption_findVisible, List.findSome?_eq_none_iff]
    exact forall₂_congr fun frame hframe => (kept_of_reached h).mirrored.get?_eq_none hframe
  own := by
    intro kind name id
    rw [toOption_eq_some, toOption_findOwn]
    exact (kept_of_reached h).mirrored.get?_iff (Mirrored.top_mem _)
  disowned := by
    intro kind name
    rw [toOption_eq_none, toOption_findOwn]
    exact (kept_of_reached h).mirrored.get?_eq_none (Mirrored.top_mem _)
  attributes _ _ hclose _ hlater name := (kept_of_reached h).findAttribute_eq hclose hlater name

/-- An entity with an attribute, in place of an association with one that was given up: both are
opened with the ids of what is gone. -/
theorem resolves_of_reached_again :
    ∃ history : History, history.Reached ∧ history.births.map (·.id) = [3, 2, 3, 2, 1] ∧
      history.builder.findOwn .attribute "y" = .ok 3 ∧ history.Resolves := by
  have hfirst : Reached _ := .tail .refl (.opens .entity "a" rfl)
  have hkept := (hfirst.tail (.closes rfl)).tail (.keeps rfl)
  have hgiven := ((hkept.tail (.opens .association "b" rfl)).tail (.opens .attribute "x" rfl)).tail
    (.returns [] rfl)
  have hagain := ((hgiven.tail (.opens .entity "b" rfl)).tail (.opens .attribute "y" rfl)).tail
    (.closes rfl)
  exact ⟨_, hagain, by decide, by decide, resolves_of_reached hagain⟩

end History

end ErDiagram.Builder
