import ErDiagram.Proofs.Identities

/-!
Histories: a builder together with what its states do not show, the births of all nodes that there
have been and the checkpoints that are still good. A checkpoint is taken while none but the start
node is open, and going back to one spoils those that were taken after it.

A node is born by being opened under a name, or nameless as a leaf. Ids are given out again after
going back, so only the newest birth with an id counts. The scope of an open node then binds just the
names of the opened nodes among its links: names are bound and links added together, and going back
takes both away together.
-/

namespace ErDiagram

theorem Scope.get?_eq_some {scope : Scope}
    (hdistinct : (scope.bindings.map fun binding => (binding.kind, binding.name)).Nodup)
    {kind : Node.Kind} {name : String} {id : Nat} :
    scope.get? kind name = some id ↔ ⟨kind, name, id⟩ ∈ scope.bindings := by
  rw [get?, Option.map_eq_some_iff]
  constructor
  · rintro ⟨binding, hfind, rfl⟩
    have hkey := List.find?_some hfind
    simp only [Bool.and_eq_true, decide_eq_true_eq] at hkey
    rw [← hkey.1, ← hkey.2]
    exact List.mem_of_find?_eq_some hfind
  · intro hmem
    cases hfind : scope.bindings.find? fun binding => binding.kind = kind && binding.name = name with
    | none =>
        rw [List.find?_eq_none] at hfind
        exact absurd (by simp) (hfind _ hmem)
    | some binding =>
        have hkey := List.find?_some hfind
        simp only [Bool.and_eq_true, decide_eq_true_eq] at hkey
        have hsame : binding = ⟨kind, name, id⟩ :=
          List.inj_on_of_nodup_map hdistinct (List.mem_of_find?_eq_some hfind) hmem
            (by rw [hkey.1, hkey.2])
        exact ⟨binding, rfl, by rw [hsame]⟩

/-- How a node came into being: with which id, inside which node, and under which name of a kind, if
it was opened. -/
structure Birth where
  id : Nat
  parent : Nat
  opened : Option (Node.Kind × String)

/-- The newest birth with an id, among births of which the newest comes first. -/
def newestBirth? (births : List Birth) (id : Nat) : Option Birth :=
  births.find? (·.id = id)

theorem newestBirth?_cons_self (birth : Birth) (births : List Birth) :
    newestBirth? (birth :: births) birth.id = some birth := by
  simp [newestBirth?]

theorem newestBirth?_cons_of_ne {birth : Birth} {id : Nat} (h : birth.id ≠ id)
    (births : List Birth) : newestBirth? (birth :: births) id = newestBirth? births id := by
  simp [newestBirth?, h]

/-- A node links to a node that was opened inside it under a name of a kind. -/
def Node.OpenedIn (births : List Birth) (node : Node) (kind : Node.Kind) (name : String) (id : Nat) :
    Prop :=
  id ∈ node.links ∧ newestBirth? births id = some ⟨id, node.id, some (kind, name)⟩

/-- A node was opened under its name, or it is a leaf. -/
def Node.BornIn (births : List Birth) (node : Node) : Prop :=
  ∃ birth, newestBirth? births node.id = some birth ∧
    (birth.opened = some (node.kind, node.name) ∨
      birth.opened = none ∧ (Builder.leafSuffix? node.kind).isSome)

namespace Builder

/-! ### Steps -/

/-- A builder with all births so far and the checkpoints that are still good, both with the newest
first. -/
structure History where
  births : List Birth
  kept : List Checkpoint
  builder : Builder

namespace History

def fresh : History :=
  ⟨[], [], Builder.empty⟩

/-- One step of a history. Links are added by opening nodes and by leaves only. -/
inductive Step (history : History) : History → Prop where
  | opens (kind : Node.Kind) (name : String) {id : Nat} {after : Builder}
      (hopen : history.builder.openNode kind name = .ok (id, after)) :
      Step history ⟨⟨id, history.builder.current.id, some (kind, name)⟩ :: history.births,
        history.kept, after⟩
  | closes {id : Nat} {after : Builder} (hclose : history.builder.closeNode = .ok (id, after)) :
      Step history ⟨history.births, history.kept, after⟩
  | grows (kind : Node.Kind) (links : List Nat) (cardinality : Option Cardinality) {id : Nat}
      {after : Builder} (hleaf : history.builder.addLeaf kind links cardinality = .ok (id, after)) :
      Step history ⟨⟨id, history.builder.current.id, none⟩ :: history.births, history.kept, after⟩
  | keeps (hdepth : history.builder.depth = 1) :
      Step history ⟨history.births, history.builder.checkpoint :: history.kept, history.builder⟩
  | returns (newer : List Checkpoint) {checkpoint : Checkpoint} {older : List Checkpoint}
      (hkept : history.kept = newer ++ checkpoint :: older) :
      Step history ⟨history.births, checkpoint :: older, history.builder.rollback checkpoint⟩

/-- Histories that begin with a fresh builder. -/
def Reached (history : History) : Prop :=
  Relation.ReflTransGen Step fresh history

end History

/-! ### Scopes and links -/

/-- A scope binds the names of the opened nodes among the links of its node, and those links are to
nodes that were born inside it, after it. -/
structure FrameMirrors (births : List Birth) (frame : Frame) : Prop where
  distinct : (frame.scope.bindings.map fun binding => (binding.kind, binding.name)).Nodup
  binds : ∀ kind name id,
    ⟨kind, name, id⟩ ∈ frame.scope.bindings ↔ frame.node.OpenedIn births kind name id
  linked : ∀ id ∈ frame.node.links, frame.node.id < id ∧
    ∃ birth, newestBirth? births id = some birth ∧ birth.parent = frame.node.id

namespace FrameMirrors

variable {births : List Birth} {birth : Birth} {frame : Frame}

theorem ofNode (births : List Birth) {node : Node} (h : node.links = []) :
    FrameMirrors births (Frame.ofNode node) where
  distinct := List.nodup_nil
  binds := by simp [Frame.ofNode, Scope.empty, Node.OpenedIn, h]
  linked := by simp [Frame.ofNode, h]

/-- A birth elsewhere changes nothing. -/
theorem born (h : FrameMirrors births frame) (hnew : birth.id ∉ frame.node.links) :
    FrameMirrors (birth :: births) frame where
  distinct := h.distinct
  binds := by
    intro kind name id
    rw [h.binds]
    refine and_congr_right fun hid => ?_
    rw [newestBirth?_cons_of_ne (ne_of_mem_of_not_mem hid hnew).symm]
  linked := by
    intro id hid
    rw [newestBirth?_cons_of_ne (ne_of_mem_of_not_mem hid hnew).symm]
    exact h.linked id hid

/-- A link to a leaf that is born inside the node. -/
theorem grown (h : FrameMirrors births frame) {id : Nat} (hnew : id ∉ frame.node.links)
    (hlater : frame.node.id < id) :
    FrameMirrors (⟨id, frame.node.id, none⟩ :: births) (frame.link id) := by
  have hborn : FrameMirrors (⟨id, frame.node.id, none⟩ :: births) frame := h.born hnew
  refine ⟨h.distinct, fun kind name other => ?_, fun other hother => ?_⟩
  · rw [Node.OpenedIn, Frame.link, List.mem_append, List.mem_singleton, or_and_right]
    constructor
    · exact fun hmem => Or.inl ((hborn.binds kind name other).1 hmem)
    · rintro (hopened | ⟨rfl, hleaf⟩)
      · exact (hborn.binds kind name other).2 hopened
      · rw [newestBirth?_cons_self ⟨other, frame.node.id, none⟩] at hleaf
        cases hleaf
  · rcases List.mem_append.1 hother with hother | hother
    · exact hborn.linked other hother
    · rw [List.mem_singleton.1 hother]
      exact ⟨hlater, _, newestBirth?_cons_self _ _, rfl⟩

/-- A link to a node that is opened inside the node, under a free name. -/
theorem opened (h : FrameMirrors births frame) {kind : Node.Kind} {name : String} {id : Nat}
    (hfree : frame.scope.get? kind name = none) (hnew : id ∉ frame.node.links)
    (hlater : frame.node.id < id) :
    FrameMirrors (⟨id, frame.node.id, some (kind, name)⟩ :: births)
      { frame.link id with scope := frame.scope.bind kind name id } := by
  have hborn : FrameMirrors (⟨id, frame.node.id, some (kind, name)⟩ :: births) frame := h.born hnew
  refine ⟨?_, fun other word bound => ?_, fun other hother => ?_⟩
  · refine List.nodup_cons.2 ⟨fun hmem => ?_, h.distinct⟩
    obtain ⟨⟨_, _, bound⟩, hbinding, hkey⟩ := List.mem_map.1 hmem
    cases hkey
    rw [(Scope.get?_eq_some h.distinct).2 hbinding] at hfree
    cases hfree
  · rw [Node.OpenedIn, Frame.link, List.mem_append, List.mem_singleton, or_and_right]
    refine List.mem_cons.trans (Iff.trans or_comm (or_congr (hborn.binds other word bound) ?_))
    constructor
    · intro heq
      cases heq
      exact ⟨rfl, newestBirth?_cons_self _ _⟩
    · rintro ⟨rfl, hbirth⟩
      rw [newestBirth?_cons_self ⟨bound, frame.node.id, some (kind, name)⟩] at hbirth
      cases hbirth
      rfl
  · rcases List.mem_append.1 hother with hother | hother
    · exact hborn.linked other hother
    · rw [List.mem_singleton.1 hother]
      exact ⟨hlater, _, newestBirth?_cons_self _ _, rfl⟩

end FrameMirrors

/-- Each scope mirrors the links of its node, links of open nodes lead to nodes, open or closed, and
every node was born under its name. -/
structure Mirrored (births : List Birth) (builder : Builder) : Prop where
  identified : builder.Identified
  nested : builder.openIds.Pairwise (· > ·)
  mirrors : ∀ frame ∈ builder.frames, FrameMirrors births frame
  housed : ∀ frame ∈ builder.frames, ∀ id ∈ frame.node.links, id ∈ builder.allIds
  closed : ∀ node ∈ builder.graph.nodes, node.BornIn births
  opened : ∀ frame ∈ builder.frames, frame.node.id ≠ Node.startId → frame.node.BornIn births

namespace Mirrored

variable {births : List Birth} {builder : Builder}

theorem empty : Mirrored [] Builder.empty where
  identified := .empty
  nested := by decide
  mirrors := by
    intro frame hframe
    rw [List.mem_singleton.1 hframe]
    exact .ofNode [] rfl
  housed := by
    intro frame hframe id hid
    rw [List.mem_singleton.1 hframe] at hid
    cases hid
  closed _ hnode := by cases hnode
  opened := by
    intro frame hframe hid
    rw [List.mem_singleton.1 hframe] at hid
    exact absurd rfl hid

theorem top_mem (builder : Builder) : builder.top ∈ builder.frames := by
  rw [frames_eq]
  exact List.mem_cons_self

theorem top_lt (h : Mirrored births builder) : builder.top.node.id < builder.nextId :=
  h.identified.below _ (List.mem_append_right _ (List.mem_map_of_mem (top_mem builder)))

theorem not_mem_links (h : Mirrored births builder) {id : Nat} (hid : builder.nextId ≤ id)
    {frame : Frame} (hframe : frame ∈ builder.frames) : id ∉ frame.node.links :=
  fun hmem => Nat.not_lt.2 hid (h.identified.below _ (h.housed frame hframe id hmem))

theorem bornIn_born {node : Node} (h : node.BornIn births) {birth : Birth}
    (hne : birth.id ≠ node.id) : node.BornIn (birth :: births) := by
  unfold Node.BornIn
  rw [newestBirth?_cons_of_ne hne]
  exact h

/-- A birth with an id that is not given out yet changes nothing. -/
theorem born (h : Mirrored births builder) (birth : Birth) (hbirth : builder.nextId ≤ birth.id) :
    Mirrored (birth :: births) builder where
  identified := h.identified
  nested := h.nested
  mirrors frame hframe := (h.mirrors frame hframe).born (h.not_mem_links hbirth hframe)
  housed := h.housed
  closed := by
    intro node hnode
    have hlt := h.identified.below _ (List.mem_append_left _ (List.mem_map_of_mem hnode))
    exact bornIn_born (h.closed node hnode) (Nat.ne_of_gt (Nat.lt_of_lt_of_le hlt hbirth))
  opened := by
    intro frame hframe hid
    have hlt := h.identified.below _ (List.mem_append_right _ (List.mem_map_of_mem hframe))
    exact bornIn_born (h.opened frame hframe hid) (Nat.ne_of_gt (Nat.lt_of_lt_of_le hlt hbirth))

theorem openIds_opened (builder : Builder) (kind : Node.Kind) (name : String) :
    (builder.opened kind name).openIds = builder.nextId :: builder.openIds := by
  unfold openIds
  rw [frames_opened, frames_eq builder]
  rfl

theorem openIds_grown (builder : Builder) (leaf : Node) :
    (builder.grown leaf).openIds = builder.openIds := by
  unfold openIds
  rw [frames_grown, frames_eq builder]
  rfl

theorem mem_allIds_opened {kind : Node.Kind} {name : String} {id : Nat} :
    id ∈ (builder.opened kind name).allIds ↔ id = builder.nextId ∨ id ∈ builder.allIds := by
  have hgraph : (builder.opened kind name).graph = builder.graph := graph_modifyTop builder _
  unfold allIds
  rw [hgraph, openIds_opened, List.perm_middle.mem_iff, List.mem_cons]

theorem mem_allIds_grown (h : Mirrored births builder) {leaf : Node}
    (hleaf : leaf.id = builder.nextId) {id : Nat} :
    id ∈ (builder.grown leaf).allIds ↔ id = builder.nextId ∨ id ∈ builder.allIds := by
  have hfresh : leaf.id ∉ builder.graph.ids :=
    mt (List.mem_append_left _) (hleaf ▸ h.identified.fresh)
  have hgraph : (builder.grown leaf).graph = builder.graph.insert leaf := rfl
  unfold allIds
  rw [hgraph, openIds_grown, ((Graph.perm_ids_insert hfresh).append_right _).mem_iff,
    List.cons_append, List.mem_cons, hleaf]

/-- The link that is added leads to a node if the others do. -/
theorem housed_link (h : Mirrored births builder) {ids : List Nat} {top : Frame}
    (hids : ∀ id, id ∈ ids ↔ id = builder.nextId ∨ id ∈ builder.allIds)
    (htop : top.node.links = builder.top.node.links ++ [builder.nextId]) :
    ∀ frame ∈ top :: builder.frames.tail, ∀ id ∈ frame.node.links, id ∈ ids := by
  refine List.forall_mem_cons.2 ⟨fun id hid => (hids id).2 ?_, fun frame hframe id hid => ?_⟩
  · rw [htop] at hid
    rcases List.mem_append.1 hid with hid | hid
    · exact Or.inr (h.housed _ (top_mem builder) id hid)
    · exact Or.inl (List.mem_singleton.1 hid)
  · exact (hids id).2 (Or.inr (h.housed frame (List.mem_of_mem_tail hframe) id hid))

theorem openNode (h : Mirrored births builder) {kind : Node.Kind} {name : String}
    (hfree : builder.top.scope.get? kind name = none) :
    Mirrored (⟨builder.nextId, builder.current.id, some (kind, name)⟩ :: births)
      (builder.opened kind name) := by
  have hborn := h.born ⟨builder.nextId, builder.current.id, some (kind, name)⟩
    (Nat.le_refl _)
  have hgraph : (builder.opened kind name).graph = builder.graph := graph_modifyTop builder _
  refine ⟨h.identified.opened kind name, ?_, ?_, ?_, ?_, ?_⟩
  · rw [openIds_opened]
    refine List.pairwise_cons.2 ⟨fun id hid => ?_, h.nested⟩
    exact h.identified.below id (List.mem_append_right _ hid)
  · rw [frames_opened]
    refine List.forall_mem_cons.2 ⟨.ofNode _ rfl, List.forall_mem_cons.2 ⟨?_, fun frame hframe => ?_⟩⟩
    · exact (h.mirrors _ (top_mem builder)).opened hfree
        (h.not_mem_links (Nat.le_refl _) (top_mem builder)) h.top_lt
    · exact hborn.mirrors frame (List.mem_of_mem_tail hframe)
  · rw [frames_opened]
    refine List.forall_mem_cons.2 ⟨fun id hid => (List.not_mem_nil hid).elim, ?_⟩
    exact h.housed_link (fun id => mem_allIds_opened) rfl
  · rw [hgraph]
    exact hborn.closed
  · rw [frames_opened]
    refine List.forall_mem_cons.2 ⟨fun _ => ⟨_, newestBirth?_cons_self _ _, Or.inl rfl⟩,
      List.forall_mem_cons.2 ⟨?_, fun frame hframe => ?_⟩⟩
    · exact hborn.opened builder.top (top_mem builder)
    · exact hborn.opened frame (List.mem_of_mem_tail hframe)

theorem addLeaf (h : Mirrored births builder) {leaf : Node} (hleaf : leaf.id = builder.nextId)
    (hkind : (leafSuffix? leaf.kind).isSome) :
    Mirrored (⟨builder.nextId, builder.current.id, none⟩ :: births) (builder.grown leaf) := by
  have hborn := h.born ⟨builder.nextId, builder.current.id, none⟩ (Nat.le_refl _)
  refine ⟨h.identified.grown hleaf, ?_, ?_, ?_, ?_, ?_⟩
  · rw [openIds_grown]
    exact h.nested
  · rw [frames_grown, hleaf]
    refine List.forall_mem_cons.2 ⟨?_, fun frame hframe => ?_⟩
    · exact (h.mirrors _ (top_mem builder)).grown
        (h.not_mem_links (Nat.le_refl _) (top_mem builder)) h.top_lt
    · exact hborn.mirrors frame (List.mem_of_mem_tail hframe)
  · rw [frames_grown, hleaf]
    exact h.housed_link (fun id => h.mem_allIds_grown hleaf) rfl
  · intro node hnode
    rcases Graph.eq_or_mem_of_mem_insertNode hnode with rfl | hnode
    · refine ⟨⟨builder.nextId, builder.current.id, none⟩, ?_, Or.inr ⟨rfl, hkind⟩⟩
      rw [hleaf]
      exact newestBirth?_cons_self _ _
    · exact hborn.closed node hnode
  · rw [frames_grown]
    refine List.forall_mem_cons.2 ⟨?_, fun frame hframe => ?_⟩
    · exact hborn.opened builder.top (top_mem builder)
    · exact hborn.opened frame (List.mem_of_mem_tail hframe)

/-- An open node is none of those that it lies in. -/
theorem id_ne_start (h : Mirrored births builder) {frame : Frame} {outer : List Frame}
    (hinner : builder.inner = frame :: outer) : frame.node.id ≠ Node.startId := by
  have hnested := h.nested
  rw [openIds, frames, hinner] at hnested
  have hroot : builder.root.node.id ∈ (outer ++ [builder.root]).map (·.node.id) :=
    List.mem_map_of_mem (List.mem_append_right _ List.mem_cons_self)
  have hlt := (List.pairwise_cons.1 hnested).1 _ hroot
  rw [h.identified.rootId] at hlt
  exact Nat.ne_of_gt hlt

theorem closeNode (h : Mirrored births builder) {frame : Frame} {outer : List Frame}
    (hinner : builder.inner = frame :: outer) :
    Mirrored births
      { builder with inner := outer, graph := builder.graph.insert frame.node } := by
  have hframes : builder.frames = frame :: (outer ++ [builder.root]) := by
    rw [frames, hinner]
    rfl
  obtain ⟨hpop, hfresh, -⟩ := h.identified.pop hinner
  have hnested := h.nested
  rw [openIds, hframes] at hnested
  have hmirrors := h.mirrors
  have hhoused := h.housed
  have hopened := h.opened
  rw [hframes, List.forall_mem_cons] at hmirrors hhoused hopened
  refine ⟨h.identified.close hinner, (List.pairwise_cons.1 hnested).2, hmirrors.2, ?_, ?_, hopened.2⟩
  · intro other hother id hid
    have hmem := hhoused.2 other hother id hid
    have hids : ((builder.graph.insert frame.node).ids ++
        (outer ++ [builder.root]).map (·.node.id)).Perm builder.allIds := by
      rw [allIds, openIds, hframes]
      exact ((Graph.perm_ids_insert (mt (List.mem_append_left _) hfresh)).append_right _).trans
        List.perm_middle.symm
    exact hids.mem_iff.2 hmem
  · intro node hnode
    rcases Graph.eq_or_mem_of_mem_insertNode hnode with rfl | hnode
    · exact hopened.1 (h.id_ne_start hinner)
    · exact h.closed node hnode

end Mirrored

/-! ### Checkpoints -/

/-- A builder whose ids all are below the next one can be kept. -/
theorem Identified.bounded {builder : Builder} (h : builder.Identified) : builder.Bounded where
  bindings := h.bindings builder.root (List.mem_append_right _ List.mem_cons_self)
  nodes _ hnode := h.below _ (List.mem_append_left _ (List.mem_map_of_mem hnode))
  frames _ hframe :=
    h.below _ (List.mem_append_right _ (List.mem_map_of_mem (List.mem_append_left _ hframe)))

/-- The checkpoints stand for builders with scopes that mirror the links, each of which is followed by
the next newer one and the newest by the present. -/
def Backed (births : List Birth) : List Checkpoint → Builder → Prop
  | [], _ => True
  | checkpoint :: older, now => ∃ before, before.checkpoint = checkpoint ∧ Since before now ∧
      Mirrored births before ∧ Backed births older before

namespace Backed

variable {births : List Birth} {kept : List Checkpoint} {now after : Builder}

/-- The present may change, as long as it still follows what it followed. -/
theorem later (h : Backed births kept now) (hsince : ∀ before, Since before now → Since before after) :
    Backed births kept after := by
  cases kept with
  | nil => trivial
  | cons checkpoint older =>
      obtain ⟨before, hcheckpoint, hbefore, hrest⟩ := h
      exact ⟨before, hcheckpoint, hsince before hbefore, hrest⟩

theorem born (h : Backed births kept now) {birth : Birth} (hbirth : now.nextId ≤ birth.id) :
    Backed (birth :: births) kept now := by
  induction kept generalizing now with
  | nil => trivial
  | cons checkpoint older ih =>
      obtain ⟨before, hcheckpoint, hsince, hmirrored, holder⟩ := h
      have hle : before.nextId ≤ birth.id := Nat.le_trans hsince.later hbirth
      exact ⟨before, hcheckpoint, hsince, hmirrored.born birth hle, ih holder hle⟩

theorem keeps (h : Backed births kept now) (hnow : Mirrored births now) (hdepth : now.depth = 1) :
    Backed births (now.checkpoint :: kept) now := by
  have hinner : now.inner = [] := List.eq_nil_of_length_eq_zero (Nat.succ.inj hdepth)
  exact ⟨now, rfl, hnow.identified.bounded.since hinner, hnow, h⟩

/-- Every checkpoint stands for a builder that the present follows. -/
theorem exists_before {newer older : List Checkpoint} {checkpoint : Checkpoint}
    (h : Backed births (newer ++ checkpoint :: older) now) :
    ∃ before, before.checkpoint = checkpoint ∧ Since before now ∧ Mirrored births before ∧
      Backed births older before := by
  induction newer generalizing now with
  | nil => exact h
  | cons first rest ih =>
      obtain ⟨middle, -, hmiddle, -, hrest⟩ := h
      obtain ⟨before, hcheckpoint, hbefore, hboth⟩ := ih hrest
      exact ⟨before, hcheckpoint, hbefore.trans hmiddle, hboth⟩

/-- Going back leads to the builder that the checkpoint stands for. -/
theorem returns {newer older : List Checkpoint} {checkpoint : Checkpoint}
    (h : Backed births (newer ++ checkpoint :: older) now) :
    Mirrored births (now.rollback checkpoint) ∧
      Backed births (checkpoint :: older) (now.rollback checkpoint) := by
  obtain ⟨before, rfl, hsince, hmirrored, holder⟩ := h.exists_before
  rw [hsince.restores]
  refine ⟨hmirrored, keeps holder hmirrored ?_⟩
  rw [← hsince.restores]
  rfl

end Backed

/-! ### Histories -/

namespace History

/-- What every step keeps up. -/
structure Kept (history : History) : Prop where
  mirrored : Mirrored history.births history.builder
  backed : Backed history.births history.kept history.builder

theorem Kept.step {history next : History} (h : history.Kept) (hstep : history.Step next) :
    next.Kept := by
  cases hstep with
  | opens kind name hopen =>
      obtain ⟨hfree, rfl, rfl⟩ := openNode_ok.1 hopen
      refine ⟨h.mirrored.openNode hfree, ?_⟩
      exact (h.backed.born (Nat.le_refl _)).later fun _ hsince => hsince.opened _ _
  | closes hclose =>
      obtain ⟨frame, outer, hinner, -, rfl⟩ := closeNode_ok.1 hclose
      refine ⟨h.mirrored.closeNode hinner, h.backed.later fun before hsince => ?_⟩
      have hinsert := hsince.insert (hsince.frames frame (hinner ▸ List.mem_cons_self))
      exact ⟨hinsert.restores, hinsert.later,
        fun other hother => hsince.frames other (hinner ▸ List.mem_cons_of_mem _ hother),
        hinsert.links⟩
  | grows kind links cardinality hleaf =>
      obtain ⟨leaf, hid, hkind, rfl, rfl⟩ := exists_leaf_of_addLeaf hleaf
      refine ⟨h.mirrored.addLeaf hid hkind, ?_⟩
      exact (h.backed.born (Nat.le_refl _)).later fun _ hsince => hsince.grown hid
  | keeps hdepth => exact ⟨h.mirrored, h.backed.keeps h.mirrored hdepth⟩
  | returns newer hkept =>
      have hbacked := h.backed
      rw [hkept] at hbacked
      exact ⟨hbacked.returns.1, hbacked.returns.2⟩

theorem kept_of_reached {history : History} (h : history.Reached) : history.Kept := by
  induction h with
  | refl => exact ⟨.empty, trivial⟩
  | tail _ hstep ih => exact ih.step hstep

end History

end Builder
end ErDiagram
