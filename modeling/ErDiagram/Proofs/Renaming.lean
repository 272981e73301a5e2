import ErDiagram.Meaning
import ErDiagram.Proofs.Insertion
import Mathlib.Logic.Function.Basic
import Mathlib.Tactic.SplitIfs

/-!
Names do not matter to a builder but for being equal or not. The names that source texts choose are
those of entities, associations, hierarchies, attributes and foreign keys; if an injective map
replaces all of them, then what was refused is refused as before, and what was carried out leads to
the builder with its names replaced.
-/

namespace ErDiagram

/-- The kinds of node whose names are chosen by the source text. -/
def Node.Kind.isNamed : Node.Kind → Bool
  | .entity => true
  | .association => true
  | .hierarchy => true
  | .attribute => true
  | .foreignKey => true
  | .start => false
  | .primaryKey => false
  | .cardinality => false

/-- The name of a node of a kind, replaced if it is chosen by the source text. -/
def Node.Kind.rename (ρ : String → String) (kind : Node.Kind) (name : String) : String :=
  if kind.isNamed then ρ name else name

def Node.rename (ρ : String → String) (node : Node) : Node :=
  { node with name := node.kind.rename ρ node.name }

def Graph.rename (ρ : String → String) (graph : Graph) : Graph :=
  ⟨graph.nodes.map (Node.rename ρ), List.pairwise_map.2 graph.ascending⟩

def Binding.rename (ρ : String → String) (binding : Binding) : Binding :=
  { binding with name := binding.kind.rename ρ binding.name }

def Scope.rename (ρ : String → String) (scope : Scope) : Scope :=
  ⟨scope.bindings.map (Binding.rename ρ)⟩

def Frame.rename (ρ : String → String) (frame : Frame) : Frame :=
  ⟨frame.node.rename ρ, frame.scope.rename ρ⟩

def Builder.rename (ρ : String → String) (builder : Builder) : Builder where
  nextId := builder.nextId
  root := builder.root.rename ρ
  inner := builder.inner.map (Frame.rename ρ)
  graph := builder.graph.rename ρ

def Action.rename (ρ : String → String) : Action → Action
  | .declare kind name => .declare kind (kind.rename ρ name)
  | .ownsAttribute name => .ownsAttribute (ρ name)
  | .primaryKey names => .primaryKey (names.map ρ)
  | .knows kind name => .knows kind (kind.rename ρ name)
  | .branch entity cardinality => .branch (ρ entity) cardinality
  | .attributeOf name entity => .attributeOf (ρ name) (ρ entity)
  | .mention kind name => .mention kind (kind.rename ρ name)
  | .classify type => .classify type
  | .bound cardinality => .bound cardinality
  | .close => .close
  | .lacksKey => .lacksKey

def ScopeError.rename (ρ : String → String) : ScopeError → ScopeError
  | .duplicate kind name => .duplicate kind (kind.rename ρ name)
  | .unresolved kind name => .unresolved kind (kind.rename ρ name)
  | .missingAttribute owner ownerName name =>
    .missingAttribute owner (owner.rename ρ ownerName) (ρ name)
  | .misuse cause => .misuse cause

def Refusal.rename (ρ : String → String) : Refusal → Refusal
  | .scope error => .scope (error.rename ρ)
  | .secondKey => .secondKey

variable {ρ : String → String}

theorem Node.Kind.rename_of_isNamed {kind : Node.Kind} (h : kind.isNamed) (name : String) :
    kind.rename ρ name = ρ name :=
  if_pos h

theorem Refusal.category?_rename (refusal : Refusal) :
    (refusal.rename ρ).category? = refusal.category? := by
  rcases refusal with ⟨_ | _ | _ | _⟩ | _ <;> rfl

/-! ### Names that are kept -/

section

variable (hkept : ∀ name, ρ name = name)
include hkept

theorem Node.Kind.rename_of_kept (kind : Node.Kind) (name : String) : kind.rename ρ name = name := by
  rw [rename, hkept, ite_self]

theorem Node.rename_of_kept (node : Node) : node.rename ρ = node := by
  rw [rename, Kind.rename_of_kept hkept]

theorem Graph.rename_of_kept (graph : Graph) : graph.rename ρ = graph := by
  refine Graph.eq_of_nodes ?_
  change graph.nodes.map (Node.rename ρ) = graph.nodes
  rw [List.map_congr_left fun node _ => node.rename_of_kept hkept, List.map_id']

theorem Refusal.rename_of_kept (refusal : Refusal) : refusal.rename ρ = refusal := by
  rcases refusal with ⟨_ | _ | _ | _⟩ | _ <;>
    simp only [rename, ScopeError.rename, Node.Kind.rename_of_kept hkept, hkept]

end

/-! ### Changes -/

theorem Graph.rename_insert (graph : Graph) (node : Node) :
    (graph.insert node).rename ρ = (graph.rename ρ).insert (node.rename ρ) := by
  refine Graph.eq_of_nodes ?_
  change (insertNode node graph.nodes).map _ = insertNode (node.rename ρ) (graph.nodes.map _)
  induction graph.nodes with
  | nil => rfl
  | cons first rest ih =>
      simp only [insertNode, List.map_cons]
      change List.map _ (if node.id < first.id then _ else _) =
        if node.id < first.id then _ else if node.id = first.id then _ else _
      split_ifs
      · rfl
      · rfl
      · rw [List.map_cons, ih]

theorem Graph.rename_before (graph : Graph) (first : Nat) :
    (graph.before first).rename ρ = (graph.rename ρ).before first := by
  refine Graph.eq_of_nodes ?_
  change (graph.nodes.filter _).map _ = (graph.nodes.map _).filter _
  rw [List.filter_map]
  rfl

theorem Graph.get?_rename (graph : Graph) (id : Nat) :
    (graph.rename ρ).get? id = (graph.get? id).map (Node.rename ρ) := by
  rw [get?, rename, List.find?_map]
  rfl

theorem Graph.linkedNodes_rename (graph : Graph) (id : Nat) :
    (graph.rename ρ).linkedNodes id = (graph.linkedNodes id).map (Node.rename ρ) := by
  rw [linkedNodes, linkedNodes, get?_rename]
  cases graph.get? id with
  | none => rfl
  | some node =>
      change node.links.filterMap _ = (node.links.filterMap _).map _
      rw [List.map_filterMap]
      exact congrArg (fun f => node.links.filterMap f) (funext graph.get?_rename)

theorem Scope.rename_before (scope : Scope) (first : Nat) :
    (scope.before first).rename ρ = (scope.rename ρ).before first := by
  refine congrArg Scope.mk ?_
  change (scope.bindings.filter _).map _ = (scope.bindings.map _).filter _
  rw [List.filter_map]
  rfl

namespace Builder

theorem rename_modifyTop (builder : Builder) {change change' : Frame → Frame}
    (h : ∀ frame, (change frame).rename ρ = change' (frame.rename ρ)) :
    (builder.modifyTop change).rename ρ = (builder.rename ρ).modifyTop change' := by
  obtain ⟨nextId, root, inner, graph⟩ := builder
  cases inner with
  | nil => simp [modifyTop, rename, h]
  | cons frame outer => simp [modifyTop, rename, h]

theorem rename_link (builder : Builder) (id : Nat) :
    (builder.link id).rename ρ = (builder.rename ρ).link id :=
  builder.rename_modifyTop fun _ => rfl

theorem rename_setCardinality (builder : Builder) (cardinality : Cardinality) :
    (builder.setCardinality cardinality).rename ρ =
      (builder.rename ρ).setCardinality cardinality := by
  unfold setCardinality modifyCurrent
  exact builder.rename_modifyTop fun _ => rfl

theorem rename_setHierarchyType (builder : Builder) (type : HierarchyType) :
    (builder.setHierarchyType type).rename ρ = (builder.rename ρ).setHierarchyType type := by
  unfold setHierarchyType modifyCurrent
  exact builder.rename_modifyTop fun _ => rfl

theorem top_rename (builder : Builder) : (builder.rename ρ).top = builder.top.rename ρ := by
  obtain ⟨nextId, root, inner, graph⟩ := builder
  cases inner <;> rfl

/-- Taking a builder back has nothing to do with names. -/
theorem rename_undo (before failed : Builder) :
    meaning.undo (before.rename ρ) (failed.rename ρ) = (meaning.undo before failed).rename ρ := by
  change (failed.rename ρ).rollback (before.rename ρ).checkpoint = _
  simp only [meaning, rollback, rename, checkpoint, Frame.rename, Graph.rename_before,
    Scope.rename_before]
  rfl

theorem finish_rename {builder : Builder} {graph : Graph} (h : builder.finish = .ok graph) :
    (builder.rename ρ).finish = .ok (graph.rename ρ) := by
  obtain ⟨nextId, root, inner, nodes⟩ := builder
  cases inner with
  | nil =>
      cases h
      exact congrArg Except.ok (Graph.rename_insert _ _).symm
  | cons frame outer => cases h

end Builder

/-! ### Lookups -/

section

variable (hρ : Function.Injective ρ)
include hρ

theorem Node.Kind.rename_injective (kind : Node.Kind) : Function.Injective (kind.rename ρ) := by
  unfold Function.Injective rename
  split
  · exact hρ
  · exact fun _ _ h => h

theorem Scope.get?_rename (scope : Scope) (kind : Node.Kind) (name : String) :
    (scope.rename ρ).get? kind (kind.rename ρ name) = scope.get? kind name := by
  have hsame : ((fun binding : Binding =>
      decide (binding.kind = kind) && decide (binding.name = kind.rename ρ name)) ∘
        Binding.rename ρ) = fun binding => binding.kind = kind && binding.name = name := by
    funext binding
    by_cases hkind : binding.kind = kind
    · have hname : kind.rename ρ binding.name = kind.rename ρ name ↔ binding.name = name :=
        (kind.rename_injective hρ).eq_iff
      simp [Binding.rename, hkind, hname]
    · simp [Binding.rename, hkind]
  rw [get?, get?, rename, List.find?_map, Option.map_map, hsame]
  rfl

namespace Builder

theorem findVisible_rename (builder : Builder) (kind : Node.Kind) (name : String) :
    (builder.rename ρ).findVisible kind (kind.rename ρ name) =
      (builder.findVisible kind name).mapError (ScopeError.rename ρ) := by
  have hframes : (builder.rename ρ).frames = builder.frames.map (Frame.rename ρ) := by
    simp [frames, rename]
  have hfind : ((builder.rename ρ).frames.findSome? (·.scope.get? kind (kind.rename ρ name))) =
      builder.frames.findSome? (·.scope.get? kind name) := by
    rw [hframes, List.findSome?_map]
    congr 1
    funext frame
    exact frame.scope.get?_rename hρ kind name
  unfold findVisible
  rw [hfind]
  split <;> rfl

theorem findOwn_rename (builder : Builder) (kind : Node.Kind) (name : String) :
    (builder.rename ρ).findOwn kind (kind.rename ρ name) =
      (builder.findOwn kind name).mapError (ScopeError.rename ρ) := by
  have hfind : (builder.rename ρ).top.scope.get? kind (kind.rename ρ name) =
      builder.top.scope.get? kind name := by
    rw [top_rename]
    exact builder.top.scope.get?_rename hρ kind name
  unfold findOwn
  rw [hfind]
  split <;> rfl

theorem findAttribute_rename (builder : Builder) (owner : Nat) (name : String) :
    (builder.rename ρ).findAttribute owner (ρ name) =
      (builder.findAttribute owner name).mapError (ScopeError.rename ρ) := by
  have hchild : ((builder.graph.rename ρ).linkedNodes owner).find? (fun child =>
        child.kind = .attribute && child.name = ρ name) =
      ((builder.graph.linkedNodes owner).find? fun child =>
        child.kind = .attribute && child.name = name).map (Node.rename ρ) := by
    rw [Graph.linkedNodes_rename, List.find?_map]
    congr 2
    funext child
    by_cases hkind : child.kind = .attribute
    · have hnamed : Node.Kind.attribute.isNamed := rfl
      simp [Node.rename, hkind, Node.Kind.rename_of_isNamed hnamed, hρ.eq_iff]
    · simp [Node.rename, hkind]
  have hgraph : (builder.rename ρ).graph = builder.graph.rename ρ := rfl
  rw [findAttribute, findAttribute, hgraph, hchild, Graph.get?_rename]
  cases builder.graph.get? owner with
  | none => rfl
  | some node =>
      cases (builder.graph.linkedNodes owner).find? fun child =>
        child.kind = .attribute && child.name = name <;> rfl

omit hρ in
theorem hasLinkTo_rename (builder : Builder) (kind : Node.Kind) :
    (builder.rename ρ).hasLinkTo kind = builder.hasLinkTo kind := by
  unfold hasLinkTo
  have hlinks : (builder.rename ρ).current.links = builder.current.links := by
    rw [current, top_rename]
    rfl
  rw [hlinks]
  congr 1
  funext id
  change ((builder.graph.rename ρ).get? id).any _ = _
  rw [Graph.get?_rename, Option.any_map]
  rfl

/-! ### Actions -/

theorem openNode_rename (builder : Builder) (kind : Node.Kind) (name : String) :
    (builder.rename ρ).openNode kind (kind.rename ρ name) =
      ((builder.openNode kind name).map fun opened => (opened.1, opened.2.rename ρ)).mapError
        (ScopeError.rename ρ) := by
  have hfree : (builder.rename ρ).top.scope.get? kind (kind.rename ρ name) =
      builder.top.scope.get? kind name := by
    rw [top_rename]
    exact builder.top.scope.get?_rename hρ kind name
  have hlink : ((builder.modifyTop fun frame =>
      { frame.link builder.nextId with
        scope := frame.scope.bind kind name builder.nextId }).rename ρ) =
      (builder.rename ρ).modifyTop fun frame =>
        { frame.link builder.nextId with
          scope := frame.scope.bind kind (kind.rename ρ name) builder.nextId } :=
    builder.rename_modifyTop fun _ => rfl
  unfold openNode
  simp only [hfree]
  cases builder.top.scope.get? kind name with
  | some id => rfl
  | none =>
      exact congrArg (fun linked : Builder => Except.ok (builder.nextId, Builder.mk
        (builder.nextId + 1) linked.root
        (Frame.ofNode (Node.bare kind builder.nextId (kind.rename ρ name)) :: linked.inner)
        linked.graph)) hlink.symm

omit hρ in
theorem closeNode_rename (builder : Builder) :
    (builder.rename ρ).closeNode =
      (builder.closeNode.map fun closed => (closed.1, closed.2.rename ρ)).mapError
        (ScopeError.rename ρ) := by
  obtain ⟨nextId, root, inner, graph⟩ := builder
  cases inner with
  | nil => rfl
  | cons frame outer =>
      change Except.ok (_, Builder.mk _ _ _ ((graph.rename ρ).insert (frame.node.rename ρ))) = _
      rw [← Graph.rename_insert]
      rfl

omit hρ in
/-- The name of a leaf is made up from its id. -/
theorem addLeaf_rename (builder : Builder) (kind : Node.Kind) (links : List Nat)
    (cardinality : Option Cardinality) :
    (builder.rename ρ).addLeaf kind links cardinality =
      ((builder.addLeaf kind links cardinality).map fun added => (added.1, added.2.rename ρ)).mapError
        (ScopeError.rename ρ) := by
  unfold addLeaf
  cases hkind : leafSuffix? kind with
  | none => rfl
  | some suffix =>
      have hnamed : kind.isNamed = false := by
        cases kind <;> first | rfl | cases hkind
      have hleaf : (Node.mk kind builder.nextId (builder.nextId.repr ++ "_" ++ suffix) links
          cardinality none).rename ρ =
            ⟨kind, builder.nextId, builder.nextId.repr ++ "_" ++ suffix, links, cardinality, none⟩ := by
        simp [Node.rename, Node.Kind.rename, hnamed]
      change Except.ok (builder.nextId, Builder.mk (builder.nextId + 1)
        ((builder.rename ρ).link builder.nextId).root ((builder.rename ρ).link builder.nextId).inner
        ((builder.graph.rename ρ).insert
          ⟨kind, builder.nextId, builder.nextId.repr ++ "_" ++ suffix, links, cardinality, none⟩)) = _
      rw [← rename_link, ← hleaf, ← Graph.rename_insert]
      rfl

omit hρ in
theorem actLeaf_rename (builder : Builder) (kind : Node.Kind) (links : List Nat)
    (cardinality : Option Cardinality) :
    (Refusal.ofScope ((builder.rename ρ).addLeaf kind links cardinality) >>= fun added =>
        pure added.2) =
      ((Refusal.ofScope (builder.addLeaf kind links cardinality) >>= fun added =>
        pure added.2).map (Builder.rename ρ)).mapError (Refusal.rename ρ) := by
  rw [addLeaf_rename]
  cases builder.addLeaf kind links cardinality <;> rfl

theorem mapM_findOwn_rename (builder : Builder) (names : List String) :
    (names.map ρ).mapM ((builder.rename ρ).findOwn .attribute) =
      (names.mapM (builder.findOwn .attribute)).mapError (ScopeError.rename ρ) := by
  induction names with
  | nil => rfl
  | cons name rest ih =>
      have hname := builder.findOwn_rename hρ .attribute name
      rw [Node.Kind.rename_of_isNamed rfl] at hname
      rw [List.map_cons, List.mapM_cons, List.mapM_cons, hname, ih]
      cases builder.findOwn .attribute name with
      | error error => rfl
      | ok id => cases rest.mapM (builder.findOwn .attribute) <;> rfl

/-- Replacing names by an injective map changes nothing about what an action does. -/
theorem act_rename (action : Action) (builder : Builder) :
    meaning.act (action.rename ρ) (builder.rename ρ) =
      ((meaning.act action builder).map (Builder.rename ρ)).mapError (Refusal.rename ρ) := by
  change act (action.rename ρ) (builder.rename ρ) = ((act action builder).map _).mapError _
  have hattribute := builder.findOwn_rename hρ .attribute
  have hentity := builder.findVisible_rename hρ .entity
  cases action with
  | declare kind name =>
      simp only [Action.rename, act, openNode_rename hρ]
      cases builder.openNode kind name <;> rfl
  | classify type => exact congrArg Except.ok (builder.rename_setHierarchyType type).symm
  | bound cardinality => exact congrArg Except.ok (builder.rename_setCardinality cardinality).symm
  | close =>
      simp only [Action.rename, act, closeNode_rename]
      cases builder.closeNode <;> rfl
  | lacksKey =>
      simp only [Action.rename, act, hasLinkTo_rename]
      split <;> rfl
  | ownsAttribute name =>
      have hname := hattribute name
      rw [Node.Kind.rename_of_isNamed rfl] at hname
      simp only [Action.rename, act, hname]
      cases builder.findOwn .attribute name <;> rfl
  | primaryKey names =>
      simp only [Action.rename, act, mapM_findOwn_rename hρ]
      cases names.mapM (builder.findOwn .attribute) with
      | error error => rfl
      | ok ids => exact builder.actLeaf_rename .primaryKey ids none
  | knows kind name =>
      simp only [Action.rename, act, findVisible_rename hρ]
      cases builder.findVisible kind name <;> rfl
  | branch entity cardinality =>
      have hname := hentity entity
      rw [Node.Kind.rename_of_isNamed rfl] at hname
      simp only [Action.rename, act, hname]
      cases builder.findVisible .entity entity with
      | error error => rfl
      | ok id => exact builder.actLeaf_rename .cardinality [id] (some cardinality)
  | attributeOf name entity =>
      have hname := hentity entity
      rw [Node.Kind.rename_of_isNamed rfl] at hname
      simp only [Action.rename, act, hname]
      cases builder.findVisible .entity entity with
      | error error => rfl
      | ok owner =>
          change (Refusal.ofScope ((builder.rename ρ).findAttribute owner (ρ name)) >>= fun id =>
            pure ((builder.rename ρ).link id)) =
              ((Refusal.ofScope (builder.findAttribute owner name) >>= fun id =>
                pure (builder.link id)).map (Builder.rename ρ)).mapError (Refusal.rename ρ)
          rw [findAttribute_rename hρ]
          cases builder.findAttribute owner name with
          | error error => rfl
          | ok id => exact congrArg Except.ok (builder.rename_link id).symm
  | mention kind name =>
      simp only [Action.rename, act, findVisible_rename hρ]
      cases builder.findVisible kind name with
      | error error => rfl
      | ok id => exact congrArg Except.ok (builder.rename_link id).symm

end Builder
end

end ErDiagram
