import ErDiagram.Graph
import ErDiagram.Scope

/-!
Building a graph. A builder holds the nodes that are still open, one inside the other with the
start node outermost, each with the scope of the names declared directly in it; closed nodes are in
the graph. Ids are handed out in order of declaration.

A name is resolved in three ways: from the innermost scope outwards, in the innermost scope alone,
or among the links of a closed node, whose scope is gone.

A builder can be taken back to a checkpoint: whatever has an id from the checkpoint on is dropped,
with the links that the start node has gained since.
-/

namespace ErDiagram

/-- Uses of a builder that no reading of a source text makes. -/
inductive Misuse where
  | closingStart
  | leafKind
  | unfinished
  deriving DecidableEq

def Misuse.message : Misuse → String
  | .closingStart => "attempted to close the start node"
  | .leafKind => "leaf nodes are PK or Card"
  | .unfinished => "declarations still open at end of input"

/-- Why a builder refuses an operation. -/
inductive ScopeError where
  | duplicate (kind : Node.Kind) (name : String)
  | unresolved (kind : Node.Kind) (name : String)
  | missingAttribute (owner : Node.Kind) (ownerName : String) (name : String)
  | misuse (cause : Misuse)
  deriving DecidableEq

def ScopeError.message : ScopeError → String
  | .duplicate kind name => "duplicate definition of " ++ kind.text ++ " '" ++ name ++ "'"
  | .unresolved kind name => "unresolved reference to " ++ kind.text ++ " '" ++ name ++ "'"
  | .missingAttribute owner ownerName name =>
    "attribute '" ++ name ++ "' not found in " ++ owner.text ++ " '" ++ ownerName ++ "'"
  | .misuse cause => "internal invariant violated: " ++ cause.message

/-- An open node and the names declared directly in it. -/
structure Frame where
  node : Node
  scope : Scope
  deriving DecidableEq

def Frame.ofNode (node : Node) : Frame :=
  ⟨node, Scope.empty⟩

def Frame.link (frame : Frame) (id : Nat) : Frame :=
  { frame with node := { frame.node with links := frame.node.links ++ [id] } }

/-- The next id, the frame of the start node, the frames open inside it from the innermost
outwards, and the graph of the closed nodes. -/
structure Builder where
  nextId : Nat
  root : Frame
  inner : List Frame
  graph : Graph
  deriving DecidableEq

/-- A state to come back to: the next id and the number of links of the start node. -/
structure Checkpoint where
  nextId : Nat
  rootLinks : Nat
  deriving DecidableEq

namespace Builder

def empty : Builder :=
  ⟨Node.startId + 1, Frame.ofNode Node.emptyStart, [], Graph.empty⟩

/-- The number of open nodes, the start node included. -/
def depth (builder : Builder) : Nat :=
  builder.inner.length + 1

/-- The innermost frame. -/
def top (builder : Builder) : Frame :=
  builder.inner.headD builder.root

def current (builder : Builder) : Node :=
  builder.top.node

/-- All frames, from the innermost outwards. -/
def frames (builder : Builder) : List Frame :=
  builder.inner ++ [builder.root]

def modifyTop (builder : Builder) (change : Frame → Frame) : Builder :=
  match builder.inner with
  | [] => { builder with root := change builder.root }
  | frame :: outer => { builder with inner := change frame :: outer }

/-- Changes the node that is being built. -/
def modifyCurrent (builder : Builder) (change : Node → Node) : Builder :=
  builder.modifyTop fun frame => { frame with node := change frame.node }

def link (builder : Builder) (id : Nat) : Builder :=
  builder.modifyTop (·.link id)

def setCardinality (builder : Builder) (cardinality : Cardinality) : Builder :=
  builder.modifyCurrent ({ · with cardinality := some cardinality })

def setHierarchyType (builder : Builder) (type : HierarchyType) : Builder :=
  builder.modifyCurrent ({ · with hierarchyType := some type })

/-- Whether the node that is being built links to a closed node of a kind. -/
def hasLinkTo (builder : Builder) (kind : Node.Kind) : Bool :=
  builder.current.links.any fun id => (builder.graph.get? id).any (·.kind = kind)

/-- Declares a name in the innermost scope and opens a node for it, which takes the next id. -/
def openNode (builder : Builder) (kind : Node.Kind) (name : String) :
    Except ScopeError (Nat × Builder) :=
  let id := builder.nextId
  match builder.top.scope.get? kind name with
  | some _ => .error (.duplicate kind name)
  | none =>
    let builder := builder.modifyTop fun frame =>
      { frame.link id with scope := frame.scope.bind kind name id }
    .ok (id, { builder with
      nextId := id + 1
      inner := Frame.ofNode (Node.bare kind id name) :: builder.inner })

/-- Closes the innermost node: it moves into the graph and its scope goes. -/
def closeNode (builder : Builder) : Except ScopeError (Nat × Builder) :=
  match builder.inner with
  | [] => .error (.misuse .closingStart)
  | frame :: outer =>
    .ok (frame.node.id, { builder with inner := outer, graph := builder.graph.insert frame.node })

/-- How the name of a leaf of a kind ends, if there are leaves of that kind. -/
def leafSuffix? : Node.Kind → Option String
  | .primaryKey => some "pk"
  | .cardinality => some "card"
  | _ => none

/-- Adds a nameless node without a body: a primary key or a branch of an association. It takes the
next id and goes straight into the graph. -/
def addLeaf (builder : Builder) (kind : Node.Kind) (links : List Nat)
    (cardinality : Option Cardinality) : Except ScopeError (Nat × Builder) :=
  let id := builder.nextId
  match leafSuffix? kind with
  | none => .error (.misuse .leafKind)
  | some suffix =>
    let leaf : Node := ⟨kind, id, id.repr ++ "_" ++ suffix, links, cardinality, none⟩
    .ok (id, { builder.link id with nextId := id + 1, graph := builder.graph.insert leaf })

/-- Looks a name of a kind up from the innermost scope outwards. -/
def findVisible (builder : Builder) (kind : Node.Kind) (name : String) :
    Except ScopeError Nat :=
  match builder.frames.findSome? (·.scope.get? kind name) with
  | some id => .ok id
  | none => .error (.unresolved kind name)

/-- Looks a name of a kind up in the innermost scope alone. -/
def findOwn (builder : Builder) (kind : Node.Kind) (name : String) : Except ScopeError Nat :=
  match builder.top.scope.get? kind name with
  | some id => .ok id
  | none => .error (.unresolved kind name)

/-- Looks an attribute up among the nodes that a closed node links to. -/
def findAttribute (builder : Builder) (owner : Nat) (name : String) : Except ScopeError Nat :=
  match builder.graph.get? owner with
  | none => .error (.unresolved .attribute name)
  | some node =>
    match (builder.graph.linkedNodes owner).find? fun child =>
        child.kind = .attribute && child.name = name with
    | some child => .ok child.id
    | none => .error (.missingAttribute node.kind node.name name)

def checkpoint (builder : Builder) : Checkpoint :=
  ⟨builder.nextId, builder.root.node.links.length⟩

/-- Takes the builder back to a checkpoint: only the start node stays open, and every binding, node
and link of the start node that is newer than the checkpoint is dropped. -/
def rollback (builder : Builder) (checkpoint : Checkpoint) : Builder :=
  { nextId := checkpoint.nextId
    root :=
      { node := { builder.root.node with
          links := builder.root.node.links.take checkpoint.rootLinks }
        scope := builder.root.scope.before checkpoint.nextId }
    inner := []
    graph := builder.graph.before checkpoint.nextId }

/-- Closes the start node and hands the graph over. -/
def finish (builder : Builder) : Except ScopeError Graph :=
  match builder.inner with
  | [] => .ok (builder.graph.insert builder.root.node)
  | _ :: _ => .error (.misuse .unfinished)

@[simp] theorem depth_empty : empty.depth = 1 := rfl

@[simp] theorem depth_modifyTop (builder : Builder) (change : Frame → Frame) :
    (builder.modifyTop change).depth = builder.depth := by
  unfold modifyTop depth
  split <;> simp_all

@[simp] theorem top_modifyTop (builder : Builder) (change : Frame → Frame) :
    (builder.modifyTop change).top = change builder.top := by
  unfold modifyTop top
  split <;> simp_all

@[simp] theorem depth_rollback (builder : Builder) (checkpoint : Checkpoint) :
    (builder.rollback checkpoint).depth = 1 := rfl

end Builder
end ErDiagram
