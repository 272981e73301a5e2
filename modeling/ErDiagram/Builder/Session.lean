import ErDiagram.Builder

/-!
Sessions: a builder driven by a list of operations, with checkpoints kept under names. A refused
operation leaves the session as it is.
-/

namespace ErDiagram.Builder

/-- An operation on a builder, or a question to it. -/
inductive Op where
  | openNode (kind : Node.Kind) (name : String)
  | closeNode
  | addLeaf (kind : Node.Kind) (links : List Nat) (cardinality : Option Cardinality)
  | findVisible (kind : Node.Kind) (name : String)
  | findOwn (kind : Node.Kind) (name : String)
  | findAttribute (owner : Nat) (name : String)
  | hasLinkTo (kind : Node.Kind)
  | link (id : Nat)
  | setCardinality (cardinality : Cardinality)
  | setHierarchyType (type : HierarchyType)
  /-- Keeps a checkpoint under a name, in place of the one that was there. -/
  | save (slot : String)
  /-- Asks whether the checkpoint kept under a name is the one that stands for the present. -/
  | isCurrent (slot : String)
  /-- Goes back to the checkpoint kept under a name, which stays there. -/
  | restore (slot : String)
  | graph
  deriving DecidableEq

inductive Reply where
  | id (id : Nat)
  | flag (value : Bool)
  | done
  | graph (graph : Graph)
  | refused (error : ScopeError)
  /-- No checkpoint is kept under the name. -/
  | unknownSlot
  deriving DecidableEq

/-- A builder and the checkpoints kept so far, the newest first. -/
structure Session where
  builder : Builder
  slots : List (String × Checkpoint)
  deriving DecidableEq

namespace Session

def empty : Session :=
  ⟨Builder.empty, []⟩

/-- Goes on with the builder that an operation leaves, or with the old one if it is refused. -/
def proceed (session : Session) : Except ScopeError (Nat × Builder) → Reply × Session
  | .ok (id, builder) => (.id id, { session with builder })
  | .error error => (.refused error, session)

def found : Except ScopeError Nat → Reply
  | .ok id => .id id
  | .error error => .refused error

def perform (session : Session) : Op → Reply × Session
  | .openNode kind name => session.proceed (session.builder.openNode kind name)
  | .closeNode => session.proceed session.builder.closeNode
  | .addLeaf kind links cardinality =>
    session.proceed (session.builder.addLeaf kind links cardinality)
  | .findVisible kind name => (found (session.builder.findVisible kind name), session)
  | .findOwn kind name => (found (session.builder.findOwn kind name), session)
  | .findAttribute owner name => (found (session.builder.findAttribute owner name), session)
  | .hasLinkTo kind => (.flag (session.builder.hasLinkTo kind), session)
  | .link id => (.done, { session with builder := session.builder.link id })
  | .setCardinality cardinality =>
    (.done, { session with builder := session.builder.setCardinality cardinality })
  | .setHierarchyType type =>
    (.done, { session with builder := session.builder.setHierarchyType type })
  | .save slot =>
    (.done, { session with slots := (slot, session.builder.checkpoint) :: session.slots })
  | .isCurrent slot =>
    match session.slots.lookup slot with
    | some checkpoint => (.flag (checkpoint = session.builder.checkpoint), session)
    | none => (.unknownSlot, session)
  | .restore slot =>
    match session.slots.lookup slot with
    | some checkpoint => (.done, { session with builder := session.builder.rollback checkpoint })
    | none => (.unknownSlot, session)
  | .graph => (.graph session.builder.graph, session)

def run (session : Session) (ops : List Op) : Session :=
  ops.foldl (fun session op => (session.perform op).2) session

@[simp] theorem run_nil (session : Session) : session.run [] = session := rfl

@[simp] theorem run_cons (session : Session) (op : Op) (ops : List Op) :
    session.run (op :: ops) = (session.perform op).2.run ops := rfl

end Session
end ErDiagram.Builder
