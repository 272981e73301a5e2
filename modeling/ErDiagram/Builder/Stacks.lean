import ErDiagram.Builder

/-!
A builder whose open nodes and their scopes are on two stacks of their own. Nothing in its type says
that the stacks are of one height or that the start node is at the bottom of both, so an operation
that needs the top of a stack fails if there is none; and as an operation changes the builder bit by
bit, one that fails leaves what it has changed so far.
-/

namespace ErDiagram.Builder

/-- The next id, the open nodes and their scopes, both from the innermost outwards, and the graph of
the closed nodes. -/
structure Stacks where
  nextId : Nat
  nodes : List Node
  scopes : List Scope
  graph : Graph

namespace Stacks

/-- Why an operation fails: a refusal, or a stack without the entry that the operation needs. -/
inductive Failure where
  | refused (error : ScopeError)
  | noNode
  | noScope
  | belowStart
  deriving DecidableEq

def Failure.message : Failure → String
  | .refused error => error.message
  | .noNode => "internal invariant violated: construction stack is empty"
  | .noScope => "internal invariant violated: scope stack is empty"
  | .belowStart => "internal invariant violated: rollback below the start node"

/-- A change of the stacks that answers something or fails. -/
abbrev Action := EStateM Failure Stacks

/-- Nothing but the start node is open. -/
def fresh : Stacks :=
  ⟨Node.startId + 1, [Node.emptyStart], [Scope.empty], Graph.empty⟩

def depth (state : Stacks) : Nat :=
  state.nodes.length

def current : Action Node := do
  match (← get).nodes with
  | [] => throw .noNode
  | node :: _ => return node

def edit (change : Node → Node) : Action Unit := do
  match (← get).nodes with
  | [] => throw .noNode
  | node :: outer => modify ({ · with nodes := change node :: outer })

def hasLinkTo (kind : Node.Kind) : Action Bool := do
  let node ← current
  let graph := (← get).graph
  return node.links.any fun id => (graph.get? id).any (·.kind = kind)

def allocate : Action Nat := do
  let id := (← get).nextId
  modify ({ · with nextId := id + 1 })
  return id

def link (id : Nat) : Action Unit :=
  edit fun node => { node with links := node.links ++ [id] }

/-- Binds a name in the innermost scope, unless it is bound there. -/
def bindName (kind : Node.Kind) (name : String) (id : Nat) : Action Bool := do
  match (← get).scopes with
  | [] => throw .noScope
  | scope :: outer =>
    match scope.get? kind name with
    | some _ => return false
    | none =>
      modify ({ · with scopes := scope.bind kind name id :: outer })
      return true

/-- Declares a name in the innermost scope and opens a node for it: the name is bound before an id is
taken, a link added and the node put on its stack. -/
def openNode (kind : Node.Kind) (name : String) : Action Nat := do
  let id := (← get).nextId
  if !(← bindName kind name id) then
    throw (.refused (.duplicate kind name))
  let _ ← allocate
  link id
  modify fun state => { state with
    nodes := Node.bare kind id name :: state.nodes
    scopes := Scope.empty :: state.scopes }
  return id

/-- Closes the innermost node: its scope goes first, then the node moves into the graph. -/
def closeNode : Action Nat := do
  if (← get).nodes.length ≤ 1 then
    throw (.refused (.misuse .closingStart))
  modify fun state => { state with scopes := state.scopes.tail }
  match (← get).nodes with
  | [] => throw .noNode
  | node :: outer =>
    modify fun state => { state with nodes := outer, graph := state.graph.insert node }
    return node.id

/-- Adds a leaf, which takes the next id before it is linked to and goes into the graph. -/
def addLeaf (kind : Node.Kind) (links : List Nat) (cardinality : Option Cardinality) :
    Action Nat := do
  match leafSuffix? kind with
  | none => throw (.refused (.misuse .leafKind))
  | some suffix =>
    let id ← allocate
    link id
    let leaf : Node := ⟨kind, id, id.repr ++ "_" ++ suffix, links, cardinality, none⟩
    modify fun state => { state with graph := state.graph.insert leaf }
    return id

def findVisible (kind : Node.Kind) (name : String) : Action Nat := do
  match (← get).scopes.findSome? (·.get? kind name) with
  | some id => return id
  | none => throw (.refused (.unresolved kind name))

def findOwn (kind : Node.Kind) (name : String) : Action Nat := do
  match (← get).scopes.head?.bind (·.get? kind name) with
  | some id => return id
  | none => throw (.refused (.unresolved kind name))

def findAttribute (owner : Nat) (name : String) : Action Nat := do
  let graph := (← get).graph
  match graph.get? owner with
  | none => throw (.refused (.unresolved .attribute name))
  | some node =>
    match (graph.linkedNodes owner).find? fun child =>
        child.kind = .attribute && child.name = name with
    | some child => return child.id
    | none => throw (.refused (.missingAttribute node.kind node.name name))

def checkpoint (state : Stacks) : Checkpoint :=
  ⟨state.nextId, (state.nodes.getLast?.map (·.links.length)).getD 0⟩

/-- Takes the stacks back to a checkpoint: what is at the bottom of each stays. -/
def rollback (checkpoint : Checkpoint) : Action Unit := do
  let state ← get
  match state.nodes.getLast?, state.scopes.getLast? with
  | some node, some scope =>
    set ({ nextId := checkpoint.nextId
           nodes := [{ node with links := node.links.take checkpoint.rootLinks }]
           scopes := [scope.before checkpoint.nextId]
           graph := state.graph.before checkpoint.nextId } : Stacks)
  | _, _ => throw .belowStart

/-- Closes the start node and hands the graph over. -/
def finish : Action Graph := do
  if (← get).nodes.length ≠ 1 then
    throw (.refused (.misuse .unfinished))
  match (← get).nodes with
  | [] => throw .noNode
  | node :: outer =>
    modify fun state => { state with nodes := outer, graph := state.graph.insert node }
    return (← get).graph

/-! ### Calls -/

/-- A call of an operation, or a question. -/
inductive Call where
  | openNode (kind : Node.Kind) (name : String)
  | closeNode
  | addLeaf (kind : Node.Kind) (links : List Nat) (cardinality : Option Cardinality)
  | edit (change : Node → Node)
  | rollback (checkpoint : Checkpoint)
  | findVisible (kind : Node.Kind) (name : String)
  | findOwn (kind : Node.Kind) (name : String)
  | findAttribute (owner : Nat) (name : String)
  | current
  | hasLinkTo (kind : Node.Kind)
  | checkpoint
  | depth
  | graph

inductive Answer where
  | id (id : Nat)
  | node (node : Node)
  | flag (value : Bool)
  | checkpoint (checkpoint : Checkpoint)
  | number (number : Nat)
  | graph (graph : Graph)
  | done
  | failed (failure : Failure)

/-- The answer of an action, and the stacks that it leaves. -/
def carry {α : Type} (answer : α → Answer) (action : Action α) (state : Stacks) :
    Answer × Stacks :=
  match action state with
  | .ok value after => (answer value, after)
  | .error failure after => (.failed failure, after)

def perform (state : Stacks) : Call → Answer × Stacks
  | .openNode kind name => carry .id (openNode kind name) state
  | .closeNode => carry .id closeNode state
  | .addLeaf kind links cardinality => carry .id (addLeaf kind links cardinality) state
  | .edit change => carry (fun _ => .done) (edit change) state
  | .rollback checkpoint => carry (fun _ => .done) (rollback checkpoint) state
  | .findVisible kind name => carry .id (findVisible kind name) state
  | .findOwn kind name => carry .id (findOwn kind name) state
  | .findAttribute owner name => carry .id (findAttribute owner name) state
  | .current => carry .node current state
  | .hasLinkTo kind => carry .flag (hasLinkTo kind) state
  | .checkpoint => (.checkpoint state.checkpoint, state)
  | .depth => (.number state.depth, state)
  | .graph => (.graph state.graph, state)

def after (state : Stacks) (calls : List Call) : Stacks :=
  calls.foldl (fun state call => (state.perform call).2) state

/-- All that can be seen of the stacks from now on: the answers to some calls, and the graph or the
failure if the start node is closed then. -/
def observe (state : Stacks) : List Call → List Answer × Except Failure Graph
  | [] =>
    match finish state with
    | .ok graph _ => ([], .ok graph)
    | .error failure _ => ([], .error failure)
  | call :: calls =>
    let (answer, after) := state.perform call
    let (answers, outcome) := after.observe calls
    (answer :: answers, outcome)

end Stacks
end ErDiagram.Builder
