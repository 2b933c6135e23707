import FlowGraph.Graph.Membership

/-!
# Creation

A new node takes the next identifier, and its scopes those after it: the internal scope, then the
partitions. It is listed, announced, and put into a scope without asking whether it can enter.
-/

namespace FlowGraph.Graph

/-- Adds the partitions of an internal scope from the `index`-th on. -/
def addPartitions (owner : NodeId) (internal : ScopeId) (index : Nat) :
    Nat → Graph → Except Fault Graph
  | 0, g => .ok g
  | n + 1, g => do
    let (partition, g) ← g.allocate .scope fun id => { id, owner, kind := .partition internal index }
    let g := g.modifyScope internal fun s => { s with partitions := s.partitions ++ [partition] }
    addPartitions owner internal (index + 1) n g

def addInternalScope (g : Graph) (owner : NodeId) (partitions : Nat) : Except Fault Graph := do
  let (internal, g) ← g.allocate .scope fun id => { id, owner, kind := .internal }
  let g ← addPartitions owner internal 0 partitions g
  return g.modifyNode owner ({ · with internalScope := some internal })

/-- Adds a node, with an internal scope if `partitions` says into how many it is split. -/
def spawn (g : Graph) (build : NodeId → Node) (partitions : Option Nat) (s : Option ScopeId) :
    Except Fault (NodeId × Graph) := do
  let (id, g) ← g.allocate .node build
  let g ← match partitions with
    | some n => g.addInternalScope id n
    | none => pure g
  let g := { g with nodes := g.nodes ++ [id] }.emit (.nodeAdded id)
  let g ← match s with
    | some s => g.insertIntoScope id s
    | none => pure g
  return (id, g)

def spawnEntryPoint (g : Graph) : Except Fault Graph := do
  let (id, g) ← g.spawn Node.entryPoint (some 0) none
  return { g with root := id }

/-- An empty program over an arena, whose items stay there. -/
def create (arena : Heap) (ids : IdSupply) (library : Library) (config : Config) : Except Fault Graph :=
  if config.fanIn = 0 then .error .zeroFanIn
  else spawnEntryPoint { arena, ids, library, config }

/-! ## Nodes -/

def createPlain (g : Graph) (s : ScopeId) : Except Fault (NodeId × Graph) :=
  g.spawn (Node.plain g.config.fanIn) none (some s)

def createEmptyInstruction (g : Graph) (s : ScopeId) : Except Fault (NodeId × Graph) :=
  g.spawn (Node.emptyInstruction g.config.fanIn) none (some s)

def createLiteral (g : Graph) (value : Value) (s : ScopeId) : Except Fault (NodeId × Graph) :=
  g.spawn (Node.literal value g.config.fanIn) none (some s)

def createVariable (g : Graph) (type : ValueType) (name : String) (s : ScopeId) :
    Except Fault (NodeId × Graph) :=
  g.spawn (Node.declaration type name g.config.fanIn) none (some s)

def createInvokable (g : Graph) (kind : NodeKind) (signature : Signature) (s : ScopeId) :
    Except Fault (NodeId × Graph) := do
  Node.checkInvokable kind signature
  g.spawn (Node.invokable kind signature g.config.fanIn) none (some s)

def createFunction (g : Graph) (signature : Signature) (s : ScopeId) : Except Fault (NodeId × Graph) :=
  g.createInvokable .function signature s

def createOperator (g : Graph) (signature : Signature) (s : ScopeId) : Except Fault (NodeId × Graph) :=
  g.createInvokable .operator signature s

def createConditional (g : Graph) (c : Node.Conditional) (s : ScopeId) : Except Fault (NodeId × Graph) :=
  g.spawn (Node.conditional c g.config.fanIn) (some 2) (some s)

/-- A node of a kind that needs nothing but a scope. There is only one entry point. -/
def createNode (g : Graph) (kind : NodeKind) (s : ScopeId) : Except Fault (Option NodeId × Graph) := do
  let created ← match kind with
    | .plain => some <$> g.createPlain s
    | .emptyInstruction => some <$> g.createEmptyInstruction s
    | .ifElse => some <$> g.createConditional .ifElse s
    | .forLoop => some <$> g.createConditional .forLoop s
    | .whileLoop => some <$> g.createConditional .whileLoop s
    | .entryPoint | .literal | .function | .operator | .variable | .variableRef => pure none
  match created with
  | some (id, g) => return (some id, g)
  | none => return (none, g)

end FlowGraph.Graph
