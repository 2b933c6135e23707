import FlowGraph.Cached.Memo
import FlowGraph.Graph.Merging

/-!
# Edits with memo tables

The edits of a program that keeps memo tables. Each does what it does without them, and clears the tables that
it puts out of date: linking and unlinking those of the two nodes and of all scopes, and whatever changes the
membership or the head of a scope those of all scopes. The neighbours they need on the way are read from the
tables.
-/

namespace FlowGraph.Cached

/-! ## Membership -/

def enter (g : Graph) (id : NodeId) (s : ScopeId) : Cached Graph := do
  let g ← g.enter id s
  modify (·.dropBackbones)
  return g

def insertWithin : Nat → Graph → NodeId → ScopeId → Cached Graph
  | 0, _, _, _ => throw .endless
  | n + 1, g, id, s => do
    let g ← enter g id s
    let follow (g : Graph) (next : NodeId) : Cached Graph := do
      if (← g.node next).scope.isSome then return g
      if (← g.targetError? next s).isSome then return g
      insertWithin n g next s
    (← companions g id).foldlM follow g

def insertIntoScope (g : Graph) (id : NodeId) (s : ScopeId) : Cached Graph := insertWithin g.depthBound g id s

def leave (g : Graph) (id : NodeId) (s : ScopeId) : Cached Graph := do
  let g ← g.leave id s
  modify (·.dropBackbones)
  return g

def detachWithin : Nat → Graph → NodeId → ScopeId → Cached Graph
  | 0, _, _, _ => throw .endless
  | n + 1, g, id, s => do
    let g ← leave g id s
    let follow (g : Graph) (next : NodeId) : Cached Graph := do
      if (← g.node next).scope = some s then detachWithin n g next s else return g
    (← companions g id).foldlM follow g

def detach (g : Graph) (id : NodeId) (s : ScopeId) : Cached Graph := detachWithin g.depthBound g id s

def appendToScope (g : Graph) (id : NodeId) (s : ScopeId) : Cached (Graph × Except ScopeError Unit) := do
  match (← g.node id).scope with
  | some current => return (g, .error (.alreadyScoped id current))
  | none =>
    match ← g.targetError? id s with
    | some e => return (g, .error e)
    | none => return (← insertIntoScope g id s, .ok ())

def removeFromScope (g : Graph) (id : NodeId) : Cached (Graph × Except ScopeError ScopeId) := do
  match (← g.node id).scope with
  | none => return (g, .error (.notScoped id))
  | some s => return (← detach g id s, .ok s)

def changeScope (g : Graph) (id : NodeId) (s : ScopeId) : Cached (Graph × Except ScopeError Unit) := do
  let current := (← g.node id).scope
  if current = some s then return (g, .ok ())
  match ← g.targetError? id s with
  | some e => return (g, .error e)
  | none =>
    let g ← match current with
      | some current => detach g id current
      | none => pure g
    return (← insertIntoScope g id s, .ok ())

def transfer (source target : ScopeId) : List NodeId → Graph → Cached (Graph × Except ScopeError Unit)
  | [], g => return (g, .ok ())
  | c :: rest, g => do
    if (← g.node c).scope = some source then
      match ← changeScope g c target with
      | (g, .ok ()) => transfer source target rest g
      | (g, .error e) => return (g, .error e)
    else transfer source target rest g

def transferChildren (g : Graph) (source target : ScopeId) : Cached (Graph × Except ScopeError Unit) := do
  transfer source target (← g.scope source).children g

def resetHead (g : Graph) (s : ScopeId) : Cached Graph := do
  let g ← g.resetHead s
  modify (·.dropBackbones)
  return g

/-! ## Linking -/

def addLink (g : Graph) (link : Link) : Cached Graph := do
  modify fun m => ((m.dropNeighbours link.tail.node).dropNeighbours link.head.node).dropBackbones
  return g.addLink link

def removeLink (g : Graph) (link : Link) : Cached Graph := do
  modify fun m => ((m.dropNeighbours link.tail.node).dropNeighbours link.head.node).dropBackbones
  return g.removeLink link

def onFlowConnected (g : Graph) (link : Link) : Cached Graph := do
  let tails ← g.predecessors link.head
  match ← g.scopeAfter tails with
  | none => return g
  | some target =>
    match ← changeScope g link.head.node target with
    | (g, .error _) => return g
    | (g, .ok ()) =>
      if tails.length = 1 then
        if ← g.isBranchSlot link.tail then return ← resetHead g target
      return g

/-- Clears no table where it takes the head away: the link was removed just before, and with it the backbones. -/
def onFlowDisconnected (g : Graph) (link : Link) : Cached Graph := do
  let g ←
    if ← g.isBranchSlot link.tail then
      match ← g.branchScope link.tail with
      | none => pure g
      | some branch =>
        if (← g.scope branch).head = some link.head.node then
          pure (g.modifyScope branch ({ · with head := none }))
        else pure g
    else pure g
  match ← g.scopeAfter (← g.predecessors link.head) with
  | none => return g
  | some target => return (← changeScope g link.head.node target).1

/-- The input takes the type of what feeds it. -/
def settleType (g : Graph) (link : Link) : Except Fault Graph := do
  let tail ← g.node link.tail.node
  let head ← g.node link.head.node
  if head.isVariable then return g
  match tail.slot? link.tail.slot, head.slot? link.head.slot with
  | some output, some input =>
    let type := (tail.property output.property).type
    return g.modifyNode link.head.node (·.modifyProperty input.property (·.setType type))
  | _, _ => return g

def onValueConnected (g : Graph) (link : Link) : Cached Graph := do
  let tail ← g.node link.tail.node
  let head ← g.node link.head.node
  let g ←
    if !tail.hasFlowAdjacent && !tail.isVariable then
      match head.internalScope <|> head.scope with
      | none => pure g
      | some target => do pure (← changeScope g tail.id target).1
    else pure g
  settleType g link

def connect (g : Graph) (a b : SlotRef) (sideEffects : Bool) : Cached (Graph × Except ConnectError Link) := do
  match ← g.validateLink a b with
  | .error e => return (g, .error e)
  | .ok link =>
    let g ← addLink g link
    let g ← match sideEffects, link.kind with
      | false, _ => pure g
      | true, .flow => onFlowConnected g link
      | true, .value => onValueConnected g link
    return (g, .ok link)

def disconnect (g : Graph) (link : Link) (sideEffects : Bool) : Cached (Graph × Except ConnectError Unit) := do
  if link ∉ g.links link.kind then return (g, .error .notConnected)
  let g ← removeLink g link
  let g ← match sideEffects, link.kind with
    | false, _ => pure g
    | true, .flow => onFlowDisconnected g link
    | true, .value => g.onValueDisconnected link
  return (g, .ok ())

/-! ## Creation -/

def allocate (g : Graph) (k : Element) (build : Handle k → k.Item) : Cached (Handle k × Graph) := do
  let (h, g) ← g.allocate k build
  modify (·.forget h.raw)
  return (h, g)

def addPartitions (owner : NodeId) (internal : ScopeId) (index : Nat) : Nat → Graph → Cached Graph
  | 0, g => return g
  | n + 1, g => do
    let (partition, g) ← allocate g .scope fun id => { id, owner, kind := .partition internal index }
    let g := g.modifyScope internal fun s => { s with partitions := s.partitions ++ [partition] }
    addPartitions owner internal (index + 1) n g

def addInternalScope (g : Graph) (owner : NodeId) (partitions : Nat) : Cached Graph := do
  let (internal, g) ← allocate g .scope fun id => { id, owner, kind := .internal }
  let g ← addPartitions owner internal 0 partitions g
  return g.modifyNode owner ({ · with internalScope := some internal })

def spawn (g : Graph) (build : NodeId → Node) (partitions : Option Nat) (s : Option ScopeId) :
    Cached (NodeId × Graph) := do
  let (id, g) ← allocate g .node build
  let g ← match partitions with
    | some n => addInternalScope g id n
    | none => pure g
  let g := { g with nodes := g.nodes ++ [id] }.emit (.nodeAdded id)
  let g ← match s with
    | some s => insertIntoScope g id s
    | none => pure g
  return (id, g)

def spawnEntryPoint (g : Graph) : Cached Graph := do
  let (id, g) ← spawn g Node.entryPoint (some 0) none
  return { g with root := id }

/-- An empty program over an arena, whose items stay there with their tables. -/
def create (arena : Heap) (ids : IdSupply) (library : Library) (config : Config) : Cached Graph :=
  if config.fanIn = 0 then throw .zeroFanIn
  else spawnEntryPoint { arena, ids, library, config }

def createPlain (g : Graph) (s : ScopeId) : Cached (NodeId × Graph) :=
  spawn g (Node.plain g.config.fanIn) none (some s)

def createEmptyInstruction (g : Graph) (s : ScopeId) : Cached (NodeId × Graph) :=
  spawn g (Node.emptyInstruction g.config.fanIn) none (some s)

def createLiteral (g : Graph) (value : Value) (s : ScopeId) : Cached (NodeId × Graph) :=
  spawn g (Node.literal value g.config.fanIn) none (some s)

def createVariable (g : Graph) (type : ValueType) (name : String) (s : ScopeId) : Cached (NodeId × Graph) :=
  spawn g (Node.declaration type name g.config.fanIn) none (some s)

def createInvokable (g : Graph) (kind : NodeKind) (signature : Signature) (s : ScopeId) :
    Cached (NodeId × Graph) := do
  Node.checkInvokable kind signature
  spawn g (Node.invokable kind signature g.config.fanIn) none (some s)

def createConditional (g : Graph) (c : Node.Conditional) (s : ScopeId) : Cached (NodeId × Graph) :=
  spawn g (Node.conditional c g.config.fanIn) (some 2) (some s)

def createNode (g : Graph) (kind : NodeKind) (s : ScopeId) : Cached (Option NodeId × Graph) := do
  let created ← match kind with
    | .plain => some <$> createPlain g s
    | .emptyInstruction => some <$> createEmptyInstruction g s
    | .ifElse => some <$> createConditional g .ifElse s
    | .forLoop => some <$> createConditional g .forLoop s
    | .whileLoop => some <$> createConditional g .whileLoop s
    | .entryPoint | .literal | .function | .operator | .variable | .variableRef => pure none
  match created with
  | some (id, g) => return (some id, g)
  | none => return (none, g)

/-! ## Destruction -/

def privateInputs (g : Graph) (id : NodeId) (n : Node) : Cached (List NodeId) := do
  let inputs ← neighbours id n .input
  (inputs.filterM fun i => do
    let input ← g.node i
    return !input.isVariable && !input.hasFlowAdjacent && input.scope == n.scope : Except Fault (List NodeId))

def rescue (target : ScopeId) (g : Graph) (s : ScopeId) : Cached Graph := do
  return (← transferChildren g s target).1

def dropLink (g : Graph) (link : Link) : Cached Graph := do
  return (← disconnect g link (link.kind = .value)).1

def removeScope (g : Graph) (s : ScopeId) : Cached Graph := do
  let g ← g.removeScope s
  modify (·.forget s.raw)
  return g

def remove (g : Graph) (id : NodeId) (inner : List ScopeId) : Cached Graph := do
  let g ← ((g.valueLinks ++ g.flowLinks).filter (·.involves id)).foldlM dropLink g
  let g ← match (← g.node id).scope with
    | some s => detach g id s
    | none => pure g
  let g ← inner.foldlM removeScope g
  let g := { g with nodes := g.nodes.filter (· != id), arena := g.arena.erase id.raw }
  modify fun m => (m.forget id.raw).dropBackbones
  return g.emit (.nodeRemoved id)

def relink (g : Graph) : Option (SlotRef × SlotRef) → Cached Graph
  | none => return g
  | some (a, b) => do
    if g.contains a.node && g.contains b.node then return (← connect g a b true).1 else return g

def destroyWithin (sideEffects : Bool) : Nat → Graph → NodeId → Cached Graph
  | 0, _, _ => throw .endless
  | n + 1, g, id => do
    if id = g.root then return g
    if !g.contains id then return g
    let inner ← g.innerScopes id
    let this ← g.node id
    if sideEffects then
      let g ← (← privateInputs g id this).foldlM (destroyWithin sideEffects n) g
      let content ← (inner.mapM fun s => do return (← g.scope s).children : Except Fault (List (List NodeId)))
      let g ← content.flatten.foldlM (destroyWithin sideEffects n) g
      let g ← remove g id inner
      relink g (Graph.bypass this)
    else
      let g ←
        if inner.isEmpty then pure g
        else do
          let target ← match this.scope with
            | some s => pure s
            | none => g.rootScope
          inner.foldlM (rescue target) g
      remove g id inner

def destroy (g : Graph) (id : NodeId) (sideEffects : Bool) : Cached Graph :=
  destroyWithin sideEffects g.destroyBound g id

/-- The arena without the nodes of the program, and without any scope. -/
def cleared (g : Graph) : Except (Mistyped Element) Heap := do
  let scopes := g.scopes
  let (_, arena) ← g.arena.destroyAll g.nodes
  let (_, arena) ← arena.destroyAll scopes
  return arena

def reset (g : Graph) : Cached Graph := do
  match cleared g with
  | .error e => throw (.mistyped e)
  | .ok arena =>
    modify fun m => (g.nodes.map (·.raw) ++ g.scopes.map (·.raw)).foldl Memo.forget m
    spawnEntryPoint ({ g with arena, nodes := [], valueLinks := [], flowLinks := [] }.emit .reset)

/-! ## References and merged literals -/

def createReference (g : Graph) (source : NodeId) (s : ScopeId) : Cached (Graph × Except ConnectError NodeId) := do
  match ← g.node? source with
  | none => return (g, .error (.unknownNode source))
  | some target =>
    if !target.isVariable then return (g, .error (.notAVariable source))
    match ← g.valueOut? source with
    | none => return (g, .error (.notAVariable source))
    | some output =>
      let build := Node.reference target.valueProperty.type target.name g.config.fanIn
      let (id, g) ← spawn g build none (some s)
      match ← connect g output ⟨id, ⟨0⟩⟩ false with
      | (g, .ok _) => return (g, .ok id)
      | (g, .error e) => return (← destroy g id false, .error e)

def mergeTarget? (id : NodeId) (source : Node) (target : Slot) : Cached (Option Nat) := do
  if source.kind ≠ .literal then return none
  if (← neighbours id source .output) ≠ [] then return none
  return if target.kind = .value ∧ target.isPrimary = false then some target.property else none

def connectOrMerge (g : Graph) (output input : SlotRef) :
    Cached (Graph × Except ConnectError (Option Link)) := do
  let link (g : Graph) : Cached (Graph × Except ConnectError (Option Link)) := do
    let (g, result) ← connect g output input true
    return (g, result.map some)
  if !g.config.mergeLiterals then return ← link g
  match ← g.node? output.node with
  | none => return (g, .error (.unknownNode output.node))
  | some source =>
    match ← g.lookupSlot input with
    | .error e => return (g, .error e)
    | .ok target =>
      match ← mergeTarget? output.node source target with
      | none => link g
      | some property =>
        let g := g.modifyNode input.node (·.modifyProperty property (·.setValue source.value))
        return (← destroy g output.node true, .ok none)

end FlowGraph.Cached
