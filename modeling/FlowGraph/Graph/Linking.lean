import FlowGraph.Graph.Membership

/-!
# Linking

An edit is raw or has side effects: the bookkeeping of scopes and types that an editor's user expects. A node
linked into a branch moves into that branch; where branches merge, it moves out to the scope around them. An
expression moves to where it is used, and an input takes the type of what feeds it.
-/

namespace FlowGraph.Graph

def lookupSlot (g : Graph) (r : SlotRef) : Except Fault (Except ConnectError Slot) := do
  match ← g.node? r.node with
  | none => return .error (.unknownNode r.node)
  | some n =>
    match n.slot? r.slot with
    | none => return .error (.unknownSlot r)
    | some slot => return .ok slot

/-- The link two slots of different nodes can form. The primary slot is the tail, whichever comes first. -/
def linkOf (a b : SlotRef) (slotA slotB : Slot) : Except ConnectError Link :=
  if a.node = b.node then .error .sameNode
  else if slotA.kind ≠ slotB.kind then .error .typeMismatch
  else if slotA.isPrimary = slotB.isPrimary then .error .orderMismatch
  else if slotA.isConnectedTo b then .error .alreadyConnected
  else if slotA.isFull then .error (.slotFull a)
  else if slotB.isFull then .error (.slotFull b)
  else if slotA.isPrimary then .ok ⟨a, b, slotA.kind⟩
  else .ok ⟨b, a, slotA.kind⟩

def validateLink (g : Graph) (a b : SlotRef) : Except Fault (Except ConnectError Link) := do
  match ← g.lookupSlot a with
  | .error e => return .error e
  | .ok slotA =>
    match ← g.lookupSlot b with
    | .error e => return .error e
    | .ok slotB => return linkOf a b slotA slotB

/-! ## Scopes that follow links -/

/-- The scope entered through a branch slot: the matching partition, or the internal scope if it is not
split. -/
def branchScope (g : Graph) (r : SlotRef) : Except Fault (Option ScopeId) := do
  match ← g.slot? r with
  | none => return none
  | some slot =>
    match (← g.node r.node).internalScope with
    | none => return none
    | some internal =>
      let scope ← g.scope internal
      return if scope.isPartitioned then scope.partition? slot.position else some internal

def isBranchSlot (g : Graph) (r : SlotRef) : Except Fault Bool := do
  return (← g.slot? r).any (·.isBranch)

/-- Where a node belongs whose predecessors are these slots: the root scope if there are none, the branch or
the scope of a single one, and otherwise the scope that all predecessors lie in. Of a split scope, that is
the scope around it. -/
def scopeAfter (g : Graph) : List SlotRef → Except Fault (Option ScopeId)
  | [] => do return some (← g.rootScope)
  | [single] => do
    if ← g.isBranchSlot single then g.branchScope single else return (← g.node single.node).scope
  | many => do
    match ← many.filterMapM fun r => do return (← g.node r.node).scope with
    | [] => return none
    | first :: rest =>
      if rest.all (· == first) then return some first
      match ← g.lowestCommonAncestor (first :: rest) with
      | none => return none
      | some common =>
        if (← g.scope common).isPartitioned then g.parentScope? common else return some common

def predecessors (g : Graph) (head : SlotRef) : Except Fault (List SlotRef) := do
  return (← g.slot? head).elim [] (·.adjacent)

/-- The head moves to where it now belongs and, when it is the first of a branch, leads it. -/
def onFlowConnected (g : Graph) (link : Link) : Except Fault Graph := do
  let tails ← g.predecessors link.head
  match ← g.scopeAfter tails with
  | none => return g
  | some target =>
    match ← g.changeScope link.head.node target with
    | (g, .error _) => return g
    | (g, .ok ()) =>
      if tails.length = 1 then
        if ← g.isBranchSlot link.tail then return ← g.resetHead target
      return g

/-- The branch loses its head, and the head moves to where it belongs without that predecessor. -/
def onFlowDisconnected (g : Graph) (link : Link) : Except Fault Graph := do
  let g ←
    if ← g.isBranchSlot link.tail then
      match ← g.branchScope link.tail with
      | none => pure g
      | some branch =>
        if (← g.scope branch).head = some link.head.node then
          pure (g.modifyScope branch ({ · with head := none }))
        else pure g
    else pure g
  match ← g.scopeAfter (← g.predecessors link.head) with
  | none => return g
  | some target => return (← g.changeScope link.head.node target).1

/-- An expression moves to the scope of its reader, and the input it feeds takes its type. A variable stays
where it is declared, and keeps its own type. -/
def onValueConnected (g : Graph) (link : Link) : Except Fault Graph := do
  let tail ← g.node link.tail.node
  let head ← g.node link.head.node
  let g ←
    if !tail.hasFlowAdjacent && !tail.isVariable then
      match head.internalScope <|> head.scope with
      | none => pure g
      | some target => do pure (← g.changeScope tail.id target).1
    else pure g
  let tail ← g.node link.tail.node
  let head ← g.node link.head.node
  if head.isVariable then return g
  match tail.slot? link.tail.slot, head.slot? link.head.slot with
  | some output, some input =>
    let type := (tail.property output.property).type
    return g.modifyNode link.head.node (·.modifyProperty input.property (·.setType type))
  | _, _ => return g

/-- An input that nothing feeds any more returns to its default. A variable keeps its value. -/
def onValueDisconnected (g : Graph) (link : Link) : Except Fault Graph := do
  let head ← g.node link.head.node
  if head.isVariable then return g
  match head.slot? link.head.slot with
  | none => return g
  | some input => return g.modifyNode link.head.node (·.modifyProperty input.property (·.resetToDefault))

/-! ## Edits -/

def addLink (g : Graph) (link : Link) : Graph :=
  let g := g.modifySlot link.tail (·.attach link.head)
  let g := g.modifySlot link.head (·.attach link.tail)
  (g.modifyLinks link.kind (· ++ [link])).emit (.linkAdded link)

def removeLink (g : Graph) (link : Link) : Graph :=
  let g := g.modifyLinks link.kind (·.erase link)
  let g := g.modifySlot link.tail (·.detach link.head)
  let g := g.modifySlot link.head (·.detach link.tail)
  g.emit (.linkRemoved link)

def connect (g : Graph) (a b : SlotRef) (sideEffects : Bool) :
    Except Fault (Graph × Except ConnectError Link) := do
  match ← g.validateLink a b with
  | .error e => return (g, .error e)
  | .ok link =>
    let g := g.addLink link
    let g ← match sideEffects, link.kind with
      | false, _ => pure g
      | true, .flow => g.onFlowConnected link
      | true, .value => g.onValueConnected link
    return (g, .ok link)

def disconnect (g : Graph) (link : Link) (sideEffects : Bool) :
    Except Fault (Graph × Except ConnectError Unit) := do
  if link ∉ g.links link.kind then return (g, .error .notConnected)
  let g := g.removeLink link
  let g ← match sideEffects, link.kind with
    | false, _ => pure g
    | true, .flow => g.onFlowDisconnected link
    | true, .value => g.onValueDisconnected link
  return (g, .ok ())

def findLink? (g : Graph) (a b : SlotRef) : Option Link :=
  (g.valueLinks ++ g.flowLinks).find? (·.joins a b)

end FlowGraph.Graph
