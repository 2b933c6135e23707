import FlowGraph.Graph.Ancestry

/-!
# Scope membership

A node that enters or leaves a scope takes its companions along: the node that continues after it and the
expressions that feed it, and theirs in turn. A scope declares a variable unless one of that name is in
sight; a variable that was passed over is declared when the other one goes.

Every step of the two recursions enters, or leaves, one more node, so the number of nodes bounds their
depth.
-/

namespace FlowGraph

inductive ScopeError
  | alreadyScoped (node : NodeId) (scope : ScopeId)
  | ownInternalScope (node : NodeId)
  | notScoped (node : NodeId)
  | unknownScope (scope : ScopeId)
deriving DecidableEq, Repr

def ScopeError.message : ScopeError → String
  | alreadyScoped node scope => node.text ++ " already belongs to " ++ scope.text
  | ownInternalScope node => node.text ++ " cannot be placed inside a scope it owns"
  | notScoped node => node.text ++ " belongs to no scope"
  | unknownScope scope => "unknown scope " ++ scope.text

namespace Graph

/-- A recursion that takes up a new node at every level is less deep. -/
def depthBound (g : Graph) : Nat := g.arena.length .node + 1

/-- What travels with a node: its continuation, then the nodes that feed it, variables excepted. -/
def companions (g : Graph) (id : NodeId) : Except Fault (List NodeId) := do
  let n ← g.node id
  let feeding ← n.inputs.filterM fun i => do return !(← g.node i).isVariable
  return n.successor?.toList ++ feeding

/-- Why a node cannot enter a scope, if it cannot: the scope does not exist, or the node owns it or one that
it lies in. -/
def targetError? (g : Graph) (id : NodeId) (s : ScopeId) : Except Fault (Option ScopeError) := do
  if (← g.scope? s).isNone then return some (.unknownScope s)
  if ← g.anyOnPath (fun t => do return (← g.scope t).owner == id) s then
    return some (.ownInternalScope id)
  return none

def enter (g : Graph) (id : NodeId) (s : ScopeId) : Except Fault Graph := do
  let n ← g.node id
  let _ ← g.scope s
  let g := (g.modifyNode id ({ · with scope := some s })).modifyScope s (·.addChild id)
  let g ←
    if n.isVariable then
      match ← g.findVariable s n.name true with
      | some _ => pure g
      | none => pure (g.modifyScope s (·.declare id))
    else pure g
  return g.emit (.nodeScoped id (some s))

def insertWithin : Nat → Graph → NodeId → ScopeId → Except Fault Graph
  | 0, _, _, _ => .error .endless
  | n + 1, g, id, s => do
    let g ← g.enter id s
    let follow (g : Graph) (next : NodeId) : Except Fault Graph := do
      if (← g.node next).scope.isSome then return g
      if (← g.targetError? next s).isSome then return g
      insertWithin n g next s
    (← g.companions id).foldlM follow g

/-- Puts a node into a scope with those of its companions that are unscoped and can enter. -/
def insertIntoScope (g : Graph) (id : NodeId) (s : ScopeId) : Except Fault Graph :=
  insertWithin g.depthBound g id s

/-- The children of a scope that are variables of a name and not declared. -/
def undeclared (g : Graph) (s : ScopeId) (name : String) : Except Fault (List NodeId) := do
  let scope ← g.scope s
  scope.children.filterM fun c => do
    let child ← g.node c
    return child.isVariable && child.name == name && !scope.declared.contains c

/-- Declares a variable where it is, unless one of its name is in sight. -/
def declareUnlessInSight (name : String) (s : ScopeId) (g : Graph) (v : NodeId) : Except Fault Graph := do
  if (← g.findVariable s name true).isSome then return g
  return g.modifyScope s (·.declare v)

/-- Declares the variables of a name that had been passed over in `s` and the scopes nested in it. -/
def declareShadowed (g : Graph) (s : ScopeId) (name : String) : Except Fault Graph := do
  let nested ← g.descendants s none true
  let visit (g : Graph) (current : ScopeId) : Except Fault Graph := do
    (← g.undeclared current name).foldlM (declareUnlessInSight name current) g
  nested.foldlM visit g

def leave (g : Graph) (id : NodeId) (s : ScopeId) : Except Fault Graph := do
  let n ← g.node id
  let scope ← g.scope s
  let g := (g.modifyNode id ({ · with scope := none })).modifyScope s (·.forget id)
  let g ← if scope.declared.contains id then g.declareShadowed s n.name else pure g
  return g.emit (.nodeScoped id none)

def detachWithin : Nat → Graph → NodeId → ScopeId → Except Fault Graph
  | 0, _, _, _ => .error .endless
  | n + 1, g, id, s => do
    let g ← g.leave id s
    let follow (g : Graph) (next : NodeId) : Except Fault Graph := do
      if (← g.node next).scope = some s then detachWithin n g next s else return g
    (← g.companions id).foldlM follow g

/-- Takes a node out of a scope with its companions there. -/
def detach (g : Graph) (id : NodeId) (s : ScopeId) : Except Fault Graph :=
  detachWithin g.depthBound g id s

/-! ## Edits -/

def appendToScope (g : Graph) (id : NodeId) (s : ScopeId) :
    Except Fault (Graph × Except ScopeError Unit) := do
  match (← g.node id).scope with
  | some current => return (g, .error (.alreadyScoped id current))
  | none =>
    match ← g.targetError? id s with
    | some e => return (g, .error e)
    | none => return (← g.insertIntoScope id s, .ok ())

def removeFromScope (g : Graph) (id : NodeId) : Except Fault (Graph × Except ScopeError ScopeId) := do
  match (← g.node id).scope with
  | none => return (g, .error (.notScoped id))
  | some s => return (← g.detach id s, .ok s)

def changeScope (g : Graph) (id : NodeId) (s : ScopeId) :
    Except Fault (Graph × Except ScopeError Unit) := do
  let current := (← g.node id).scope
  if current = some s then return (g, .ok ())
  match ← g.targetError? id s with
  | some e => return (g, .error e)
  | none =>
    let g ← match current with
      | some current => g.detach id current
      | none => pure g
    return (← g.insertIntoScope id s, .ok ())

/-- Moves those of the given nodes that are in `source` to `target`, up to the first that cannot. -/
def transfer (source target : ScopeId) : List NodeId → Graph → Except Fault (Graph × Except ScopeError Unit)
  | [], g => return (g, .ok ())
  | c :: rest, g => do
    if (← g.node c).scope = some source then
      match ← g.changeScope c target with
      | (g, .ok ()) => transfer source target rest g
      | (g, .error e) => return (g, .error e)
    else transfer source target rest g

def transferChildren (g : Graph) (source target : ScopeId) :
    Except Fault (Graph × Except ScopeError Unit) := do
  transfer source target (← g.scope source).children g

/-- Where the owner's branch slot for this scope leads to, if that is in the scope. -/
def headOf (g : Graph) (s : ScopeId) : Except Fault (Option NodeId) := do
  let scope ← g.scope s
  if scope.isPartitioned then return none
  let owner ← g.node scope.owner
  match (owner.findSlotAt? .branchOut (scope.partitionIndex?.getD 0)).bind Slot.first? with
  | none => return none
  | some r => return if (← g.node r.node).scope = some s then some r.node else none

def resetHead (g : Graph) (s : ScopeId) : Except Fault Graph := do
  let head ← g.headOf s
  return g.modifyScope s ({ · with head })

end Graph

end FlowGraph
