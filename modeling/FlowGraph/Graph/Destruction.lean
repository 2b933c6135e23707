import FlowGraph.Graph.Creation
import FlowGraph.Graph.Linking

/-!
# Destruction

Destroying a node removes its links and its inner scopes with it. With side effects its single predecessor
is linked to its single successor, and the expressions private to it and the content of its inner scopes are
destroyed as well. A raw destruction moves that content to the node's scope, or to the root scope.

A node is removed after its inputs, so expressions that feed each other in a circle are never removed: the
destruction comes back to a node that it has begun.
-/

namespace FlowGraph.Graph

def innerScopes (g : Graph) (id : NodeId) : Except Fault (List ScopeId) := do
  match (← g.node id).internalScope with
  | none => return []
  | some s => return s :: (← g.scope s).partitions

/-- The slots to be linked when the node is gone. -/
def bypass (n : Node) : Option (SlotRef × SlotRef) := do
  let single (s : Slot) : Option SlotRef := if s.adjacent.length = 1 then s.first? else none
  return (← n.prevSlot? >>= single, ← n.nextSlot? >>= single)

/-- The expressions that feed a node from its own scope and are no instructions. -/
def privateInputs (g : Graph) (n : Node) : Except Fault (List NodeId) :=
  n.inputs.filterM fun i => do
    let input ← g.node i
    return !input.isVariable && !input.hasFlowAdjacent && input.scope == n.scope

/-- Moves the content of inner scopes to a scope, as far as it can be moved. -/
def rescue (target : ScopeId) (g : Graph) (s : ScopeId) : Except Fault Graph := do
  return (← g.transferChildren s target).1

/-- Removes a link of a node that is being destroyed. What it fed returns to its default. -/
def dropLink (g : Graph) (link : Link) : Except Fault Graph := do
  return (← g.disconnect link (link.kind = .value)).1

def removeScope (g : Graph) (s : ScopeId) : Except Fault Graph :=
  match g.arena.destroy s with
  | .ok (_, arena) => .ok { g with arena }
  | .error e => .error (.mistyped e)

/-- Removes a node that nothing is left of: its links, its membership, its inner scopes and itself. -/
def remove (g : Graph) (id : NodeId) (inner : List ScopeId) : Except Fault Graph := do
  let g ← ((g.valueLinks ++ g.flowLinks).filter (·.involves id)).foldlM dropLink g
  let g ← match (← g.node id).scope with
    | some s => g.detach id s
    | none => pure g
  let g ← inner.foldlM removeScope g
  let g := { g with nodes := g.nodes.filter (· != id), arena := g.arena.erase id.raw }
  return g.emit (.nodeRemoved id)

/-- Links two slots if their nodes are still there and the link is possible. -/
def relink (g : Graph) : Option (SlotRef × SlotRef) → Except Fault Graph
  | none => return g
  | some (a, b) => do
    if g.contains a.node && g.contains b.node then return (← g.connect a b true).1 else return g

/-- Destroys a node, going no more than `n` levels down. -/
def destroyWithin (sideEffects : Bool) : Nat → Graph → NodeId → Except Fault Graph
  | 0, _, _ => .error .endless
  | n + 1, g, id => do
    if id = g.root then return g
    if !g.contains id then return g
    let inner ← g.innerScopes id
    let this ← g.node id
    if sideEffects then
      let g ← (← g.privateInputs this).foldlM (destroyWithin sideEffects n) g
      let content ← inner.mapM fun s => do return (← g.scope s).children
      let g ← content.flatten.foldlM (destroyWithin sideEffects n) g
      let g ← g.remove id inner
      g.relink (bypass this)
    else
      let g ←
        if inner.isEmpty then pure g
        else do
          let target ← match this.scope with
            | some s => pure s
            | none => g.rootScope
          inner.foldlM (rescue target) g
      g.remove id inner

/-- A destruction that ends begins no node twice without having removed one in between. -/
def destroyBound (g : Graph) : Nat := (g.arena.live + 1) * (g.arena.live + 1)

/-- Destroys a node. The entry point stays, and a node that does not exist is none to destroy. -/
def destroy (g : Graph) (id : NodeId) (sideEffects : Bool) : Except Fault Graph :=
  destroyWithin sideEffects g.destroyBound g id

def reset (g : Graph) : Except Fault Graph := do
  let cleared ← match (do
      let scopes := g.scopes
      let (_, arena) ← g.arena.destroyAll g.nodes
      let (_, arena) ← arena.destroyAll scopes
      return arena) with
    | .ok arena => pure arena
    | .error e => throw (.mistyped e)
  spawnEntryPoint
    ({ g with arena := cleared, nodes := [], valueLinks := [], flowLinks := [] }.emit .reset)

end FlowGraph.Graph
