import FlowGraph.Graph.Backbone
import Std.Data.ExtTreeMap

/-!
# Memo tables

What a program keeps of its own answers: the neighbours of a node for each combination of slot flags it was
asked for, and the backbone of a scope. A node's and a scope's table begins empty and goes when they go; in
between, the edits have to clear what they put out of date.

A cached computation passes the tables along, and answers from them where it can.
-/

namespace FlowGraph

structure Memo where
  neighbours : Std.ExtTreeMap Nat (List (SlotFlags × List NodeId)) := ∅
  backbones : Std.ExtTreeMap Nat (List NodeId) := ∅

namespace Memo

def neighbours? (m : Memo) (id : NodeId) (f : SlotFlags) : Option (List NodeId) :=
  m.neighbours[id.raw]?.bind (·.lookup f)

def keepNeighbours (m : Memo) (id : NodeId) (f : SlotFlags) (ids : List NodeId) : Memo :=
  { m with neighbours := m.neighbours.insert id.raw ((f, ids) :: m.neighbours[id.raw]?.getD []) }

/-- Clears the table of a node, for all flags. -/
def dropNeighbours (m : Memo) (id : NodeId) : Memo := { m with neighbours := m.neighbours.erase id.raw }

def backbone? (m : Memo) (s : ScopeId) : Option (List NodeId) := m.backbones[s.raw]?

def keepBackbone (m : Memo) (s : ScopeId) (path : List NodeId) : Memo :=
  { m with backbones := m.backbones.insert s.raw path }

/-- Clears the tables of all scopes. -/
def dropBackbones (m : Memo) : Memo := { m with backbones := ∅ }

/-- The item of an identifier begins or goes, and its table with it. -/
def forget (m : Memo) (id : Nat) : Memo :=
  { neighbours := m.neighbours.erase id, backbones := m.backbones.erase id }

end Memo

abbrev Cached := StateT Memo (Except Fault)

namespace Cached

/-! ## Reading -/

/-- The neighbours of the node `n` that `id` names. -/
def neighbours (id : NodeId) (n : Node) (f : SlotFlags) : Cached (List NodeId) := do
  match (← get).neighbours? id f with
  | some ids => return ids
  | none =>
    let ids := n.adjacentNodes f
    modify (·.keepNeighbours id f ids)
    return ids

def adjacentNodes (g : Graph) (id : NodeId) (f : SlotFlags) : Cached (List NodeId) := do
  neighbours id (← g.node id) f

def companions (g : Graph) (id : NodeId) : Cached (List NodeId) := do
  let n ← g.node id
  let inputs ← neighbours id n .input
  let feeding ← (inputs.filterM fun i => do return !(← g.node i).isVariable : Except Fault (List NodeId))
  return n.successor?.toList ++ feeding

/-- The nodes that may follow a node on a path: its own flow successors, and those of the nodes control leaves
its internal scope from. -/
def candidates (g : Graph) (leaves : ScopeId → Cached (List NodeId)) (id : NodeId) : Cached (List NodeId) := do
  let this ← g.node id
  let own ← neighbours id this .flowOut
  let inner ← match this.internalScope with
    | some i => leaves i
    | none => pure []
  let after ← inner.mapM fun leaf => adjacentNodes g leaf .flowOut
  return own ++ after.flatten

/-- The path from a node on. -/
def pathFrom (g : Graph) (leaves : ScopeId → Cached (List NodeId)) (s : ScopeId) :
    Nat → List NodeId → NodeId → Cached (List NodeId)
  | 0, _, _ => throw .endless
  | n + 1, before, id => do
    let after ← candidates g leaves id
    match ← (after.findM? (g.isNext s id before) : Except Fault (Option NodeId)) with
    | some next => return id :: (← pathFrom g leaves s n (id :: before) next)
    | none => return [id]

def pathWith (g : Graph) (leaves : ScopeId → Cached (List NodeId)) (s : ScopeId) : Cached (List NodeId) := do
  match (← g.scope s).head with
  | none => return []
  | some head => pathFrom g leaves s g.depthBound [] head

def backboneWith (g : Graph) (leaves : ScopeId → Cached (List NodeId)) (s : ScopeId) : Cached (List NodeId) := do
  let _ ← g.scope s
  match (← get).backbone? s with
  | some path => return path
  | none =>
    let path ← pathWith g leaves s
    modify (·.keepBackbone s path)
    return path

def leavesWithin (g : Graph) : Nat → ScopeId → Cached (List NodeId)
  | 0, _ => throw .endless
  | n + 1, s => do
    let scope ← g.scope s
    if scope.isPartitioned then return (← scope.partitions.mapM (leavesWithin g n)).flatten
    match (← backboneWith g (leavesWithin g n) s).getLast? with
    | none => return []
    | some last =>
      match (← g.node last).internalScope with
      | none => return [last]
      | some i =>
        let inner ← leavesWithin g n i
        return if inner.isEmpty then [last] else inner

def leaves (g : Graph) (s : ScopeId) : Cached (List NodeId) := leavesWithin g g.walkBound s

def backbone (g : Graph) (s : ScopeId) : Cached (List NodeId) := backboneWith g (leaves g) s

end Cached

end FlowGraph
