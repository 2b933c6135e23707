import FlowGraph.Graph.Membership

/-!
# Backbones

The backbone of a scope is its main path of execution. It starts at the head and goes on, from each node, to
the first flow successor that is in the scope and not on the path yet. A block's successors include those of
the nodes control leaves it from, so that branches that merge after an `if` continue the path.
-/

namespace FlowGraph

/-- A path through a scope, and the nodes control leaves it from. -/
structure Thread where
  path : List NodeId := []
  ends : List NodeId := []
deriving DecidableEq, Repr

namespace Graph

/-- Whether a path that has come to `id` may go on to a node: it is in the scope, and not on the path yet. -/
def isNext (g : Graph) (s : ScopeId) (id : NodeId) (before : List NodeId) (c : NodeId) : Except Fault Bool := do
  if c = id ∨ c ∈ before then return false
  return (← g.node c).scope = some s

/-- Follows the path from a node on. `leaves` gives the nodes control leaves an inner scope from. -/
def threadFrom (g : Graph) (leaves : ScopeId → Except Fault (List NodeId)) (s : ScopeId) :
    Nat → List NodeId → NodeId → Except Fault Thread
  | 0, _, _ => .error .endless
  | n + 1, before, id => do
    let this ← g.node id
    let inner ← match this.internalScope with
      | some i => leaves i
      | none => pure []
    let after ← inner.mapM fun leaf => do return (← g.node leaf).flowOutputs
    match ← (this.flowOutputs ++ after.flatten).findM? (g.isNext s id before) with
    | some next =>
      let rest ← g.threadFrom leaves s n (id :: before) next
      return { rest with path := id :: rest.path }
    | none => return ⟨[id], if inner.isEmpty then [id] else inner⟩

def threadWith (g : Graph) (leaves : ScopeId → Except Fault (List NodeId)) (s : ScopeId) :
    Except Fault Thread := do
  match (← g.scope s).head with
  | none => return {}
  | some head => g.threadFrom leaves s g.depthBound [] head

def leavesWithin (g : Graph) : Nat → ScopeId → Except Fault (List NodeId)
  | 0, _ => .error .endless
  | n + 1, s => do
    let scope ← g.scope s
    if scope.isPartitioned then return (← scope.partitions.mapM (g.leavesWithin n)).flatten
    return (← g.threadWith (g.leavesWithin n) s).ends

/-- The nodes control leaves a scope from: those of each partition or, of a scope that is not split, the last
node of its backbone, or those of that node's internal scope if there are any. -/
def leaves (g : Graph) (s : ScopeId) : Except Fault (List NodeId) := g.leavesWithin g.walkBound s

def backbone (g : Graph) (s : ScopeId) : Except Fault (List NodeId) := do
  return (← g.threadWith g.leaves s).path

end Graph

end FlowGraph
