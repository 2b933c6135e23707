import FlowGraph.Graph.Basic

/-!
# Ancestry of scopes

A partition lies in the internal scope it is part of, and an internal scope in the scope its owner is in.
Nothing prevents a block from being created inside itself, so a walk up or down is bounded by the number of
scopes: one that is longer has come back to a scope it left, and would go on for ever.
-/

namespace FlowGraph.Graph

/-- A walk that visits no scope twice takes fewer steps. -/
def walkBound (g : Graph) : Nat := g.arena.length .scope + 1

def parentScope? (g : Graph) (s : ScopeId) : Except Fault (Option ScopeId) := do
  let scope ← g.scope s
  match scope.kind with
  | .partition parent _ => return some parent
  | .internal => return (← g.node scope.owner).scope

def pathWithin (g : Graph) : Nat → ScopeId → Except Fault (List ScopeId)
  | 0, _ => .error .endless
  | n + 1, s => do
    match ← g.parentScope? s with
    | none => return [s]
    | some parent => return s :: (← g.pathWithin n parent)

/-- A scope and its ancestors, innermost first. -/
def path (g : Graph) (s : ScopeId) : Except Fault (List ScopeId) := g.pathWithin g.walkBound s

def depth (g : Graph) (s : ScopeId) : Except Fault Nat := do
  return (← g.path s).length - 1

def anyOnPathWithin (g : Graph) (p : ScopeId → Except Fault Bool) : Nat → ScopeId → Except Fault Bool
  | 0, _ => .error .endless
  | n + 1, s => do
    let parent ← g.parentScope? s
    if ← p s then return true
    match parent with
    | none => return false
    | some parent => g.anyOnPathWithin p n parent

/-- Whether a condition holds of a scope or one of its ancestors. The walk ends at the first. -/
def anyOnPath (g : Graph) (p : ScopeId → Except Fault Bool) (s : ScopeId) : Except Fault Bool :=
  g.anyOnPathWithin p g.walkBound s

def isAncestorOrSelf (g : Graph) (ancestor s : ScopeId) : Except Fault Bool :=
  g.anyOnPath (fun t => return t == ancestor) s

def commonPrefix {α : Type} [DecidableEq α] : List α → List α → List α
  | a :: as, b :: bs => if a = b then a :: commonPrefix as bs else []
  | _, _ => []

/-- The deepest scope that all given scopes lie in or are. -/
def lowestCommonAncestor (g : Graph) : List ScopeId → Except Fault (Option ScopeId)
  | [] => return none
  | first :: rest => do
    let start := (← g.path first).reverse
    let narrow (common : List ScopeId) (s : ScopeId) : Except Fault (List ScopeId) := do
      return commonPrefix common (← g.path s).reverse
    return (← rest.foldlM narrow start).getLast?

/-- The partitions of a scope, and the internal scopes of its children. -/
def childScopes (g : Graph) (s : ScopeId) : Except Fault (List ScopeId) := do
  let scope ← g.scope s
  let inner ← scope.children.filterMapM fun c => do return (← g.node c).internalScope
  return scope.partitions ++ inner

/-- The scopes below `s`, depth first, down to a number of levels; `beyond` is the answer further down. -/
def below (g : Graph) (beyond : Except Fault (List ScopeId)) : Nat → ScopeId → Except Fault (List ScopeId)
  | 0, _ => beyond
  | n + 1, s => do
    let inner ← (← g.childScopes s).mapM fun child => do return child :: (← g.below beyond n child)
    return inner.flatten

/-- The scopes nested in `s`, depth first, to any depth or down to a number of levels. -/
def descendants (g : Graph) (s : ScopeId) (maxDepth : Option Nat) (includeSelf : Bool) :
    Except Fault (List ScopeId) := do
  let inner ← match maxDepth with
    | some n => g.below (.ok []) n s
    | none => g.below (.error .endless) g.walkBound s
  return if includeSelf then s :: inner else inner

/-- Scopes without a parent: the root scope, and the internal scopes of unscoped nodes. -/
def rootScopes (g : Graph) : Except Fault (List ScopeId) :=
  g.scopes.filterM fun s => do return (← g.parentScope? s).isNone

/-! ## Variables in sight -/

def findVariableWithin (g : Graph) (name : String) (recurse : Bool) :
    Nat → ScopeId → Except Fault (Option NodeId)
  | 0, _ => .error .endless
  | n + 1, s => do
    let scope ← g.scope s
    match ← scope.declared.findM? fun v => do return (← g.node v).name == name with
    | some v => return some v
    | none =>
      if recurse then
        match ← g.parentScope? s with
        | none => return none
        | some parent => g.findVariableWithin name recurse n parent
      else return none

/-- The variable of a name declared in `s` or, with `recurse`, in the nearest ancestor that has one. -/
def findVariable (g : Graph) (s : ScopeId) (name : String) (recurse : Bool) :
    Except Fault (Option NodeId) :=
  g.findVariableWithin name recurse g.walkBound s

def isEmptyWithin (g : Graph) : Nat → ScopeId → Bool → Except Fault Bool
  | 0, _, _ => .error .endless
  | n + 1, s, recurse => do
    let scope ← g.scope s
    if !scope.children.isEmpty then return false
    if recurse then scope.partitions.allM fun p => g.isEmptyWithin n p true else return true

/-- Whether a scope, and with `recurse` each of its partitions, has no children. -/
def scopeIsEmpty (g : Graph) (s : ScopeId) (recurse : Bool) : Except Fault Bool :=
  g.isEmptyWithin g.walkBound s recurse

end FlowGraph.Graph
