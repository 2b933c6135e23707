import FlowGraph.Fault

/-!
# Scopes

A scope is a lexical container. Each block node owns one, its internal scope. Conditionals split theirs into
two partitions and keep no children of their own there; the entry point's is not split and is the root scope
of the program.
-/

namespace FlowGraph

inductive ScopeKind
  /-- A node's internal scope. It lies in the scope its owner is in. -/
  | internal
  /-- One side of a split internal scope. -/
  | partition (parent : ScopeId) (index : Nat)
deriving DecidableEq, Repr

structure Scope where
  id : ScopeId
  owner : NodeId
  kind : ScopeKind
  partitions : List ScopeId := []
  children : List NodeId := []
  /-- The variables that count here, in the order of declaration. -/
  declared : List NodeId := []
  head : Option NodeId := none
deriving DecidableEq, Repr

namespace Scope

def isPartition (s : Scope) : Bool :=
  match s.kind with
  | .partition _ _ => true
  | .internal => false

def isPartitioned (s : Scope) : Bool := !s.partitions.isEmpty

def partitionIndex? (s : Scope) : Option Nat :=
  match s.kind with
  | .partition _ index => some index
  | .internal => none

def partition? (s : Scope) (index : Nat) : Option ScopeId := s.partitions[index]?

def contains (s : Scope) (node : NodeId) : Bool := s.children.contains node

def addChild (s : Scope) (node : NodeId) : Scope := { s with children := s.children ++ [node] }

def declare (s : Scope) (node : NodeId) : Scope :=
  { s with declared := s.declared ++ [node] }

/-- Forgets a child: it is no longer declared here nor the head. -/
def forget (s : Scope) (node : NodeId) : Scope :=
  { s with
    children := s.children.filter (· != node)
    declared := s.declared.filter (· != node)
    head := if s.head = some node then none else s.head }

end Scope

end FlowGraph
