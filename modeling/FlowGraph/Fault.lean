import FlowGraph.Arena.Basic

/-!
# Faults

Nodes and scopes are the two kinds of items a program graph keeps in its arena. A fault is a misuse after
which the graph is not to be used any further, as opposed to an edit that is refused.
-/

namespace FlowGraph

inductive Element
  | node
  | scope
deriving DecidableEq, Repr

instance : Kind Element where
  typeName
    | .node => "ndbl_ast::node::Node"
    | .scope => "ndbl_ast::scope::Scope"
  shortName
    | .node => "Node"
    | .scope => "Scope"

abbrev NodeId := Handle Element.node

abbrev ScopeId := Handle Element.scope

inductive Fault
  | mistyped (error : Mistyped Element)
  | danglingNode (id : NodeId)
  | danglingScope (id : ScopeId)
  | idsExhausted
  | zeroFanIn
  | duplicateProperty (name : String)
  | tooManyProperties
  | numberingOverflow
  | tooManySlots
  | operatorArity
  | unknownFunction (index : Nat)
  | codeOverflow
  /-- A walk came back to where it had been and would go on for ever. -/
  | endless

def Fault.message : Fault → String
  | mistyped e => e.message
  | danglingNode id => "dangling node handle " ++ id.text
  | danglingScope id => "dangling scope handle " ++ id.text
  | idsExhausted => "arena id space exhausted"
  | zeroFanIn => "fan-in capacity must be positive"
  | duplicateProperty name => "duplicate property `" ++ name ++ "`"
  | tooManyProperties => "too many properties on one node"
  | numberingOverflow => "attempt to add with overflow"
  | tooManySlots => "too many slots on one node"
  | operatorArity => "operators take one or two operands"
  | unknownFunction index => "unknown function FunctionId(" ++ toString index ++ ")"
  | codeOverflow => "capacity overflow"
  | endless => "the walk does not end"

end FlowGraph
