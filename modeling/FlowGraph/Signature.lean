import FlowGraph.Value

/-!
# Signatures

The name, return type and arguments of a callable. Overloads are told apart by the argument types alone.
-/

namespace FlowGraph

structure Argument where
  type : ValueType
  /-- The result is written back to whatever feeds this argument. -/
  byRef : Bool := false
deriving DecidableEq, Repr

structure Signature where
  name : String
  result : ValueType
  arguments : List Argument
deriving DecidableEq, Repr

namespace Signature

def arity (s : Signature) : Nat := s.arguments.length

def types (s : Signature) : List ValueType := s.arguments.map (·.type)

def accepts (s other : Signature) : Bool := s.name == other.name && s.types == other.types

def text (s : Signature) : String :=
  let arguments := s.arguments.map fun a => (if a.byRef then "&" else "") ++ a.type.name
  s.result.name ++ " " ++ s.name ++ "(" ++ String.intercalate ", " arguments ++ ")"

theorem accepts_iff {s other : Signature} :
    s.accepts other = true ↔ s.name = other.name ∧ s.types = other.types := by
  simp [accepts]

end Signature

end FlowGraph
