import FlowGraph.Plan.Emission
import FlowGraph.Plan.Outline

/-!
# Compilation

A graph is checked before it is compiled, and all violations are reported: each variable has to be declared
in its scope, and each callable has to be in the library.
-/

namespace FlowGraph

inductive CompileError
  | emptyGraph
  | unscopedVariable (node : NodeId) (name : String)
  | duplicateVariable (node : NodeId) (name : String)
  | unresolvedFunction (node : NodeId) (signature : Signature)
deriving DecidableEq, Repr

def CompileError.message : CompileError → String
  | emptyGraph => "the program is empty"
  | unscopedVariable node name => "variable `" ++ name ++ "` (" ++ node.text ++ ") belongs to no scope"
  | duplicateVariable node name => "variable `" ++ name ++ "` (" ++ node.text ++ ") is already declared"
  | unresolvedFunction node signature =>
    "no function matches `" ++ signature.text ++ "` (" ++ node.text ++ ")"

def CompileError.summary (errors : List CompileError) : String :=
  String.intercalate "\n" (errors.map message)

namespace Graph

def variableErrors (g : Graph) (id : NodeId) (n : Node) : Except Fault (List CompileError) := do
  if !n.isVariable then return []
  match n.scope with
  | none => return [.unscopedVariable id n.name]
  | some s =>
    if (← g.scope s).declared.contains id then return [] else return [.duplicateVariable id n.name]

def callableErrors (g : Graph) (id : NodeId) (n : Node) : List CompileError :=
  match n.signature with
  | none => []
  | some s => if (g.library.find? s).isNone then [.unresolvedFunction id s] else []

def nodeErrors (g : Graph) (id : NodeId) : Except Fault (List CompileError) := do
  let n ← g.node id
  return (← g.variableErrors id n) ++ g.callableErrors id n

/-- All violations, in the order of the nodes. A graph that can be compiled has none. -/
def validate (g : Graph) : Except Fault (List CompileError) := do
  if g.isEmpty then return [.emptyGraph]
  return (← g.nodes.mapM g.nodeErrors).flatten

def compile (g : Graph) (insertReturn : Bool) : Except Fault (Except (List CompileError) Code) := do
  match ← g.validate with
  | [] =>
    let code := (← g.outline).emit insertReturn
    if code.size ≤ Code.limit then return .ok code else throw .codeOverflow
  | errors => return .error errors

end Graph

end FlowGraph
