import FlowGraph.Graph.Membership
import FlowGraph.Machine.State

/-!
# Evaluation

To read a node is to take the value it has; to evaluate it is to give it one. A variable is initialized the
first time it is evaluated after a push. A callable takes its arguments from what feeds its inputs, or from
the inputs' own values, and its result goes to the variables it was given by reference, too.
-/

namespace FlowGraph

namespace Graph

/-- The value of a node, going through no more than `n` references. -/
def readWithin (g : Graph) (m : Memory) : Nat → NodeId → Except Trap Value
  | 0, _ => .error (.fault .endless)
  | n + 1, id =>
    match g.node? id with
    | .error f => .error (.fault f)
    | .ok none => .error (.error (.unknownNode id))
    | .ok (some this) =>
      match this.kind with
      | .variable =>
        match m.pushed? id with
        | some value => .ok (value.getD this.value)
        | none => .error (.error (.variableNotPushed id))
      | .variableRef =>
        match (this.valueIn?.bind Slot.first?).map (·.node) with
        | some source => g.readWithin m n source
        | none => .ok ((m.value? id).getD this.value)
      | _ => .ok ((m.value? id).getD this.value)

def read (g : Graph) (m : Memory) (id : NodeId) : Except Trap Value := g.readWithin m g.depthBound id

/-- The variable that an argument by reference writes to, given what feeds it. -/
def targetVariable (g : Graph) (id : NodeId) : Except Fault (Option NodeId) := do
  match (← g.node id).kind with
  | .variable => return some id
  | .variableRef => g.referencedVariable id
  | _ => return none

end Graph

namespace Exec

def read (g : Graph) (id : NodeId) : Exec Value := do
  match g.read (← get).memory id with
  | .ok v => return v
  | .error t => throw t

def assign (id : NodeId) (v : Value) : Exec Unit := do
  if ((← get).memory.pushed? id).isNone then fail (.variableNotPushed id)
  modifyMemory (·.setVariable id v)

/-- An argument's value, and the variable it is passed by reference, if any. -/
def argument (g : Graph) (n : Node) (slot : Slot) : Exec (Value × Option NodeId) := do
  let property := n.property slot.property
  match slot.first? with
  | none => return (property.value, none)
  | some source =>
    let value ← read g source.node
    if property.flags.isRef then return (value, ← lift (g.targetVariable source.node))
    else return (value, none)

def invoke (g : Graph) (n : Node) : Exec Value := do
  match n.signature.bind g.library.find? with
  | none => fail (.unresolved n.id)
  | some f =>
    let arguments ← (n.filterSlots .input).mapM (argument g n)
    match ← lift (g.library.call f (arguments.map (·.1))) with
    | .error e => fail (.call n.id e)
    | .ok result =>
      (arguments.filterMap (·.2)).forM fun v => assign v result
      return result

/-- The value a variable has or, when it is not initialized, gets: that of its initializer, or its own. -/
def firstValue (g : Graph) (n : Node) : Exec Value := do
  match (← get).memory.pushed? n.id with
  | none => fail (.variableNotPushed n.id)
  | some (some v) => return v
  | some none =>
    let v ← match n.valueIn?.bind Slot.first? with
      | some source => read g source.node
      | none => pure n.value
    assign n.id v
    return v

def valueFor (g : Graph) (n : Node) : Exec Value := do
  match n.kind with
  | .variable => firstValue g n
  | .function | .operator =>
    let v ← invoke g n
    modifyMemory (·.setValue n.id v)
    return v
  | _ =>
    let v ← read g n.id
    modifyMemory (·.setValue n.id v)
    return v

/-- Evaluates a node and leaves its value in the accumulator. -/
def evaluate (g : Graph) (id : NodeId) : Exec Unit := do
  match ← lift (g.node? id) with
  | none => fail (.unknownNode id)
  | some n =>
    let v ← valueFor g n
    write .rax v.toWord
    modify fun s => { s with lastEvaluated := some id, visited := s.visited.insert id.raw }

end Exec

end FlowGraph
