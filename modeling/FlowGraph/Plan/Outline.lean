import FlowGraph.Graph.Backbone
import FlowGraph.Plan.Basic

/-!
# Outlines

The outline of a graph is the plan it stands for. A scope runs the nodes of its backbone in a frame. A node
runs what feeds it, in the order of its slots, and is then evaluated; variables are evaluated where they are
declared, so a reader does not run them. An `if` that is all there is on the false side of another goes
without a frame of its own.

Expressions that feed each other in a circle have no outline: the walk through them would not end.
-/

namespace FlowGraph.Graph

variable (g : Graph) (planNode : NodeId → Except Fault Plan)

def declarations (vs : List NodeId) : Except Fault (List Declaration) :=
  vs.mapM fun v => do return ⟨v, (← g.node v).name⟩

def outlineScope (s : ScopeId) : Except Fault Program := do
  let scope ← g.scope s
  let owner ← g.node scope.owner
  let declarations ← g.declarations scope.declared
  let body ← (← g.backbone s).mapM planNode
  return ⟨⟨s, owner.name, declarations⟩, .sequence body⟩

def outlineBlock (s : ScopeId) : Except Fault Plan := do
  let p ← g.outlineScope planNode s
  return .frame p.frame p.body

def side? (n : Node) (side : Side) : Except Fault (Option ScopeId) := do
  match n.internalScope with
  | none => return none
  | some s => return (← g.scope s).partition? side.index

def outlineTrueSide (n : Node) : Except Fault Plan := do
  match ← g.side? n .onTrue with
  | none => return .skip
  | some s => g.outlineBlock planNode s

def outlineInput (n : Node) (slot : Option SlotId) : Except Fault Plan :=
  match (slot.bind n.slot?).bind Slot.first? with
  | none => return .skip
  | some source => planNode source.node

/-- What leaves the condition in the accumulator: a variable is read, an expression is run, and an unlinked
input gives its property's own value. -/
def outlineCondition (n : Node) (b : Branch) : Except Fault Plan := do
  let slot := n.slot? b.condition
  match slot.bind Slot.first? with
  | none => return .constant (slot.elim Value.void fun s => (n.property s.property).value).toWord
  | some source =>
    let reads ← g.node source.node
    if reads.isVariableLike then return .load source.node reads.name else planNode source.node

def outlineWhile (n : Node) (b : Branch) : Except Fault Plan := do
  let test ← g.outlineCondition planNode n b
  let body ← g.outlineTrueSide planNode n
  return .loop n.name [] .skip test body .skip

/-- The variables of a `for`'s internal scope live as long as the loop. -/
def outlineFor (n : Node) (b : Branch) : Except Fault Plan := do
  let locals ← match n.internalScope with
    | none => pure []
    | some s => do g.declarations (← g.scope s).declared
  let start ← outlineInput planNode n b.initialization
  let test ← g.outlineCondition planNode n b
  let body ← g.outlineTrueSide planNode n
  let step ← outlineInput planNode n b.iteration
  return .loop n.name locals start test body step

def outlineIf (n : Node) (b : Branch) : Except Fault Plan := do
  let test ← g.outlineCondition planNode n b
  let onTrue ← g.outlineTrueSide planNode n
  match ← g.side? n .onFalse with
  | none => return .choice n.name test onTrue
  | some s =>
    match ← g.backbone s with
    | [] => return .choice n.name test onTrue
    | [only] =>
      let onFalse ←
        if (← g.node only).kind = .ifElse then planNode only else g.outlineBlock planNode s
      return .choiceElse n.name test onTrue onFalse
    | _ => return .choiceElse n.name test onTrue (← g.outlineBlock planNode s)

/-- The plan of what feeds a value input, unless it is a variable or refers to one. -/
def outlineOperand (slot : Slot) : Except Fault Plan := do
  match slot.first? with
  | none => return .skip
  | some source =>
    if (← g.node source.node).isVariableLike then return .skip else planNode source.node

def outlineSimple (id : NodeId) (n : Node) : Except Fault Plan := do
  let operands ← (n.filterSlots .input).mapM (g.outlineOperand planNode)
  let evaluated := n.isInvokable || n.kind == .variable || n.kind == .literal
  return .seq (.sequence operands) (if evaluated then .evaluate id n.name else .skip)

def outlineWithin : Nat → NodeId → Except Fault Plan
  | 0, _ => .error .endless
  | k + 1, id => do
    let n ← g.node id
    match n.kind, n.branch with
    | .ifElse, some b => g.outlineIf (outlineWithin k) n b
    | .whileLoop, some b => g.outlineWhile (outlineWithin k) n b
    | .forLoop, some b => g.outlineFor (outlineWithin k) n b
    | _, _ => g.outlineSimple (outlineWithin k) id n

def outline : Except Fault Program := do
  g.outlineScope (g.outlineWithin g.depthBound) (← g.rootScope)

end FlowGraph.Graph
