import FlowGraph.Compilation
import FlowGraph.Machine.Basic

/-!
# Courses of execution

A graph is executed by walking through it: no code, no lines and no jumps. Scopes push their variables, run
their backbones and pop; loops repeat. What an evaluation does to registers and memory is the machine's
`Exec.evaluate`. A plan is executed in the same way, and a course says what comes out, if anything does:
a loop that is granted too few rounds has no outcome.
-/

namespace FlowGraph

abbrev Course := ExceptT Trap (StateT State Option)

namespace Course

variable {α : Type}

def outcome (x : Course α) (s : State) : Option (Except Trap α × State) := StateT.run (ExceptT.run x) s

def ofExec (x : Exec α) : Course α := ExceptT.mk (StateT.mk fun s => some (StateT.run (ExceptT.run x) s))

def ofRead (x : Except Fault α) : Course α := ofExec (Exec.lift x)

def unfinished : Course α := ExceptT.mk (StateT.mk fun _ => none)

def repeatWhile (test : Course Bool) (body : Course Unit) : Nat → Course Unit
  | 0 => unfinished
  | n + 1 => do
    if ← test then
      body
      repeatWhile test body n

def push (v : NodeId) : Course Unit := ofExec (Exec.modifyMemory (·.push v))

def pop (v : NodeId) : Course Unit := ofExec do
  if ((← get).memory.pushed? v).isNone then Exec.fail (.variableNotPushed v)
  Exec.modifyMemory (·.pop v)

def decision : Course Bool := ofExec do
  let holds := Word.asBool (← get).registers.rax
  Exec.write .rdx (Word.ofBool true)
  Exec.write .rax (Word.ofBool holds)
  return holds

def load (g : Graph) (id : NodeId) : Course Unit := ofExec do
  Exec.write .rax (← Exec.read g id).toWord

end Course

namespace Graph

open Course

section

variable (g : Graph) (rounds : Nat) (runNode : NodeId → Course Unit)

def runScope (leave : Bool) (s : ScopeId) : Course Unit := do
  let scope ← ofRead (g.scope s)
  scope.declared.forM push
  (← ofRead (g.backbone s)).forM runNode
  if leave then scope.declared.reverse.forM pop

def runSide (n : Node) (side : Side) : Course Unit := do
  match ← ofRead (g.side? n side) with
  | none => return
  | some s => g.runScope runNode true s

def runInput (n : Node) (slot : Option SlotId) : Course Unit :=
  match (slot.bind n.slot?).bind Slot.first? with
  | none => pure ()
  | some source => runNode source.node

def runCondition (n : Node) (b : Branch) : Course Bool := do
  let slot := n.slot? b.condition
  match slot.bind Slot.first? with
  | none =>
    ofExec (Exec.write .rax (slot.elim Value.void fun s => (n.property s.property).value).toWord)
  | some source =>
    if (← ofRead (g.node source.node)).isVariableLike then load g source.node else runNode source.node
  decision

def runWhile (n : Node) (b : Branch) : Course Unit :=
  repeatWhile (g.runCondition runNode n b) (g.runSide runNode n .onTrue) rounds

def runFor (n : Node) (b : Branch) : Course Unit := do
  let locals ← match n.internalScope with
    | none => pure []
    | some s => do pure (← ofRead (g.scope s)).declared
  locals.forM push
  runInput runNode n b.initialization
  repeatWhile (g.runCondition runNode n b) (do
    g.runSide runNode n .onTrue
    runInput runNode n b.iteration) rounds
  locals.reverse.forM pop

def runIf (n : Node) (b : Branch) : Course Unit := do
  if ← g.runCondition runNode n b then g.runSide runNode n .onTrue
  else
    match ← ofRead (g.side? n .onFalse) with
    | none => return
    | some s =>
      match ← ofRead (g.backbone s) with
      | [] => return
      | [only] =>
        if (← ofRead (g.node only)).kind = .ifElse then runNode only else g.runScope runNode true s
      | _ => g.runScope runNode true s

def runOperand (slot : Slot) : Course Unit := do
  match slot.first? with
  | none => return
  | some source =>
    if (← ofRead (g.node source.node)).isVariableLike then return else runNode source.node

def runSimple (id : NodeId) (n : Node) : Course Unit := do
  (n.filterSlots .input).forM (g.runOperand runNode)
  if n.isInvokable || n.kind == .variable || n.kind == .literal then ofExec (Exec.evaluate g id)

end

def runNodeWithin (g : Graph) (rounds : Nat) : Nat → NodeId → Course Unit
  | 0, _ => throw (.fault .endless)
  | k + 1, id => do
    let n ← ofRead (g.node id)
    match n.kind, n.branch with
    | .ifElse, some b => g.runIf (g.runNodeWithin rounds k) n b
    | .whileLoop, some b => g.runWhile rounds (g.runNodeWithin rounds k) n b
    | .forLoop, some b => g.runFor rounds (g.runNodeWithin rounds k) n b
    | _, _ => g.runSimple (g.runNodeWithin rounds k) id n

/-- Runs the whole program, each loop for fewer than `rounds` rounds. With a return at its end, the root scope
is not left. -/
def runProgram (g : Graph) (rounds : Nat) (insertReturn : Bool) : Course Unit := do
  g.runScope (g.runNodeWithin rounds g.depthBound) (!insertReturn) (← ofRead g.rootScope)

end Graph

namespace Plan

open Course

variable (g : Graph) (rounds : Nat)

def push (v : NodeId) : Course Unit :=
  if g.contains v then Course.push v else throw (.error (.unknownNode v))

def pushAll (ds : List Declaration) : Course Unit := ds.forM fun v => push g v.node

def popAll (ds : List Declaration) : Course Unit := ds.reverse.forM fun v => pop v.node

def run : Plan → Course Unit
  | skip => pure ()
  | seq first second => do
    first.run
    second.run
  | load node _ => Course.load g node
  | evaluate node _ => ofExec (Exec.evaluate g node)
  | constant word => ofExec (Exec.write .rax word)
  | frame f body => do
    pushAll g f.declarations
    body.run
    popAll f.declarations
  | loop _ locals start test body step => do
    pushAll g locals
    start.run
    repeatWhile (do test.run; decision) (do body.run; step.run) rounds
    popAll locals
  | choice _ test onTrue => do
    test.run
    if ← decision then onTrue.run
  | choiceElse _ test onTrue onFalse => do
    test.run
    if ← decision then onTrue.run else onFalse.run

end Plan

def Program.run (g : Graph) (rounds : Nat) (insertReturn : Bool) (p : Program) : Course Unit := do
  Plan.pushAll g p.frame.declarations
  p.body.run g rounds
  if !insertReturn then Plan.popAll p.frame.declarations

end FlowGraph
