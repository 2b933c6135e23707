import FlowGraph.Machine.Evaluation

/-!
# The machine

The machine holds one program, and runs it over a graph that does not change meanwhile: to its end, or step
by step for a debugger. An error stops it. A fault leaves it in the midst of what it did.
-/

namespace FlowGraph

inductive Mode
  | stopped
  | running
  | debugging
deriving DecidableEq, Repr

structure Machine where
  stepLimit : Option Nat := none
  program : Option Code := none
  mode : Mode := .stopped
  state : State := {}
  /-- What the debugger is about to evaluate. -/
  nextNode : Option NodeId := none
  steps : Nat := 0

inductive Move
  | by (offset : Int)
  | to (word : Word)
  | halt
deriving DecidableEq, Repr

def Exec.perform (g : Graph) : Op → Exec Move
  | .cmp left right => do
    let r := (← get).registers
    write .rax (Word.ofBool (Word.asBool (r.read left) == Word.asBool (r.read right)))
    return .by 1
  | .jmp offset => return .by offset
  | .jne offset => do
    return if Word.asBool (← get).registers.rax then .by 1 else .by offset
  | .mov .eip word => return .to word
  | .mov target word => do
    write target word
    return .by 1
  | .deref id => do
    write .rax (← read g id).toWord
    return .by 1
  | .eval id => do
    evaluate g id
    return .by 1
  | .pushVar id => do
    if !g.contains id then fail (.unknownNode id)
    modifyMemory (·.push id)
    return .by 1
  | .popVar id => do
    if ((← get).memory.pushed? id).isNone then fail (.variableNotPushed id)
    modifyMemory (·.pop id)
    return .by 1
  | .pushFrame _ => return .by 1
  | .popFrame _ => return .by 1
  | .ret => return .halt

/-- The line a move leads to, in a program of a given size. Nothing follows a halt, and a move past the end
or before the start is an error. -/
def Move.target (line size : Nat) : Move → Except MachineError (Option Nat)
  | .by offset =>
    let target := line + offset
    if 0 ≤ target ∧ target ≤ size then .ok (some target.toNat)
    else .error (.outOfBounds line offset size)
  | .to word =>
    if word.toNat ≤ size then .ok (some word.toNat)
    else .error (.outOfBounds line (min word.toNat 0x7fffffffffffffff) size)
  | .halt => .ok none

namespace Machine

def cursor (m : Machine) : Nat := m.state.registers.cursor

def nextOp? (m : Machine) : Option Op := m.program.bind (·.op? m.cursor)

/-- Executes the instruction under the cursor, and says whether another one follows. -/
def step (g : Graph) (m : Machine) : Machine × Except Trap Bool :=
  match m.program with
  | none => (m, .error (.error .noProgram))
  | some code =>
    match code.op? m.cursor with
    | none => (m, .ok false)
    | some op =>
      let line := m.cursor
      let (result, state) := (Exec.perform g op).run m.state
      let m := { m with state, steps := m.steps + 1 }
      match result with
      | .error t => (m, .error t)
      | .ok move =>
        match move.target line code.size with
        | .error e => (m, .error (.error e))
        | .ok none => (m, .ok false)
        | .ok (some target) =>
          let registers := m.state.registers.setCursor target
          ({ m with state := { m.state with registers } }, .ok (decide (target < code.size)))

/-! ## Lifecycle -/

def isStopped (m : Machine) : Bool := m.mode == .stopped

def isDebugging (m : Machine) : Bool := m.mode == .debugging

def clear (m : Machine) : Machine := { m with state := {}, nextNode := none, steps := 0 }

def refuse {α : Type} (m : Machine) (e : MachineError) : Machine × Except Trap α := (m, .error (.error e))

def load (m : Machine) (code : Code) : Machine × Except Trap Unit :=
  if !m.isStopped then m.refuse .busy
  else if m.program.isSome then m.refuse .alreadyLoaded
  else ({ m with program := some code }.clear, .ok ())

def stop (m : Machine) : Machine :=
  if m.isStopped then m else { m with mode := .stopped, nextNode := none }

/-- Stops the machine and takes its program. The memory stays for inspection. -/
def release (m : Machine) : Machine × Option Code :=
  let stopped := m.stop
  ({ stopped with state := { stopped.state with registers := {} }, program := none }, m.program)

def start (m : Machine) (mode : Mode) : Machine × Except Trap Unit :=
  if m.program.isNone then m.refuse .noProgram
  else if !m.isStopped then m.refuse .busy
  else ({ m.clear with mode }, .ok ())

def limitReached (m : Machine) : Option Nat :=
  match m.stepLimit with
  | some limit => if limit ≤ m.steps then some limit else none
  | none => none

/-- Steps until the program ends, if that takes fewer than `n` instructions. -/
def proceed (g : Graph) : Nat → Machine → Option (Machine × Except Trap Unit)
  | 0, _ => none
  | n + 1, m =>
    match m.limitReached with
    | some limit => some (m.refuse (.stepLimit limit))
    | none =>
      match m.step g with
      | (m, .ok true) => proceed g n m
      | (m, .ok false) => some (m, .ok ())
      | (m, .error t) => some (m, .error t)

/-- The machine after a run: stopped, unless a fault broke it off. -/
def settle {α : Type} : Machine × Except Trap α → Machine × Except Trap α
  | (m, .error (.fault f)) => (m, .error (.fault f))
  | (m, result) => (m.stop, result)

/-- Runs the program from its first instruction to its end, if that takes fewer than `n` instructions. -/
def run (g : Graph) (n : Nat) (m : Machine) : Option (Machine × Except Trap Unit) :=
  match m.start .running with
  | (m, .error t) => some (m, .error t)
  | (m, .ok ()) => (proceed g n m).map settle

/-- Pauses before the first instruction. -/
def debug (g : Graph) (m : Machine) : Machine × Except Trap Unit :=
  match m.start .debugging with
  | (m, .error t) => (m, .error t)
  | (m, .ok ()) => ({ m with nextNode := some g.root }, .ok ())

/-- The machine after a debugged step that others follow. -/
def lookAhead (m : Machine) : Machine :=
  match m.nextOp? with
  | some (.eval id) => { m with nextNode := some id }
  | _ => m

def stepOver (g : Graph) (m : Machine) : Machine × Except Trap Bool :=
  if !m.isDebugging then m.refuse .notRunning
  else
    match m.step g with
    | (m, .ok true) => (m.lookAhead, .ok true)
    | result => settle result

/-! ## Inspection -/

/-- The value of a variable that is pushed and initialized. -/
def readVariable (m : Machine) (id : NodeId) : Option Value := (m.state.memory.pushed? id).join

/-- What an input linked to a node would read now. -/
def valueOf (g : Graph) (m : Machine) (id : NodeId) : Except Fault (Option Value) :=
  match g.read m.state.memory id with
  | .ok v => .ok (some v)
  | .error (.error _) => .ok none
  | .error (.fault f) => .error f

end Machine

end FlowGraph
