import FlowGraph.Code
import FlowGraph.Graph.Basic
import Std.Data.ExtTreeSet

/-!
# Machine state

What instructions work on: the registers, and a memory kept apart from the graph. The memory holds the last
value of every evaluated node and, for the variables that are pushed, a value once they are initialized. A
trap leaves the state as it was when it sprang.
-/

namespace FlowGraph

/-- Misuse of the machine, or an error while executing. -/
inductive MachineError
  | noProgram
  | alreadyLoaded
  | notRunning
  | busy
  | outOfBounds (line : Nat) (offset : Int) (size : Nat)
  | unknownNode (node : NodeId)
  | variableNotPushed (node : NodeId)
  | unresolved (node : NodeId)
  | call (node : NodeId) (error : CallError)
  | stepLimit (limit : Nat)
deriving DecidableEq, Repr

def MachineError.message : MachineError → String
  | noProgram => "no program is loaded"
  | alreadyLoaded => "a program is already loaded, release it first"
  | notRunning => "no program is being debugged"
  | busy => "a program is already running"
  | outOfBounds line offset size =>
    "instruction cursor left the program: line " ++ toString line ++ " jumped by " ++ toString offset
      ++ " (program has " ++ toString size ++ " instructions)"
  | unknownNode node => node.text ++ " is not a node of the graph"
  | variableNotPushed node =>
    "variable " ++ node.text ++ " is used outside of its push_var/pop_var range"
  | unresolved node => node.text ++ " does not resolve to a library function"
  | call node error => "call to " ++ node.text ++ " failed: " ++ error.message
  | stepLimit limit => "step limit of " ++ toString limit ++ " instructions reached"

inductive Trap
  | error (e : MachineError)
  | fault (f : Fault)

structure Registers where
  rax : Word := 0
  rdx : Word := 0
  eip : Word := 0
deriving DecidableEq, Repr

namespace Registers

def read (r : Registers) : Register → Word
  | .rax => r.rax
  | .rdx => r.rdx
  | .eip => r.eip

def write (r : Registers) (register : Register) (word : Word) : Registers :=
  match register with
  | .rax => { r with rax := word }
  | .rdx => { r with rdx := word }
  | .eip => { r with eip := word }

def cursor (r : Registers) : Nat := r.eip.toNat

def setCursor (r : Registers) (line : Nat) : Registers := { r with eip := line.toUInt64 }

end Registers

structure Memory where
  /-- The last value of every evaluated node that is not a variable. -/
  values : Std.ExtTreeMap Nat Value := ∅
  /-- The pushed variables. They have no value until their declaration is evaluated. -/
  pushed : Std.ExtTreeMap Nat (Option Value) := ∅

namespace Memory

def value? (m : Memory) (id : NodeId) : Option Value := m.values[id.raw]?

def setValue (m : Memory) (id : NodeId) (v : Value) : Memory :=
  { m with values := m.values.insert id.raw v }

def pushed? (m : Memory) (id : NodeId) : Option (Option Value) := m.pushed[id.raw]?

/-- A variable that is pushed again starts over. -/
def push (m : Memory) (id : NodeId) : Memory :=
  { m with pushed := m.pushed.insert id.raw none }

def pop (m : Memory) (id : NodeId) : Memory := { m with pushed := m.pushed.erase id.raw }

def setVariable (m : Memory) (id : NodeId) (v : Value) : Memory :=
  { m with pushed := m.pushed.insert id.raw (some v) }

end Memory

structure State where
  registers : Registers := {}
  memory : Memory := {}
  lastEvaluated : Option NodeId := none
  visited : Std.ExtTreeSet Nat := ∅

/-- A computation on the state. What it did before a trap stays done. -/
abbrev Exec := ExceptT Trap (StateM State)

namespace Exec

def fail {α : Type} (e : MachineError) : Exec α := throw (.error e)

def lift {α : Type} (x : Except Fault α) : Exec α :=
  match x with
  | .ok a => pure a
  | .error f => throw (.fault f)

def modifyMemory (f : Memory → Memory) : Exec Unit := modify fun s => { s with memory := f s.memory }

def write (register : Register) (word : Word) : Exec Unit :=
  modify fun s => { s with registers := s.registers.write register word }

end Exec

end FlowGraph
