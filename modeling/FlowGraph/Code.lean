import FlowGraph.Fault
import FlowGraph.Value

/-!
# Code

A program as a list of instructions for a machine with three registers. The line of an instruction is its
place in the list, and jumps are relative to the line of the jump.
-/

namespace FlowGraph

inductive Register
  /-- The accumulator: evaluations and comparisons leave their result here. -/
  | rax
  | rdx
  /-- The line of the next instruction. -/
  | eip
deriving DecidableEq, Repr

def Register.name : Register → String
  | rax => "rax"
  | rdx => "rdx"
  | eip => "eip"

inductive Op
  /-- Compares two registers as booleans. -/
  | cmp (left right : Register)
  | jmp (offset : Int)
  /-- Jumps unless the accumulator holds true. -/
  | jne (offset : Int)
  | mov (target : Register) (word : Word)
  /-- Loads the current value of a node without evaluating it. -/
  | deref (node : NodeId)
  | eval (node : NodeId)
  | pushVar (node : NodeId)
  | popVar (node : NodeId)
  | pushFrame (scope : ScopeId)
  | popFrame (scope : ScopeId)
  | ret
deriving DecidableEq, Repr

namespace Op

def signed (i : Int) : String :=
  if i < 0 then "-" ++ toString i.natAbs else "+" ++ toString i.natAbs

def hex (w : Word) : String := "0x" ++ String.ofList (Nat.toDigits 16 w.toNat)

def text : Op → String
  | cmp left right => "cmp " ++ left.name ++ ", " ++ right.name
  | jmp offset => "jmp " ++ signed offset
  | jne offset => "jne " ++ signed offset
  | mov target word => "mov " ++ target.name ++ ", " ++ hex word
  | deref node => "deref " ++ node.text
  | eval node => "eval " ++ node.text
  | pushVar v => "push_var " ++ v.text
  | popVar v => "pop_var " ++ v.text
  | pushFrame scope => "push_frame " ++ scope.text
  | popFrame scope => "pop_frame " ++ scope.text
  | ret => "ret"

end Op

structure Instruction where
  op : Op
  comment : Option String := none
deriving DecidableEq, Repr

namespace Instruction

def padLeft (width : Nat) (s : String) : String :=
  String.ofList (List.replicate (width - s.length) ' ') ++ s

def padRight (width : Nat) (s : String) : String :=
  s ++ String.ofList (List.replicate (width - s.length) ' ')

def text (i : Instruction) (line : Nat) : String :=
  let number := padLeft 4 (toString line) ++ ": "
  match i.comment with
  | none => number ++ i.op.text
  | some comment => number ++ padRight 28 i.op.text ++ " ; " ++ comment

end Instruction

structure Code where
  instructions : Array Instruction := #[]
deriving DecidableEq, Repr

namespace Code

/-- No program has more lines. -/
def limit : Nat := 0x7fffffffffffffff

def ofList (is : List Instruction) : Code := ⟨is.toArray⟩

def size (c : Code) : Nat := c.instructions.size

def isEmpty (c : Code) : Bool := c.instructions.isEmpty

def get? (c : Code) (line : Nat) : Option Instruction := c.instructions[line]?

def op? (c : Code) (line : Nat) : Option Op := (c.get? line).map (·.op)

def push (c : Code) (i : Instruction) : Code := ⟨c.instructions.push i⟩

/-- Overwrites the operation of a line and keeps its comment. -/
def setOp (c : Code) (line : Nat) (op : Op) : Code := ⟨c.instructions.modify line ({ · with op })⟩

def listing (c : Code) : List String := c.instructions.toList.mapIdx fun line i => i.text line

end Code

end FlowGraph
