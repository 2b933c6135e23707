import FlowGraph.Node.Basic

/-!
# Layouts

The properties and slots of each kind of node. The fan-in is the capacity of flow inputs and value outputs;
all other slots take one link.

* plain, `;`: flow in, flow out, value out
* entry point: a branch into its internal scope
* literal: value out
* variable: flow in, flow out, value in (its initializer), value out
* reference to a variable: value in (the variable), value out
* function, operator: flow in, flow out, value out, a value in for each argument
* `if`, `while`: flow in, flow out, false and true branch, condition in
* `for`: also initialization in and iteration in
-/

namespace FlowGraph.Node

def slotLimit : Nat := 256

section Slots

variable (index : Nat)

def flowInSlot (fanIn : Nat) : Slot :=
  { id := ⟨index⟩, property := 0, kind := .flow, isPrimary := false, isBranch := false
    capacity := fanIn, position := 0 }

def flowOutSlot : Slot :=
  { id := ⟨index⟩, property := 0, kind := .flow, isPrimary := true, isBranch := false
    capacity := 1, position := 0 }

def branchSlot (side : Side) : Slot :=
  { id := ⟨index⟩, property := 0, kind := .flow, isPrimary := true, isBranch := true
    capacity := 1, position := side.index }

def outputSlot (fanIn : Nat) : Slot :=
  { id := ⟨index⟩, property := 0, kind := .value, isPrimary := true, isBranch := false
    capacity := fanIn, position := 0 }

def inputSlot (property : Nat) : Slot :=
  { id := ⟨index⟩, property, kind := .value, isPrimary := false, isBranch := false
    capacity := 1, position := 0 }

end Slots

def valueOf (type : ValueType) (flags : PropertyFlags) : Property :=
  .create "value" type { flags with isNodeValue := true }

def plain (fanIn : Nat) (id : NodeId) : Node :=
  { id, kind := .plain, name := "node"
    properties := ⟨[valueOf .void { isOutput := true }]⟩
    slots := [flowInSlot 0 fanIn, flowOutSlot 1, outputSlot 2 fanIn] }

def emptyInstruction (fanIn : Nat) (id : NodeId) : Node :=
  { plain fanIn id with
    kind := .emptyInstruction, name := ";"
    properties :=
      ⟨[{ valueOf .void { isOutput := true } with token := .owned .endOfInstruction ";" }]⟩ }

def entryPoint (id : NodeId) : Node :=
  { id, kind := .entryPoint, name := "entry point"
    properties := ⟨[valueOf .void {}]⟩
    slots := [branchSlot 0 .onFalse] }

def literal (value : Value) (fanIn : Nat) (id : NodeId) : Node :=
  { id, kind := .literal, name := value.text
    properties := ⟨[(valueOf value.type { isOutput := true }).setValue value]⟩
    slots := [outputSlot 0 fanIn] }

def declaration (type : ValueType) (name : String) (fanIn : Nat) (id : NodeId) : Node :=
  { id, kind := .variable, name
    properties := ⟨[valueOf type { isInput := true, isOutput := true }]⟩
    slots := [flowInSlot 0 fanIn, flowOutSlot 1, inputSlot 2 0, outputSlot 3 fanIn] }

def reference (type : ValueType) (name : String) (fanIn : Nat) (id : NodeId) : Node :=
  { id, kind := .variableRef, name
    properties := ⟨[valueOf type { isInput := true, isOutput := true, isRef := true }]⟩
    slots := [inputSlot 0 0, outputSlot 1 fanIn] }

/-- An operator has one or two operands, and all slots of a node can be numbered in eight bits. -/
def checkInvokable (kind : NodeKind) (s : Signature) : Except Fault Unit :=
  if kind = .operator ∧ ¬(1 ≤ s.arity ∧ s.arity ≤ 2) then .error .operatorArity
  else if slotLimit < s.arity + 3 then .error .tooManySlots
  else .ok ()

/-- Operators name their operands by side, functions by number. -/
def argumentName : NodeKind → Nat → String
  | .operator, 0 => "lvalue"
  | .operator, _ => "rvalue"
  | _, i => "arg" ++ toString i

def argument (kind : NodeKind) (i : Nat) (a : Argument) : Property :=
  .create (argumentName kind i) a.type { isInput := true, isRef := a.byRef }

def invokable (kind : NodeKind) (s : Signature) (fanIn : Nat) (id : NodeId) : Node :=
  { id, kind, name := s.name
    properties :=
      ⟨{ valueOf s.result { isOutput := true } with token := .owned .operator s.name }
        :: s.arguments.mapIdx (argument kind)⟩
    slots := flowInSlot 0 fanIn :: flowOutSlot 1 :: outputSlot 2 fanIn
      :: (List.range s.arity).map fun i => inputSlot (i + 3) (i + 1)
    signature := some s }

inductive Conditional
  | ifElse
  | forLoop
  | whileLoop
deriving DecidableEq, Repr

namespace Conditional

def kind : Conditional → NodeKind
  | ifElse => .ifElse
  | forLoop => .forLoop
  | whileLoop => .whileLoop

def keyword : Conditional → String
  | ifElse => "if"
  | forLoop => "for"
  | whileLoop => "while"

def tokenKind : Conditional → TokenKind
  | ifElse => .ifKeyword
  | forLoop => .forKeyword
  | whileLoop => .whileKeyword

end Conditional

def conditional (c : Conditional) (fanIn : Nat) (id : NodeId) : Node :=
  let value := { valueOf .void {} with token := .owned c.tokenKind c.keyword }
  let condition := Property.create "condition" .bool { isInput := true }
  let initialization := Property.create "initialization" .void { isInput := true }
  let iteration := Property.create "iteration" .void { isInput := true }
  let slots := [flowInSlot 0 fanIn, flowOutSlot 1, branchSlot 2 .onFalse, branchSlot 3 .onTrue,
    inputSlot 4 1]
  let branch : Branch := ⟨⟨4⟩, ⟨3⟩, ⟨2⟩, none, none⟩
  match c with
  | .forLoop =>
    { id, kind := c.kind, name := c.keyword
      properties := ⟨[value, condition, initialization, iteration]⟩
      slots := slots ++ [inputSlot 5 2, inputSlot 6 3]
      branch := some { branch with initialization := some ⟨5⟩, iteration := some ⟨6⟩ } }
  | _ =>
    { id, kind := c.kind, name := c.keyword
      properties := ⟨[value, condition]⟩
      slots
      branch := some branch }

end FlowGraph.Node
