import FlowGraph.Property
import FlowGraph.Signature
import FlowGraph.Slot

/-!
# Nodes

A node is an element of the program: a bag of properties, of which the first is its value, and a fixed list
of slots on them. Block nodes own an internal scope, and conditional ones know their branch slots.
-/

namespace FlowGraph

inductive NodeKind
  | plain
  | entryPoint
  | emptyInstruction
  | ifElse
  | forLoop
  | whileLoop
  | literal
  | function
  | operator
  | variable
  | variableRef
deriving DecidableEq, Repr

namespace NodeKind

def isConditional : NodeKind → Bool
  | ifElse | forLoop | whileLoop => true
  | _ => false

def isLoop : NodeKind → Bool
  | forLoop | whileLoop => true
  | _ => false

def isInvokable : NodeKind → Bool
  | function | operator => true
  | _ => false

end NodeKind

/-- The sides of a conditional, in the order of its partitions. -/
inductive Side
  | onFalse
  | onTrue
deriving DecidableEq, Repr

/-- The partition of the internal scope, and the position of the branch slot. -/
def Side.index : Side → Nat
  | onFalse => 0
  | onTrue => 1

/-- Branch and condition slots of a conditional. Only a `for` has an initialization and an iteration. -/
structure Branch where
  condition : SlotId
  onTrue : SlotId
  onFalse : SlotId
  initialization : Option SlotId
  iteration : Option SlotId
deriving DecidableEq, Repr

def Branch.slot (b : Branch) : Side → SlotId
  | .onTrue => b.onTrue
  | .onFalse => b.onFalse

structure Node where
  id : NodeId
  kind : NodeKind
  name : String
  properties : PropertyBag
  slots : List Slot
  scope : Option ScopeId := none
  internalScope : Option ScopeId := none
  branch : Option Branch := none
  signature : Option Signature := none
deriving DecidableEq, Repr

namespace Node

def isVariable (n : Node) : Bool := n.kind == .variable

/-- Variables and references to them are evaluated at the declaration, not where they are used. -/
def isVariableLike (n : Node) : Bool := n.kind == .variable || n.kind == .variableRef

def isInvokable (n : Node) : Bool := n.kind.isInvokable

/-! ## Properties -/

def property (n : Node) (i : Nat) : Property := (n.properties.get? i).getD default

def valueProperty (n : Node) : Property := n.property 0

def value (n : Node) : Value := n.valueProperty.value

def modifyProperty (n : Node) (i : Nat) (f : Property → Property) : Node :=
  { n with properties := n.properties.modify i f }

/-! ## Slots -/

def slot? (n : Node) (id : SlotId) : Option Slot := n.slots[id.index]?

def modifySlot (n : Node) (id : SlotId) (f : Slot → Slot) : Node :=
  { n with slots := n.slots.modify id.index f }

def slotRef (n : Node) (s : Slot) : SlotRef := ⟨n.id, s.id⟩

def filterSlots (n : Node) (f : SlotFlags) : List Slot := n.slots.filter (·.hasFlags f)

def findSlot? (n : Node) (f : SlotFlags) : Option Slot := (n.filterSlots f).head?

def findSlotAt? (n : Node) (f : SlotFlags) (position : Nat) : Option Slot :=
  (n.filterSlots f).find? (·.position == position)

def findSlotOf? (n : Node) (property : Nat) (f : SlotFlags) : Option Slot :=
  (n.filterSlots f).find? (·.property == property)

def findSlotNamed? (n : Node) (name : String) (f : SlotFlags) : Option Slot :=
  (n.properties.find? name).bind fun i => n.findSlotOf? i f

/-- The flow output that continues after the node. -/
def nextSlot? (n : Node) : Option Slot := (n.filterSlots .flowOut).find? (!·.isBranch)

def prevSlot? (n : Node) : Option Slot := n.findSlot? .flowIn

def valueIn? (n : Node) : Option Slot := n.findSlotOf? 0 .input

def valueOut? (n : Node) : Option Slot := n.findSlotOf? 0 .output

/-- The flow output into a side of a conditional; on other nodes their only branch, if any. -/
def branchOut? (n : Node) (side : Side) : Option Slot :=
  match n.branch with
  | some b => n.slot? (b.slot side)
  | none => n.findSlot? .branchOut

/-! ## Neighbours -/

/-- The nodes linked to the slots with given flags, in the order of the slots and without repetition. -/
def adjacentNodes (n : Node) (f : SlotFlags) : List NodeId :=
  ((n.filterSlots f).flatMap fun s => s.adjacent.map (·.node)).eraseDups

def inputs (n : Node) : List NodeId := n.adjacentNodes .input

def outputs (n : Node) : List NodeId := n.adjacentNodes .output

def flowInputs (n : Node) : List NodeId := n.adjacentNodes .flowIn

/-- All flow successors, those on branches included. -/
def flowOutputs (n : Node) : List NodeId := n.adjacentNodes .flowOut

def successor? (n : Node) : Option NodeId := (n.nextSlot?.bind Slot.first?).map (·.node)

def hasFlowAdjacent (n : Node) : Bool := (n.filterSlots .anyFlow).any (!·.adjacent.isEmpty)

end Node

end FlowGraph
