import FlowGraph.Fault

/-!
# Slots and links

A slot is a connection point of a node, on one of its properties. It carries values or control flow, and is
primary (it produces) or secondary (it consumes). A link joins a primary slot, its tail, to a secondary slot
of the same kind on another node, its head.
-/

namespace FlowGraph

inductive SlotKind
  | value
  | flow
deriving DecidableEq, Repr

structure SlotFlags where
  value : Bool := false
  flow : Bool := false
  primary : Bool := false
  secondary : Bool := false
  branch : Bool := false
  notFull : Bool := false
deriving DecidableEq, Repr

namespace SlotFlags

def input : SlotFlags := { value := true, secondary := true }

def output : SlotFlags := { value := true, primary := true }

def flowIn : SlotFlags := { flow := true, secondary := true }

def flowOut : SlotFlags := { flow := true, primary := true }

def branchOut : SlotFlags := { flow := true, primary := true, branch := true }

def anyFlow : SlotFlags := { flow := true }

/-- Bits beyond the sixth are dropped. -/
def ofBits (n : Nat) : SlotFlags :=
  { value := n.testBit 0, flow := n.testBit 1, primary := n.testBit 2, secondary := n.testBit 3
    branch := n.testBit 4, notFull := n.testBit 5 }

def bits (f : SlotFlags) : Nat :=
  f.value.toNat + 2 * f.flow.toNat + 4 * f.primary.toNat + 8 * f.secondary.toNat
    + 16 * f.branch.toNat + 32 * f.notFull.toNat

def contains (f g : SlotFlags) : Bool :=
  (!g.value || f.value) && (!g.flow || f.flow) && (!g.primary || f.primary)
    && (!g.secondary || f.secondary) && (!g.branch || f.branch) && (!g.notFull || f.notFull)

def kind? (f : SlotFlags) : Option SlotKind :=
  if f.value then some .value else if f.flow then some .flow else none

def typeAndOrder (f : SlotFlags) : SlotFlags := { f with branch := false, notFull := false }

end SlotFlags

structure SlotId where
  index : Nat
deriving DecidableEq, Repr

def SlotId.text (s : SlotId) : String := "SlotId(" ++ toString s.index ++ ")"

structure SlotRef where
  node : NodeId
  slot : SlotId
deriving DecidableEq, Repr

structure Slot where
  id : SlotId
  property : Nat
  kind : SlotKind
  isPrimary : Bool
  /-- A flow output that enters a branch or an internal scope. -/
  isBranch : Bool
  capacity : Nat
  /-- Tells slots of equal traits apart, such as the false and the true branch. -/
  position : Nat
  adjacent : List SlotRef := []
  /-- Kept by the slot: set while there is room for another link. -/
  notFull : Bool := true
deriving DecidableEq, Repr

namespace Slot

def isFull (s : Slot) : Bool := !s.notFull

def flags (s : Slot) : SlotFlags :=
  { value := s.kind = .value, flow := s.kind = .flow, primary := s.isPrimary, secondary := !s.isPrimary
    branch := s.isBranch, notFull := s.notFull }

def hasFlags (s : Slot) (f : SlotFlags) : Bool := s.flags.contains f

def first? (s : Slot) : Option SlotRef := s.adjacent.head?

def isConnectedTo (s : Slot) (other : SlotRef) : Bool := s.adjacent.contains other

/-- Compares the number of links with the capacity again. -/
def refresh (s : Slot) : Slot := { s with notFull := s.adjacent.length < s.capacity }

def attach (s : Slot) (other : SlotRef) : Slot := { s with adjacent := s.adjacent ++ [other] }.refresh

def detach (s : Slot) (other : SlotRef) : Slot :=
  if other ∈ s.adjacent then { s with adjacent := s.adjacent.erase other }.refresh else s

end Slot

structure Link where
  tail : SlotRef
  head : SlotRef
  kind : SlotKind
deriving DecidableEq, Repr

namespace Link

def involves (l : Link) (node : NodeId) : Bool := l.tail.node == node || l.head.node == node

/-- Joins the two slots, whichever is given first. -/
def joins (l : Link) (a b : SlotRef) : Bool :=
  (l.tail == a && l.head == b) || (l.tail == b && l.head == a)

end Link

inductive ConnectError
  | unknownNode (node : NodeId)
  | unknownSlot (slot : SlotRef)
  | sameNode
  | typeMismatch
  | orderMismatch
  | slotFull (slot : SlotRef)
  | alreadyConnected
  | notConnected
  | notAVariable (node : NodeId)
deriving DecidableEq, Repr

def ConnectError.message : ConnectError → String
  | unknownNode node => "unknown node " ++ node.text
  | unknownSlot ⟨node, slot⟩ => node.text ++ " has no slot " ++ slot.text
  | sameNode => "cannot link a node to itself"
  | typeMismatch => "cannot link a value slot to a flow slot"
  | orderMismatch => "a link joins one output to one input"
  | slotFull ⟨node, slot⟩ => "slot " ++ slot.text ++ " of " ++ node.text ++ " is full"
  | alreadyConnected => "slots are already linked"
  | notConnected => "slots are not linked"
  | notAVariable node => node.text ++ " is not a variable"

end FlowGraph
