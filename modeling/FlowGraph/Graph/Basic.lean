import FlowGraph.Library.Basic
import FlowGraph.Node.Layout
import FlowGraph.Scope

/-!
# Program graphs

A graph keeps its nodes and scopes in an arena, lists its links by kind, and queues an event for every
change. Whoever shares the supply of identifiers with other graphs passes it along in `ids`.

Reading through a handle that does not resolve is a fault. An edit gives the graph after it; one that can be
refused gives the graph and the refusal.
-/

namespace FlowGraph

@[reducible]
def Element.Item : Element → Type
  | .node => Node
  | .scope => Scope

abbrev Heap := Arena Element.Item

structure Config where
  /-- The capacity of flow inputs and of value outputs. -/
  fanIn : Nat := 8
  /-- Whether an unlinked literal is folded into the input it is connected to. -/
  mergeLiterals : Bool := false
deriving DecidableEq, Repr

/-- A change, for a view to replay. -/
inductive Event
  | nodeAdded (node : NodeId)
  | nodeRemoved (node : NodeId)
  | linkAdded (link : Link)
  | linkRemoved (link : Link)
  /-- No scope means that the node left the one it was in. -/
  | nodeScoped (node : NodeId) (scope : Option ScopeId)
  | reset
deriving DecidableEq, Repr

structure Graph where
  arena : Heap := {}
  ids : IdSupply := {}
  library : Library
  config : Config := {}
  nodes : List NodeId := []
  valueLinks : List Link := []
  flowLinks : List Link := []
  root : NodeId := .null
  /-- Pending events, oldest first. -/
  events : List Event := []

namespace Graph

/-! ## Reading -/

def node? (g : Graph) (id : NodeId) : Except Fault (Option Node) :=
  match g.arena.get id with
  | .ok n => .ok n
  | .error e => .error (.mistyped e)

def scope? (g : Graph) (id : ScopeId) : Except Fault (Option Scope) :=
  match g.arena.get id with
  | .ok s => .ok s
  | .error e => .error (.mistyped e)

def node (g : Graph) (id : NodeId) : Except Fault Node := do
  match ← g.node? id with
  | some n => return n
  | none => throw (.danglingNode id)

def scope (g : Graph) (id : ScopeId) : Except Fault Scope := do
  match ← g.scope? id with
  | some s => return s
  | none => throw (.danglingScope id)

def contains (g : Graph) (id : NodeId) : Bool := g.arena.contains id

def length (g : Graph) : Nat := g.nodes.length

def isEmpty (g : Graph) : Bool := g.nodes.length == 1

def scopes (g : Graph) : List ScopeId := g.arena.handles .scope

def links (g : Graph) : SlotKind → List Link
  | .value => g.valueLinks
  | .flow => g.flowLinks

def rootScope (g : Graph) : Except Fault ScopeId := do
  match (← g.node g.root).internalScope with
  | some s => return s
  | none => throw (.danglingScope .null)

def referencedVariable (g : Graph) (id : NodeId) : Except Fault (Option NodeId) := do
  let n ← g.node id
  if n.kind = .variableRef then return (n.valueIn?.bind Slot.first?).map (·.node) else return none

/-! ## Slots -/

def slot? (g : Graph) (r : SlotRef) : Except Fault (Option Slot) := do
  return (← g.node? r.node).bind (·.slot? r.slot)

/-- The address of a slot that `find` picks on a node. -/
def findSlot? (g : Graph) (id : NodeId) (find : Node → Option Slot) : Except Fault (Option SlotRef) := do
  return (← g.node? id).bind fun n => (find n).map n.slotRef

def valueOut? (g : Graph) (id : NodeId) : Except Fault (Option SlotRef) := g.findSlot? id Node.valueOut?

def valueIn? (g : Graph) (id : NodeId) : Except Fault (Option SlotRef) := g.findSlot? id Node.valueIn?

def input? (g : Graph) (id : NodeId) (name : String) : Except Fault (Option SlotRef) :=
  g.findSlot? id (·.findSlotNamed? name .input)

def flowIn? (g : Graph) (id : NodeId) : Except Fault (Option SlotRef) := g.findSlot? id Node.prevSlot?

def flowOut? (g : Graph) (id : NodeId) : Except Fault (Option SlotRef) := g.findSlot? id Node.nextSlot?

def branchOut? (g : Graph) (id : NodeId) (side : Side) : Except Fault (Option SlotRef) :=
  g.findSlot? id (·.branchOut? side)

/-! ## Writing -/

def modifyNode (g : Graph) (id : NodeId) (f : Node → Node) : Graph :=
  { g with arena := g.arena.update id f }

def modifyScope (g : Graph) (id : ScopeId) (f : Scope → Scope) : Graph :=
  { g with arena := g.arena.update id f }

def modifySlot (g : Graph) (r : SlotRef) (f : Slot → Slot) : Graph :=
  g.modifyNode r.node (·.modifySlot r.slot f)

def modifyLinks (g : Graph) (kind : SlotKind) (f : List Link → List Link) : Graph :=
  match kind with
  | .value => { g with valueLinks := f g.valueLinks }
  | .flow => { g with flowLinks := f g.flowLinks }

def emit (g : Graph) (e : Event) : Graph := { g with events := g.events ++ [e] }

def drainEvents (g : Graph) : List Event × Graph := (g.events, { g with events := [] })

def allocate (g : Graph) (k : Element) (build : Handle k → k.Item) : Except Fault (Handle k × Graph) :=
  match g.arena.create g.ids k build with
  | some (h, arena, ids) => .ok (h, { g with arena, ids })
  | none => .error .idsExhausted

def setValue (g : Graph) (id : NodeId) (value : Value) : Except Fault Graph := do
  let _ ← g.node id
  return g.modifyNode id (·.modifyProperty 0 (·.setValue value))

def setPropertyValue (g : Graph) (id : NodeId) (name : String) (value : Value) :
    Except Fault (Bool × Graph) := do
  match (← g.node id).properties.find? name with
  | none => return (false, g)
  | some i => return (true, g.modifyNode id (·.modifyProperty i (·.setValue value)))

end Graph

end FlowGraph
