import FlowGraph.Fault
import FlowGraph.Token

/-!
# Properties

A property is a named, typed value of a node, with the token that shows it. A literal token follows the
value; a keyword or an operator stays as it was written. A bag holds a node's properties in order and
numbers them from zero. A listing of a bag gives them one after the other, each under its number.
-/

namespace FlowGraph

structure PropertyFlags where
  /-- The node's primary value, which its flow slots hang off. -/
  isNodeValue : Bool := false
  /-- An evaluation writes back through it. -/
  isRef : Bool := false
  isInput : Bool := false
  isOutput : Bool := false
deriving DecidableEq, Repr

namespace PropertyFlags

/-- Bits beyond the fourth are dropped. -/
def ofBits (n : Nat) : PropertyFlags :=
  { isNodeValue := n.testBit 0, isRef := n.testBit 1, isInput := n.testBit 2, isOutput := n.testBit 3 }

def bits (f : PropertyFlags) : Nat :=
  f.isNodeValue.toNat + 2 * f.isRef.toNat + 4 * f.isInput.toNat + 8 * f.isOutput.toNat

def contains (f g : PropertyFlags) : Bool :=
  (!g.isNodeValue || f.isNodeValue) && (!g.isRef || f.isRef) && (!g.isInput || f.isInput)
    && (!g.isOutput || f.isOutput)

end PropertyFlags

structure Property where
  name : String
  type : ValueType
  value : Value
  token : Token
  flags : PropertyFlags
deriving DecidableEq, Repr

namespace Property

/-- A property with its type's default value, shown as a literal. -/
def create (name : String) (type : ValueType) (flags : PropertyFlags) : Property :=
  { name, type, value := type.default, token := .literal type.default, flags }

instance : Inhabited Property := ⟨create "" .void {}⟩

/-- A literal token, or one without text, shows the value. Its surroundings are kept. -/
def setValue (p : Property) (value : Value) : Property :=
  let token := match p.token.kind with
    | .literal _ => { p.token with kind := .literal value.type }.replaceWord value.text
    | _ => if p.token.isEmpty then p.token.replaceWord value.text else p.token
  { p with type := value.type, value, token }

/-- A value of another type gives way to the new type's default. -/
def setType (p : Property) (type : ValueType) : Property :=
  if p.value.type = type then { p with type } else p.setValue type.default

def resetToDefault (p : Property) : Property := p.setValue p.type.default

end Property

structure PropertyBag where
  toList : List Property := []
deriving DecidableEq, Repr

namespace PropertyBag

/-- Numbers have eight bits. -/
def capacity : Nat := 256

/-- A size or a position as a number, if there is such a number. -/
def number? (n : Nat) : Option Nat := if n < capacity then some n else none

def size (b : PropertyBag) : Nat := b.toList.length

def isEmpty (b : PropertyBag) : Bool := b.toList.isEmpty

def find? (b : PropertyBag) (name : String) : Option Nat :=
  (b.toList.findIdx? (·.name == name)).bind number?

def get? (b : PropertyBag) (i : Nat) : Option Property := b.toList[i]?

def modify (b : PropertyBag) (i : Nat) (f : Property → Property) : PropertyBag :=
  ⟨b.toList.modify i f⟩

def add (b : PropertyBag) (p : Property) : Except Fault (Nat × PropertyBag) :=
  if (b.find? p.name).isSome then .error (.duplicateProperty p.name)
  else
    match number? b.size with
    | some i => .ok (i, ⟨b.toList ++ [p]⟩)
    | none => .error .tooManyProperties

/-- A listing under way: the number to be given next, and the properties that are left. -/
structure Listing where
  number : Nat
  rest : List Property

namespace Listing

/-- A number is taken before it is seen whether a property is left for it. Each number taken prepares the next one,
and in eight bits there is none to prepare after the last. -/
def next? (l : Listing) : Except Fault (Option ((Nat × Property) × Listing)) :=
  match number? (l.number + 1) with
  | none => .error .numberingOverflow
  | some following =>
    match l.rest with
    | [] => .ok none
    | p :: ps => .ok (some ((l.number, p), ⟨following, ps⟩))

/-- What the first steps give, so many of them. -/
def take : Nat → Listing → Except Fault (List (Nat × Property))
  | 0, _ => .ok []
  | k + 1, l => do
    match ← l.next? with
    | none => return []
    | some (e, l) => return e :: (← l.take k)

theorem length_rest_of_next? {l l' : Listing} {e : Nat × Property} (h : l.next? = .ok (some (e, l'))) :
    l.rest.length = l'.rest.length + 1 := by
  rw [next?] at h
  split at h
  · cases h
  · split at h
    next => cases h
    next hrest =>
      cases h
      rw [hrest]
      rfl

/-- Step by step, until nothing is left. -/
def toEnd (l : Listing) : Except Fault (List (Nat × Property)) :=
  match _h : l.next? with
  | .error fault => .error fault
  | .ok none => .ok []
  | .ok (some (e, l')) => (e :: ·) <$> l'.toEnd
termination_by l.rest.length
decreasing_by
  have := length_rest_of_next? _h
  omega

end Listing

def listing (b : PropertyBag) : Listing := ⟨0, b.toList⟩

/-- The properties with their numbers, in as many steps as there are properties. -/
def entries (b : PropertyBag) : Except Fault (List (Nat × Property)) := b.listing.take b.size

end PropertyBag

end FlowGraph
