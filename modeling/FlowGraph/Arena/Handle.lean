/-!
# Handles and identifiers

A handle names an item by a number and knows, in its type, which kind of item it names. Nothing else ties a
number to a kind: an arena checks that when it resolves the handle. Numbers are issued once, in increasing
order, to all arenas that share a supply.
-/

namespace FlowGraph

/-- The names of the kinds of items an arena can hold: of their types, and the short ones handles print. -/
class Kind (κ : Type) where
  typeName : κ → String
  shortName : κ → String

structure Handle {κ : Type} (kind : κ) where
  raw : Nat
deriving DecidableEq, Repr

namespace Handle

variable {κ : Type} {kind : κ}

/-- The handle that never resolves. -/
def null : Handle kind := ⟨0⟩

instance : Inhabited (Handle kind) := ⟨null⟩

def isNull (h : Handle kind) : Bool := h.raw == 0

def cast {kind' : κ} (h : Handle kind) : Handle kind' := ⟨h.raw⟩

instance : Ord (Handle kind) := ⟨fun a b => compare a.raw b.raw⟩

def text [Kind κ] (h : Handle kind) : String :=
  if h.isNull then Kind.shortName kind ++ "Id::NULL"
  else Kind.shortName kind ++ "Id(" ++ toString h.raw ++ ")"

theorem ext {a b : Handle kind} (h : a.raw = b.raw) : a = b := by
  cases a
  cases b
  simp_all

end Handle

/-- The source of identifiers. Zero is never issued, and nothing is issued twice. -/
structure IdSupply where
  next : Nat := 1
deriving DecidableEq, Repr

namespace IdSupply

/-- The counter has 32 bits and does not wrap. -/
def limit : Nat := 0xffffffff

def issue (ids : IdSupply) : Option (Nat × IdSupply) :=
  if ids.next < limit then some (ids.next, ⟨ids.next + 1⟩) else none

theorem issue_eq_some_iff {ids ids' : IdSupply} {id : Nat} :
    ids.issue = some (id, ids') ↔ ids.next < limit ∧ id = ids.next ∧ ids' = ⟨id + 1⟩ := by
  unfold issue
  split
  next h =>
    simp only [Option.some.injEq, Prod.mk.injEq, h, true_and]
    constructor
    · rintro ⟨rfl, rfl⟩; exact ⟨rfl, rfl⟩
    · rintro ⟨rfl, rfl⟩; exact ⟨rfl, rfl⟩
  next h => simp [h]

end IdSupply

end FlowGraph
