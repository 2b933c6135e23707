import FlowGraph.Arena.Handle

/-!
# Stores

A store holds the live items of one kind, densely, with their identifiers. Removing an item moves the last
one into its place. A record says in which store an identifier's item is, and where.

The view of a list of stores is `entryAt`: what is held at a record. There is one equation for each way the
stores change.
-/

namespace FlowGraph

variable {κ : Type} {Item : κ → Type}

structure Store (Item : κ → Type) where
  kind : κ
  cells : Array (Nat × Item kind)

structure Record where
  store : Nat
  position : Nat
deriving DecidableEq, Repr

structure Entry (Item : κ → Type) where
  kind : κ
  item : Item kind

/-- Moves the last element into place `i` and drops it from the end. -/
def swapRemove {α : Type} (xs : Array α) (i : Nat) : Array α :=
  match xs.back? with
  | none => xs
  | some last => (xs.setIfInBounds i last).pop

theorem getElem?_swapRemove {α : Type} (xs : Array α) (i j : Nat) :
    (swapRemove xs i)[j]? =
      if j < xs.size - 1 then (if j = i then xs[xs.size - 1]? else xs[j]?) else none := by
  unfold swapRemove
  split
  next h =>
    rw [Array.back?_eq_getElem?, Array.getElem?_eq_none_iff] at h
    rw [if_neg (by omega), Array.getElem?_eq_none (by omega)]
  next last h =>
    rw [Array.back?_eq_getElem?] at h
    have hlt : xs.size - 1 < xs.size := (Array.getElem?_eq_some_iff.1 h).1
    rw [Array.getElem?_pop, Array.size_setIfInBounds, Array.getElem?_setIfInBounds]
    split
    next hj =>
      by_cases hij : i = j
      · subst hij
        simp [show i < xs.size by omega, h]
      · simp [hij, Ne.symm hij]
    next => rfl

namespace Store

def length (s : Store Item) : Nat := s.cells.size

def ids (s : Store Item) : List Nat := s.cells.toList.map (·.1)

def get? (s : Store Item) (position : Nat) : Option (Nat × Entry Item) :=
  s.cells[position]?.map fun (id, item) => (id, ⟨s.kind, item⟩)

def remove (s : Store Item) (position : Nat) : Store Item :=
  { s with cells := swapRemove s.cells position }

def modify (s : Store Item) (position : Nat) (f : Item s.kind → Item s.kind) : Store Item :=
  { s with cells := s.cells.modify position fun (id, item) => (id, f item) }

variable [DecidableEq κ]

/-- The items of a kind, in physical order. -/
def cellsOf (k : κ) : List (Store Item) → List (Nat × Item k)
  | [] => []
  | s :: rest => if h : s.kind = k then h ▸ s.cells.toList else cellsOf k rest

/-- Where the next item of a kind goes: to the end of its store, or to a new store after all others. -/
def nextRecord (k : κ) : List (Store Item) → Record
  | [] => ⟨0, 0⟩
  | s :: rest =>
    if s.kind = k then ⟨0, s.length⟩
    else
      let r := nextRecord k rest
      ⟨r.store + 1, r.position⟩

def push (id : Nat) (k : κ) (item : Item k) : List (Store Item) → List (Store Item)
  | [] => [⟨k, #[(id, item)]⟩]
  | s :: rest =>
    if h : s.kind = k then { s with cells := s.cells.push (id, h.symm ▸ item) } :: rest
    else s :: push id k item rest

end Store

def entryAt (stores : List (Store Item)) (r : Record) : Option (Nat × Entry Item) :=
  stores[r.store]?.bind (·.get? r.position)

def idAt (stores : List (Store Item)) (r : Record) : Option Nat := (entryAt stores r).map (·.1)

theorem entryAt_cons_zero (s : Store Item) (rest : List (Store Item)) (p : Nat) :
    entryAt (s :: rest) ⟨0, p⟩ = s.get? p := rfl

theorem entryAt_cons_succ (s : Store Item) (rest : List (Store Item)) (n p : Nat) :
    entryAt (s :: rest) ⟨n + 1, p⟩ = entryAt rest ⟨n, p⟩ := rfl

section

variable [DecidableEq κ]

/-- A pushed item is where `nextRecord` announced it, and nothing else has changed. -/
theorem entryAt_push (id : Nat) (k : κ) (item : Item k) (stores : List (Store Item)) (r : Record) :
    entryAt (Store.push id k item stores) r =
      if r = Store.nextRecord k stores then some (id, ⟨k, item⟩) else entryAt stores r := by
  induction stores generalizing r with
  | nil =>
    obtain ⟨n, p⟩ := r
    cases n with
    | zero => cases p <;> simp [Store.push, Store.nextRecord, entryAt, Store.get?]
    | succ n => simp [Store.push, Store.nextRecord, entryAt]
  | cons s rest ih =>
    obtain ⟨n, p⟩ := r
    by_cases h : s.kind = k
    · subst h
      cases n with
      | zero =>
        simp only [Store.push, Store.nextRecord, entryAt_cons_zero, Store.get?, Store.length,
          dif_pos, if_true, Record.mk.injEq, true_and]
        rw [Array.getElem?_push]
        split <;> rfl
      | succ n => simp [Store.push, Store.nextRecord, entryAt_cons_succ]
    · cases n with
      | zero => simp [Store.push, Store.nextRecord, h, entryAt_cons_zero]
      | succ n =>
        simp only [Store.push, Store.nextRecord, h, dif_neg, not_false_eq_true, if_false,
          entryAt_cons_succ, ih]
        generalize Store.nextRecord k rest = r'
        obtain ⟨n', p'⟩ := r'
        simp

theorem entryAt_nextRecord (k : κ) (stores : List (Store Item)) :
    entryAt stores (Store.nextRecord k stores) = none := by
  induction stores with
  | nil => rfl
  | cons s rest ih =>
    by_cases h : s.kind = k
    · simp [Store.nextRecord, h, entryAt_cons_zero, Store.get?, Store.length]
    · simpa [Store.nextRecord, h, entryAt_cons_succ] using ih

theorem kinds_push (id : Nat) (k : κ) (item : Item k) (stores : List (Store Item)) :
    (Store.push id k item stores).map (·.kind) =
      if k ∈ stores.map (·.kind) then stores.map (·.kind) else stores.map (·.kind) ++ [k] := by
  induction stores with
  | nil => rfl
  | cons s rest ih =>
    by_cases h : s.kind = k
    · simp [Store.push, h]
    · simp only [Store.push, h, dif_neg, not_false_eq_true, List.map_cons, ih, List.mem_cons,
        Ne.symm h, false_or]
      split <;> simp

end

/-- The position of the last item of a record's store. -/
def lastPosition (stores : List (Store Item)) (r : Record) : Nat :=
  (stores[r.store]?.elim 0 (·.length)) - 1

def removeAt (stores : List (Store Item)) (r : Record) : List (Store Item) :=
  stores.modify r.store (·.remove r.position)

/-- A removal takes the last item of the store to the place that became free. -/
theorem entryAt_removeAt (stores : List (Store Item)) (r r' : Record) :
    entryAt (removeAt stores r) r' =
      if r'.store = r.store then
        if r'.position < lastPosition stores r then
          if r'.position = r.position then entryAt stores ⟨r.store, lastPosition stores r⟩
          else entryAt stores r'
        else none
      else entryAt stores r' := by
  obtain ⟨n, p⟩ := r
  obtain ⟨n', p'⟩ := r'
  unfold entryAt removeAt lastPosition
  simp only [List.getElem?_modify]
  by_cases hn : n = n'
  · subst hn
    simp only [if_true]
    cases hs : stores[n]? with
    | none => simp
    | some s =>
      simp only [Option.map_eq_map, Option.map_some, Option.bind_some, Option.elim_some, Store.remove,
        Store.get?, Store.length, getElem?_swapRemove]
      by_cases hp : p' < s.cells.size - 1
      · by_cases hp' : p' = p
        · subst hp'
          simp [hp]
        · simp [hp, hp']
      · simp [hp]
  · simp [hn, Ne.symm hn]

def modifyAt (stores : List (Store Item)) (r : Record) (f : (k : κ) → Item k → Item k) :
    List (Store Item) :=
  stores.modify r.store fun s => s.modify r.position (f s.kind)

theorem entryAt_modifyAt (stores : List (Store Item)) (r r' : Record)
    (f : (k : κ) → Item k → Item k) :
    entryAt (modifyAt stores r f) r' =
      if r' = r then (entryAt stores r').map fun (id, e) => (id, ⟨e.kind, f e.kind e.item⟩)
      else entryAt stores r' := by
  obtain ⟨n, p⟩ := r
  obtain ⟨n', p'⟩ := r'
  unfold entryAt modifyAt
  simp only [List.getElem?_modify, Record.mk.injEq]
  by_cases hn : n = n'
  · subst hn
    cases hs : stores[n]? with
    | none => simp
    | some s =>
      simp only [if_true, Option.map_eq_map, Option.map_some, Option.bind_some, Store.modify, Store.get?,
        Array.getElem?_modify, true_and]
      by_cases hp : p = p'
      · subst hp
        cases s.cells[p]? <;> simp
      · simp [hp, Ne.symm hp]
  · simp [hn, Ne.symm hn]

theorem kinds_modify (stores : List (Store Item)) (n : Nat) (f : Store Item → Store Item)
    (hf : ∀ s, (f s).kind = s.kind) : (stores.modify n f).map (·.kind) = stores.map (·.kind) := by
  apply List.ext_getElem?
  intro i
  simp only [List.getElem?_map, List.getElem?_modify]
  cases stores[i]? with
  | none => rfl
  | some s => by_cases h : n = i <;> simp [h, hf]

end FlowGraph
