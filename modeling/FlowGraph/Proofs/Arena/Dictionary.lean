import FlowGraph.Arena.Basic

/-!
# Dictionaries

What an arena is to its users: a finite map from identifiers to items, each with its kind. There are no stores,
no records and no positions here, and nothing ever moves. The commands are those that change an arena, and what
they answer.
-/

namespace FlowGraph

variable {κ : Type} {Item : κ → Type}

abbrev Dictionary (Item : κ → Type) := Std.ExtTreeMap Nat (Entry Item)

/-- What changes an arena, besides the identifiers that other arenas take from the common supply. -/
inductive Command (Item : κ → Type)
  | create (k : κ) (build : Handle k → Item k)
  | destroy (k : κ) (h : Handle k)
  | destroyAll (k : κ) (hs : List (Handle k))
  | write (k : κ) (h : Handle k) (f : Item k → Item k)
  | issueElsewhere

inductive Answer (Item : κ → Type)
  | created (k : κ) (h : Handle k)
  | destroyed (k : κ) (item : Option (Item k))
  | count (n : Nat)
  | written (found : Bool)
  | issued (id : Nat)

inductive Refusal (κ : Type)
  | exhausted
  | mistyped (e : Mistyped κ)

namespace Dictionary

variable {k : κ}

theorem compare_eq_iff {i j : Nat} : compare i j = .eq ↔ j = i := by
  rw [Nat.compare_eq_eq, eq_comm]

@[simp]
theorem getElem?_insert' (m : Dictionary Item) (id id' : Nat) (e : Entry Item) :
    (Std.ExtTreeMap.insert m id e)[id']? = if id' = id then some e else m[id']? := by
  simp only [Std.ExtTreeMap.getElem?_insert, compare_eq_iff]

@[simp]
theorem getElem?_erase' (m : Dictionary Item) (id id' : Nat) :
    (Std.ExtTreeMap.erase m id)[id']? = if id' = id then none else m[id']? := by
  simp only [Std.ExtTreeMap.getElem?_erase, compare_eq_iff]

def names (hs : List (Handle k)) (id : Nat) : Bool := hs.any (·.raw == id)

theorem names_cons (h : Handle k) (hs : List (Handle k)) (id : Nat) :
    names (h :: hs) id = (h.raw == id || names hs id) := rfl

theorem getElem?_filter_names (m : Dictionary Item) (h : Handle k) (hs : List (Handle k)) (id : Nat) :
    (Std.ExtTreeMap.filter (fun id _ => names (h :: hs) id) m)[id]? =
      if id = h.raw then m[id]?
      else (Std.ExtTreeMap.filter (fun id _ => names hs id) (Std.ExtTreeMap.erase m h.raw))[id]? := by
  simp only [Std.ExtTreeMap.getElem?_filter', getElem?_erase', names_cons]
  split
  next hid =>
    subst hid
    cases m[h.raw]? with
    | none => rfl
    | some e => simp
  next hid =>
    have hne : (h.raw == id) = false := by simpa using Ne.symm hid
    rw [hne, Bool.false_or]

theorem filter_not_names_cons (m : Dictionary Item) (h : Handle k) (hs : List (Handle k)) :
    Std.ExtTreeMap.filter (fun id _ => !names (h :: hs) id) m =
      Std.ExtTreeMap.filter (fun id _ => !names hs id) (Std.ExtTreeMap.erase m h.raw) := by
  ext1 id
  simp only [Std.ExtTreeMap.getElem?_filter', getElem?_erase', names_cons]
  split
  next hid =>
    subst hid
    cases m[h.raw]? with
    | none => rfl
    | some e => simp
  next hid =>
    have hne : (h.raw == id) = false := by simpa using Ne.symm hid
    rw [hne, Bool.false_or]

variable [DecidableEq κ]

def resolve (m : Dictionary Item) (h : Handle k) : Except (Mistyped κ) (Option (Item k)) :=
  match m[h.raw]? with
  | none => .ok none
  | some e => if hk : e.kind = k then .ok (some (hk ▸ e.item)) else .error ⟨h.raw, k, e.kind⟩

def tryResolve (m : Dictionary Item) (h : Handle k) : Except (LookupError κ) (Item k) :=
  match m[h.raw]? with
  | none => .error (.notFound h.raw)
  | some e => if hk : e.kind = k then .ok (hk ▸ e.item) else .error (.wrongType h.raw k e.kind)

def destroy (m : Dictionary Item) (h : Handle k) : Except (Mistyped κ) (Option (Item k) × Dictionary Item) := do
  return (← m.resolve h, m.erase h.raw)

def clash? (m : Dictionary Item) (h : Handle k) : Option (Mistyped κ) :=
  match m.resolve h with
  | .error e => some e
  | .ok _ => none

def destroyAll (m : Dictionary Item) (hs : List (Handle k)) : Except (Mistyped κ) (Nat × Dictionary Item) :=
  match hs.findSome? m.clash? with
  | some e => .error e
  | none => .ok ((m.filter fun id _ => names hs id).size, m.filter fun id _ => !names hs id)

def write (m : Dictionary Item) (h : Handle k) (f : Item k → Item k) :
    Except (Mistyped κ) (Bool × Dictionary Item) := do
  match ← m.resolve h with
  | none => return (false, m)
  | some x => return (true, m.insert h.raw ⟨k, f x⟩)

def perform (m : Dictionary Item) (ids : IdSupply) :
    Command Item → Except (Refusal κ) (Answer Item × Dictionary Item × IdSupply)
  | .create k build =>
    match ids.issue with
    | none => .error .exhausted
    | some (id, ids) => .ok (.created k ⟨id⟩, m.insert id ⟨k, build ⟨id⟩⟩, ids)
  | .destroy k h => do
    let (item, m) ← (m.destroy h).mapError .mistyped
    return (.destroyed k item, m, ids)
  | .destroyAll _ hs => do
    let (n, m) ← (m.destroyAll hs).mapError .mistyped
    return (.count n, m, ids)
  | .write _ h f => do
    let (found, m) ← (m.write h f).mapError .mistyped
    return (.written found, m, ids)
  | .issueElsewhere =>
    match ids.issue with
    | none => .error .exhausted
    | some (id, ids) => .ok (.issued id, m, ids)

/-- Carries out the commands in turn. The first refusal ends the run. -/
def run (m : Dictionary Item) (ids : IdSupply) :
    List (Command Item) → Except (Refusal κ) (List (Answer Item) × Dictionary Item × IdSupply)
  | [] => .ok ([], m, ids)
  | c :: rest => do
    let (answer, m, ids) ← perform m ids c
    let (answers, m, ids) ← run m ids rest
    return (answer :: answers, m, ids)

variable {m : Dictionary Item}

theorem resolve_eq_none_iff {h : Handle k} : m.resolve h = .ok none ↔ m[h.raw]? = none := by
  rw [resolve]
  cases m[h.raw]? with
  | none => simp
  | some e => by_cases hk : e.kind = k <;> simp [hk]

theorem resolve_eq_some_iff {h : Handle k} {x : Item k} : m.resolve h = .ok (some x) ↔ m[h.raw]? = some ⟨k, x⟩ := by
  rw [resolve]
  cases m[h.raw]? with
  | none => simp
  | some e =>
    obtain ⟨k', y⟩ := e
    by_cases hk : k' = k
    · subst hk
      simp
    · simp [hk]

/-- To take out an entry of the kind asked for makes no handle name an entry of another kind. -/
theorem clash?_erase {h : Handle k} {x : Option (Item k)} (hx : m.resolve h = .ok x) (h' : Handle k) :
    clash? (Std.ExtTreeMap.erase m h.raw) h' = m.clash? h' := by
  by_cases hh : h' = h
  · subst hh
    have hgone : resolve (Std.ExtTreeMap.erase m h'.raw) h' = .ok none :=
      resolve_eq_none_iff.2 (by rw [getElem?_erase', if_pos rfl])
    simp only [clash?, hgone, hx]
  · have hraw : h'.raw ≠ h.raw := fun hraw => hh (Handle.ext hraw)
    simp only [clash?, resolve, getElem?_erase', if_neg hraw]

theorem size_filter_names_cons {h : Handle k} {hs : List (Handle k)} {x : Option (Item k)} (hx : m.resolve h = .ok x) :
    (Std.ExtTreeMap.filter (fun id _ => names (h :: hs) id) m).size =
      (Std.ExtTreeMap.filter (fun id _ => names hs id) (Std.ExtTreeMap.erase m h.raw)).size +
        if x.isSome then 1 else 0 := by
  have hgone : (Std.ExtTreeMap.filter (fun id _ => names hs id) (Std.ExtTreeMap.erase m h.raw))[h.raw]? = none := by
    rw [Std.ExtTreeMap.getElem?_filter', getElem?_erase', if_pos rfl, Option.filter_none]
  cases x with
  | none =>
    have heq : Std.ExtTreeMap.filter (fun id _ => names (h :: hs) id) m =
        Std.ExtTreeMap.filter (fun id _ => names hs id) (Std.ExtTreeMap.erase m h.raw) := by
      ext1 id
      rw [getElem?_filter_names]
      split
      next hid => rw [hid, hgone, resolve_eq_none_iff.1 hx]
      next => rfl
    simp [heq]
  | some x =>
    have heq : Std.ExtTreeMap.filter (fun id _ => names (h :: hs) id) m =
        Std.ExtTreeMap.insert
          (Std.ExtTreeMap.filter (fun id _ => names hs id) (Std.ExtTreeMap.erase m h.raw)) h.raw ⟨k, x⟩ := by
      ext1 id
      rw [getElem?_filter_names, getElem?_insert']
      split
      next hid => rw [hid, resolve_eq_some_iff.1 hx]
      next => rfl
    have hfresh : h.raw ∉ Std.ExtTreeMap.filter (fun id _ => names hs id) (Std.ExtTreeMap.erase m h.raw) := by
      rw [Std.ExtTreeMap.mem_iff_isSome_getElem?, hgone]
      exact Bool.false_ne_true
    rw [heq, Std.ExtTreeMap.size_insert, if_neg (by simpa using hfresh)]
    rfl

theorem destroyAll_cons (m : Dictionary Item) (h : Handle k) (hs : List (Handle k)) :
    m.destroyAll (h :: hs) = do
      let (x, m) ← m.destroy h
      let (n, m) ← destroyAll m hs
      return (if x.isSome then n + 1 else n, m) := by
  cases hx : m.resolve h with
  | error e => simp [destroyAll, destroy, clash?, hx, bind, Except.bind]
  | ok x =>
    have hclash : clash? (k := k) (Std.ExtTreeMap.erase m h.raw) = m.clash? := funext (clash?_erase hx)
    have hfirst : m.clash? h = none := by rw [clash?, hx]
    simp only [destroyAll, destroy, List.findSome?_cons, hfirst, hx, hclash, bind, Except.bind, pure, Except.pure]
    cases hs.findSome? m.clash? with
    | some e => rfl
    | none =>
      simp only [size_filter_names_cons hx, filter_not_names_cons]
      cases x <;> rfl

end Dictionary

end FlowGraph
