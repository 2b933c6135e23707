import FlowGraph.Arena.Store
import Std.Data.ExtTreeMap

/-!
# Arenas

An arena owns items of several kinds, each in the store of its kind, and keeps for every live identifier
the record of where its item is. Stores are listed in the order in which their kinds first appeared.

`lookup?` is the arena's view: a finite map from identifiers to items with their kinds. Creation, removal and
change are the map's insertion, erasure and modification, whatever items a removal moves.
-/

namespace FlowGraph

variable {κ : Type} {Item : κ → Type}

theorem idAt_nil (id : Nat) (r : Record) :
    (∅ : Std.ExtTreeMap Nat Record)[id]? = some r ↔ idAt ([] : List (Store Item)) r = some id := by
  simp [idAt, entryAt]

/-- Records and stores agree: a record stands for an identifier exactly when the stores hold that identifier
at the record. -/
structure Arena (Item : κ → Type) where
  stores : List (Store Item) := []
  records : Std.ExtTreeMap Nat Record := ∅
  kinds_nodup : (stores.map (·.kind)).Nodup := by exact List.nodup_nil
  records_iff (id : Nat) (r : Record) : records[id]? = some r ↔ idAt stores r = some id := by exact idAt_nil

/-- An identifier was resolved as one kind and names an item of another. -/
structure Mistyped (κ : Type) where
  id : Nat
  requested : κ
  stored : κ

def Mistyped.message [Kind κ] (e : Mistyped κ) : String :=
  "handle " ++ toString e.id ++ " resolved as `" ++ Kind.typeName e.requested
    ++ "` but is stored as `" ++ Kind.typeName e.stored ++ "`"

inductive LookupError (κ : Type)
  | notFound (id : Nat)
  | wrongType (id : Nat) (requested stored : κ)

def LookupError.message [Kind κ] : LookupError κ → String
  | notFound id => "handle " ++ toString id ++ " does not resolve to a live object"
  | wrongType id requested stored =>
    "handle " ++ toString id ++ " was requested as `" ++ Kind.typeName requested
      ++ "` but is stored as `" ++ Kind.typeName stored ++ "`"

namespace Arena

instance : Inhabited (Arena Item) := ⟨{}⟩

/-- The view: the item an identifier names, with its kind. -/
def lookup? (a : Arena Item) (id : Nat) : Option (Entry Item) :=
  a.records[id]?.bind fun r => (entryAt a.stores r).map (·.2)

theorem records_of_entryAt {a : Arena Item} {id : Nat} {r : Record} {e : Entry Item}
    (h : entryAt a.stores r = some (id, e)) : a.records[id]? = some r := by
  rw [a.records_iff, idAt, h]
  rfl

theorem entryAt_of_records {a : Arena Item} {id : Nat} {r : Record} (h : a.records[id]? = some r) :
    ∃ e, entryAt a.stores r = some (id, e) := by
  rw [a.records_iff, idAt, Option.map_eq_some_iff] at h
  obtain ⟨⟨_, e⟩, h, rfl⟩ := h
  exact ⟨e, h⟩

theorem lookup?_eq_some_iff {a : Arena Item} {id : Nat} {e : Entry Item} :
    a.lookup? id = some e ↔ ∃ r, entryAt a.stores r = some (id, e) := by
  simp only [lookup?, Option.bind_eq_some_iff, Option.map_eq_some_iff]
  constructor
  · rintro ⟨r, hr, ⟨_, _⟩, he, rfl⟩
    obtain ⟨e', he'⟩ := entryAt_of_records hr
    rw [he'] at he
    obtain ⟨rfl, rfl⟩ := Prod.mk.inj (Option.some.inj he)
    exact ⟨r, he'⟩
  · rintro ⟨r, hr⟩
    exact ⟨r, records_of_entryAt hr, (id, e), hr, rfl⟩

theorem records_eq_none_iff {a : Arena Item} {id : Nat} : a.records[id]? = none ↔ id ∉ a.records := by
  rw [Std.ExtTreeMap.mem_iff_isSome_getElem?]
  simp

theorem lookup?_eq_none_iff {a : Arena Item} {id : Nat} : a.lookup? id = none ↔ id ∉ a.records := by
  rw [← records_eq_none_iff]
  constructor
  · intro h
    cases hr : a.records[id]? with
    | none => rfl
    | some r =>
      obtain ⟨e, he⟩ := entryAt_of_records hr
      rw [lookup?_eq_some_iff.2 ⟨r, he⟩] at h
      cases h
  · intro h
    simp [lookup?, h]

/-! ## Changes -/

section

variable [DecidableEq κ]

def insert (a : Arena Item) (id : Nat) (k : κ) (item : Item k) (fresh : id ∉ a.records) : Arena Item where
  stores := Store.push id k item a.stores
  records := a.records.insert id (Store.nextRecord k a.stores)
  kinds_nodup := by
    rw [kinds_push]
    split
    next => exact a.kinds_nodup
    next h =>
      rw [List.nodup_append]
      refine ⟨a.kinds_nodup, by simp, ?_⟩
      intro x hx y hy hxy
      simp only [List.mem_singleton] at hy
      subst hy hxy
      exact h hx
  records_iff id' r := by
    rw [Std.ExtTreeMap.getElem?_insert, idAt, entryAt_push]
    by_cases hid : id = id'
    · subst hid
      simp only [Std.compare_self, if_true, Option.some.injEq]
      constructor
      · rintro rfl
        simp
      · split
        next h => exact fun _ => h.symm
        next h =>
          intro hr
          exact absurd ((a.records_iff id r).2 hr) (by
            rw [Std.ExtTreeMap.getElem?_eq_none fresh]
            simp)
    · have hcmp : compare id id' ≠ .eq := by simpa using hid
      simp only [hcmp, if_false]
      split
      next h =>
        subst h
        rw [a.records_iff, idAt, entryAt_nextRecord]
        simp [hid]
      next => exact a.records_iff id' r

theorem lookup?_insert (a : Arena Item) (id id' : Nat) (k : κ) (item : Item k) (fresh : id ∉ a.records) :
    (a.insert id k item fresh).lookup? id' = if id' = id then some ⟨k, item⟩ else a.lookup? id' := by
  have hnext := entryAt_nextRecord k a.stores
  apply Option.ext
  intro e
  rw [lookup?_eq_some_iff]
  simp only [insert, entryAt_push]
  split
  next h =>
    subst h
    constructor
    · rintro ⟨r, hr⟩
      split at hr
      next => simpa using hr
      next =>
        exact absurd (records_of_entryAt hr) (by
          rw [Std.ExtTreeMap.getElem?_eq_none fresh]
          simp)
    · intro h
      exact ⟨Store.nextRecord k a.stores, by rw [if_pos rfl]; simpa using h⟩
  next h =>
    rw [lookup?_eq_some_iff]
    constructor
    · rintro ⟨r, hr⟩
      split at hr
      next => simp_all
      next => exact ⟨r, hr⟩
    · rintro ⟨r, hr⟩
      refine ⟨r, ?_⟩
      split
      next h =>
        subst h
        rw [hnext] at hr
        cases hr
      next => exact hr

end

/-- The identifier whose item a removal at `r` moves there. -/
def moved (stores : List (Store Item)) (r : Record) : Option Nat :=
  if lastPosition stores r = r.position then none
  else idAt stores ⟨r.store, lastPosition stores r⟩

theorem position_le_last {stores : List (Store Item)} {r : Record} {x : Nat × Entry Item}
    (h : entryAt stores r = some x) : r.position ≤ lastPosition stores r := by
  unfold entryAt at h
  obtain ⟨s, hs, he⟩ := Option.bind_eq_some_iff.1 h
  obtain ⟨_, hp, -⟩ := Option.map_eq_some_iff.1 he
  have := (Array.getElem?_eq_some_iff.1 hp).1
  simp only [lastPosition, hs, Option.elim_some, Store.length]
  omega

theorem entryAt_last {stores : List (Store Item)} {r : Record} {x : Nat × Entry Item}
    (h : entryAt stores r = some x) : ∃ y, entryAt stores ⟨r.store, lastPosition stores r⟩ = some y := by
  unfold entryAt at h
  obtain ⟨s, hs, he⟩ := Option.bind_eq_some_iff.1 h
  obtain ⟨_, hp, -⟩ := Option.map_eq_some_iff.1 he
  have := (Array.getElem?_eq_some_iff.1 hp).1
  simp only [lastPosition, hs, Option.elim_some, Store.length, entryAt, Option.bind_some, Store.get?]
  exact ⟨_, by rw [Array.getElem?_eq_getElem (by omega)]; rfl⟩

theorem position_le_of_entryAt {stores : List (Store Item)} {r r' : Record} {x : Nat × Entry Item}
    (h : entryAt stores r' = some x) (hs : r'.store = r.store) :
    r'.position ≤ lastPosition stores r := by
  have := position_le_last h
  simpa [lastPosition, hs] using this

/-- The records after the removal of `id` at `r`: the moved item's record follows it. -/
def recordsWithout (a : Arena Item) (id : Nat) (r : Record) : Std.ExtTreeMap Nat Record :=
  match moved a.stores r with
  | none => a.records.erase id
  | some m => (a.records.erase id).insert m r

theorem record_eq {a : Arena Item} {id : Nat} {r r' : Record} (h : idAt a.stores r = some id)
    (h' : idAt a.stores r' = some id) : r = r' :=
  Option.some.inj (((a.records_iff id r).2 h).symm.trans ((a.records_iff id r').2 h'))

/-- The record of the last item of a record's store. -/
def lastRecord (stores : List (Store Item)) (r : Record) : Record := ⟨r.store, lastPosition stores r⟩

theorem entryAt_removeAt_of_live {stores : List (Store Item)} {r : Record} {x : Nat × Entry Item}
    (h : entryAt stores r = some x) (r' : Record) : entryAt (removeAt stores r) r' =
      if r' = lastRecord stores r then none
      else if r' = r then entryAt stores (lastRecord stores r) else entryAt stores r' := by
  obtain ⟨n, q⟩ := r
  obtain ⟨n', q'⟩ := r'
  have hle := position_le_last h
  simp only [lastRecord, entryAt_removeAt, Record.mk.injEq] at hle ⊢
  by_cases hn : n' = n
  · subst hn
    simp only [if_true, true_and]
    rcases Nat.lt_trichotomy q' (lastPosition stores ⟨n', q⟩) with hq | hq | hq
    · rw [if_pos hq, if_neg (Nat.ne_of_lt hq)]
    · rw [if_neg (by omega), if_pos hq]
    · -- there is nothing behind the last item
      have hbeyond : entryAt stores ⟨n', q'⟩ = none := by
        cases hy : entryAt stores ⟨n', q'⟩ with
        | none => rfl
        | some y =>
          have hle' : q' ≤ lastPosition stores ⟨n', q⟩ := position_le_of_entryAt hy rfl
          omega
      rw [if_neg (by omega), if_neg (Nat.ne_of_gt hq), if_neg (by omega), hbeyond]
  · simp only [hn, if_false, false_and]

theorem idAt_removeAt {stores : List (Store Item)} {r : Record} {id : Nat} (h : idAt stores r = some id)
    (r' : Record) : idAt (removeAt stores r) r' =
      if r' = lastRecord stores r then none
      else if r' = r then idAt stores (lastRecord stores r) else idAt stores r' := by
  obtain ⟨x, hx, -⟩ := Option.map_eq_some_iff.1 h
  rw [idAt, entryAt_removeAt_of_live hx]
  split
  next => rfl
  next =>
    split
    next => rfl
    next => rfl

theorem idAt_lastRecord {a : Arena Item} {id : Nat} {r : Record} (h : a.records[id]? = some r) :
    ∃ m, idAt a.stores (lastRecord a.stores r) = some m := by
  obtain ⟨e, he⟩ := entryAt_of_records h
  obtain ⟨⟨m, f⟩, hf⟩ := entryAt_last he
  refine ⟨m, ?_⟩
  rw [idAt, lastRecord, hf]
  rfl

theorem getElem?_recordsWithout {a : Arena Item} {id m : Nat} {r : Record} (h : idAt a.stores r = some id)
    (hm : idAt a.stores (lastRecord a.stores r) = some m) (id' : Nat) :
    (recordsWithout a id r)[id']? =
      if id' = id then none else if id' = m then some r else a.records[id']? := by
  have hcompare (x : Nat) : compare x id' = .eq ↔ id' = x := by rw [Nat.compare_eq_eq, eq_comm]
  by_cases hlast : lastPosition a.stores r = r.position
  · have hmoved : moved a.stores r = none := if_pos hlast
    have hself : lastRecord a.stores r = r := by rw [lastRecord, hlast]
    obtain rfl : id = m := Option.some.inj (h.symm.trans (hself ▸ hm))
    simp only [recordsWithout, hmoved, Std.ExtTreeMap.getElem?_erase, hcompare]
    split <;> rfl
  · have hmoved : moved a.stores r = some m := (if_neg hlast).trans hm
    have hne : id ≠ m := by
      rintro rfl
      exact hlast (congrArg Record.position (record_eq hm h))
    simp only [recordsWithout, hmoved, Std.ExtTreeMap.getElem?_insert, Std.ExtTreeMap.getElem?_erase, hcompare]
    by_cases hid : id' = id
    · rw [if_pos hid, if_pos hid, if_neg (hid ▸ hne)]
    · rw [if_neg hid, if_neg hid]

theorem recordsWithout_iff {a : Arena Item} {id : Nat} {r : Record} (h : a.records[id]? = some r)
    (id' : Nat) (r' : Record) :
    (recordsWithout a id r)[id']? = some r' ↔ idAt (removeAt a.stores r) r' = some id' := by
  have hid : idAt a.stores r = some id := (a.records_iff id r).1 h
  obtain ⟨m, hm⟩ := idAt_lastRecord h
  rw [getElem?_recordsWithout hid hm, idAt_removeAt hid]
  by_cases hself : id' = id
  · subst hself
    rw [if_pos rfl]
    refine ⟨nofun, fun hc => ?_⟩
    split at hc
    next => cases hc
    next hlast =>
      split at hc
      next hr =>
        subst hr
        exact (hlast (record_eq hid hc)).elim
      next hr => exact (hr (record_eq hc hid)).elim
  · by_cases hmoved : id' = m
    · subst hmoved
      have hne : r ≠ lastRecord a.stores r := by
        intro hr
        rw [← hr, hid] at hm
        exact hself (Option.some.inj hm).symm
      rw [if_neg hself, if_pos rfl]
      constructor
      · rintro ⟨⟩
        rw [if_neg hne, if_pos rfl, hm]
      · intro hc
        split at hc
        next => cases hc
        next hlast =>
          split at hc
          next hr => rw [hr]
          next => exact (hlast (record_eq hc hm)).elim
    · rw [if_neg hself, if_neg hmoved, a.records_iff]
      split
      next hr =>
        rw [hr, hm]
        exact ⟨fun hc => (hmoved (Option.some.inj hc).symm).elim, nofun⟩
      next =>
        split
        next hr =>
          rw [hr, hid, hm]
          exact ⟨fun hc => (hself (Option.some.inj hc).symm).elim, fun hc => (hmoved (Option.some.inj hc).symm).elim⟩
        next => rfl

/-- Removes an identifier's item; an identifier that is not live is left alone. -/
def erase (a : Arena Item) (id : Nat) : Arena Item :=
  match h : a.records[id]? with
  | none => a
  | some r =>
    { stores := removeAt a.stores r
      records := recordsWithout a id r
      kinds_nodup := by
        rw [removeAt, kinds_modify _ _ (·.remove r.position) fun _ => rfl]
        exact a.kinds_nodup
      records_iff := recordsWithout_iff h }

theorem records_erase (a : Arena Item) (id id' : Nat) :
    id' ∈ (a.erase id).records ↔ id' ≠ id ∧ id' ∈ a.records := by
  unfold erase
  split
  next h =>
    refine ⟨fun h' => ⟨?_, h'⟩, And.right⟩
    rintro rfl
    exact records_eq_none_iff.1 h h'
  next r h =>
    obtain ⟨m, hm⟩ := idAt_lastRecord h
    simp only [Std.ExtTreeMap.mem_iff_isSome_getElem?, getElem?_recordsWithout ((a.records_iff id r).1 h) hm]
    by_cases hid : id' = id
    · simp [hid]
    · by_cases hm' : id' = m
      · rw [if_neg hid, if_pos hm', hm', (a.records_iff m _).2 hm]
        simp [← hm', hid]
      · rw [if_neg hid, if_neg hm']
        exact ⟨fun h' => ⟨hid, h'⟩, And.right⟩

theorem lookup?_erase (a : Arena Item) (id id' : Nat) :
    (a.erase id).lookup? id' = if id' = id then none else a.lookup? id' := by
  by_cases hid : id' = id
  · rw [if_pos hid, lookup?_eq_none_iff, records_erase]
    simp [hid]
  · rw [if_neg hid]
    cases hr : a.records[id]? with
    | none =>
      have : a.erase id = a := by
        unfold erase
        split
        · rfl
        · simp_all
      rw [this]
    | some r =>
      cases he : a.lookup? id' with
      | none =>
        rw [lookup?_eq_none_iff] at he ⊢
        rw [records_erase]
        exact fun h => he h.2
      | some e =>
        obtain ⟨r', hr'⟩ := lookup?_eq_some_iff.1 he
        obtain ⟨f, hf⟩ := entryAt_of_records hr
        have hother : r' ≠ r := by
          rintro rfl
          rw [hf] at hr'
          exact hid (Prod.mk.inj (Option.some.inj hr')).1.symm
        have hstores : (a.erase id).stores = removeAt a.stores r := by
          unfold erase
          split
          · simp_all
          · simp_all
        rw [lookup?_eq_some_iff, hstores]
        by_cases hlast : r' = lastRecord a.stores r
        · refine ⟨r, ?_⟩
          rw [entryAt_removeAt_of_live hf, if_neg (hlast ▸ hother.symm), if_pos rfl, ← hlast]
          exact hr'
        · refine ⟨r', ?_⟩
          rw [entryAt_removeAt_of_live hf, if_neg hlast, if_neg hother]
          exact hr'

/-- Changes an identifier's item in its place; an identifier that is not live is left alone. -/
def modify (a : Arena Item) (id : Nat) (f : (k : κ) → Item k → Item k) : Arena Item :=
  match a.records[id]? with
  | none => a
  | some r =>
    { stores := modifyAt a.stores r f
      records := a.records
      kinds_nodup := by
        rw [modifyAt, kinds_modify _ _ (fun s => s.modify r.position (f s.kind)) fun _ => rfl]
        exact a.kinds_nodup
      records_iff := by
        intro id' r'
        rw [a.records_iff, idAt, idAt, entryAt_modifyAt]
        split
        · cases entryAt a.stores r' <;> simp
        · rfl }

theorem lookup?_modify (a : Arena Item) (id id' : Nat) (f : (k : κ) → Item k → Item k) :
    (a.modify id f).lookup? id' =
      if id' = id then (a.lookup? id').map fun e => ⟨e.kind, f e.kind e.item⟩ else a.lookup? id' := by
  unfold modify
  split
  next h =>
    split
    next hid =>
      subst hid
      have : a.lookup? id' = none := by simp [lookup?, h]
      simp [this]
    next => rfl
  next r h =>
    simp only [lookup?]
    cases hr : a.records[id']? with
    | none => simp
    | some r' =>
      simp only [Option.bind_some, entryAt_modifyAt]
      by_cases hid : id' = id
      · subst hid
        rw [h] at hr
        obtain rfl := Option.some.inj hr
        simp only [if_true]
        cases entryAt a.stores r <;> rfl
      · have hne : r' ≠ r := by
          rintro rfl
          obtain ⟨e, he⟩ := entryAt_of_records h
          obtain ⟨e', he'⟩ := entryAt_of_records hr
          rw [he] at he'
          exact hid (Prod.mk.inj (Option.some.inj he')).1.symm
        simp [hid, hne]

/-! ## Typed access -/

section

variable [DecidableEq κ] {k : κ}

/-- Resolves a handle. A handle that is not live resolves to nothing; one that names an item of another kind
is refused. -/
def get (a : Arena Item) (h : Handle k) : Except (Mistyped κ) (Option (Item k)) :=
  match a.lookup? h.raw with
  | none => .ok none
  | some e => if hk : e.kind = k then .ok (some (hk ▸ e.item)) else .error ⟨h.raw, k, e.kind⟩

def tryGet (a : Arena Item) (h : Handle k) : Except (LookupError κ) (Item k) :=
  match a.lookup? h.raw with
  | none => .error (.notFound h.raw)
  | some e => if hk : e.kind = k then .ok (hk ▸ e.item) else .error (.wrongType h.raw k e.kind)

def contains (a : Arena Item) (h : Handle k) : Bool := (a.tryGet h).isOk

def record (a : Arena Item) (h : Handle k) : Except (Mistyped κ) (Option Record) := do
  if (← a.get h).isSome then return a.records[h.raw]? else return none

def update (a : Arena Item) (h : Handle k) (f : Item k → Item k) : Arena Item :=
  a.modify h.raw fun k' item => if hk : k' = k then hk ▸ f (hk ▸ item) else item

/-- Adds the item that `build` makes for the handle it will live under. The supply counts as exhausted when
it has no identifier left that is not live. -/
def create (a : Arena Item) (ids : IdSupply) (k : κ) (build : Handle k → Item k) :
    Option (Handle k × Arena Item × IdSupply) := do
  let (id, ids) ← ids.issue
  if fresh : id ∉ a.records then
    return (⟨id⟩, a.insert id k (build ⟨id⟩) fresh, ids)
  else none

def destroy (a : Arena Item) (h : Handle k) : Except (Mistyped κ) (Option (Item k) × Arena Item) := do
  match ← a.get h with
  | none => return (none, a)
  | some item => return (some item, a.erase h.raw)

/-- Removes the items of all handles, one after the other, and counts them. Those that no longer resolve are
passed over. -/
def destroyAll (a : Arena Item) : List (Handle k) → Except (Mistyped κ) (Nat × Arena Item)
  | [] => .ok (0, a)
  | h :: rest => do
    let (item, a) ← a.destroy h
    let (n, a) ← a.destroyAll rest
    return (if item.isSome then n + 1 else n, a)

variable (k)

/-- The live items of a kind with their identifiers, in physical order. -/
def cells (a : Arena Item) : List (Nat × Item k) := Store.cellsOf k a.stores

def handles (a : Arena Item) : List (Handle k) := (a.cells k).map fun (id, _) => ⟨id⟩

def length (a : Arena Item) : Nat := (a.cells k).length

end

def live (a : Arena Item) : Nat := a.records.size

/-- How many items of each kind are live, in the order in which the kinds first appeared. -/
def summary [Kind κ] (a : Arena Item) : String :=
  let stores := a.stores.map fun s =>
    "\"" ++ Kind.typeName s.kind ++ "\": " ++ toString s.length
  "\x7b" ++ String.intercalate ", " stores ++ "\x7d"

end Arena

end FlowGraph
