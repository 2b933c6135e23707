import Mathlib.Algebra.GroupWithZero.Nat
import Mathlib.Data.List.Nodup
import FlowGraph.Proofs.Arena.Dictionary
import FlowGraph.Proofs.Arena.Items

/-!
# Arenas refine dictionaries

Whatever commands an arena has carried out, it answers as the dictionary that carried out the same ones. The view
`lookup?` is what ties the two together: each command keeps it equal to the dictionary, and everything an arena can
be asked follows from it, because records and stores are in bijection.
-/

namespace FlowGraph

/-- Both fail alike, or both give results, which are related. -/
def Agree {ε α β : Type} (R : α → β → Prop) : Except ε α → Except ε β → Prop
  | .ok a, .ok b => R a b
  | .error e, .error e' => e = e'
  | _, _ => False

section

variable {ε ε' α β γ δ : Type} {R : α → β → Prop} {S : γ → δ → Prop} {x : Except ε α} {y : Except ε β}

theorem Agree.mono {S : α → β → Prop} (h : Agree R x y) (himp : ∀ a b, R a b → S a b) : Agree S x y := by
  cases x with
  | error e =>
    cases y with
    | error e' => exact h
    | ok b => exact h
  | ok a =>
    cases y with
    | error e' => exact h
    | ok b => exact himp a b h

theorem Agree.bind (h : Agree R x y) {f : α → Except ε γ} {g : β → Except ε δ}
    (hnext : ∀ a b, R a b → Agree S (f a) (g b)) : Agree S (x >>= f) (y >>= g) := by
  cases x with
  | error e =>
    cases y with
    | error e' => exact h
    | ok b => exact h.elim
  | ok a =>
    cases y with
    | error e' => exact h.elim
    | ok b => exact hnext a b h

theorem Agree.mapError (h : Agree R x y) (f : ε → ε') : Agree R (x.mapError f) (y.mapError f) := by
  cases x with
  | error e =>
    cases y with
    | error e' => exact congrArg f h
    | ok b => exact h.elim
  | ok a =>
    cases y with
    | error e' => exact h.elim
    | ok b => exact h

end

namespace Arena

variable {κ : Type} {Item : κ → Type} [DecidableEq κ] {k : κ} {a : Arena Item} {m : Dictionary Item} {ids : IdSupply}

def write (a : Arena Item) (h : Handle k) (f : Item k → Item k) : Except (Mistyped κ) (Bool × Arena Item) := do
  return ((← a.get h).isSome, a.update h f)

def perform (a : Arena Item) (ids : IdSupply) :
    Command Item → Except (Refusal κ) (Answer Item × Arena Item × IdSupply)
  | .create k build =>
    match a.create ids k build with
    | none => .error .exhausted
    | some (h, a, ids) => .ok (.created k h, a, ids)
  | .destroy k h => do
    let (item, a) ← (a.destroy h).mapError .mistyped
    return (.destroyed k item, a, ids)
  | .destroyAll _ hs => do
    let (n, a) ← (a.destroyAll hs).mapError .mistyped
    return (.count n, a, ids)
  | .write _ h f => do
    let (found, a) ← (a.write h f).mapError .mistyped
    return (.written found, a, ids)
  | .issueElsewhere =>
    match ids.issue with
    | none => .error .exhausted
    | some (id, ids) => .ok (.issued id, a, ids)

/-- Carries out the commands in turn. The first refusal ends the run. -/
def run (a : Arena Item) (ids : IdSupply) :
    List (Command Item) → Except (Refusal κ) (List (Answer Item) × Arena Item × IdSupply)
  | [] => .ok ([], a, ids)
  | c :: rest => do
    let (answer, a, ids) ← a.perform ids c
    let (answers, a, ids) ← a.run ids rest
    return (answer :: answers, a, ids)

def Views (a : Arena Item) (m : Dictionary Item) : Prop := ∀ id : Nat, m[id]? = a.lookup? id

theorem Views.get (hv : a.Views m) (h : Handle k) : a.get h = m.resolve h := by
  cases hx : a.lookup? h.raw with
  | none => simp only [Arena.get, Dictionary.resolve, hv h.raw, hx]
  | some e => simp only [Arena.get, Dictionary.resolve, hv h.raw, hx]

theorem Views.tryGet (hv : a.Views m) (h : Handle k) : a.tryGet h = m.tryResolve h := by
  cases hx : a.lookup? h.raw with
  | none => simp only [Arena.tryGet, Dictionary.tryResolve, hv h.raw, hx]
  | some e => simp only [Arena.tryGet, Dictionary.tryResolve, hv h.raw, hx]

omit [DecidableEq κ] in
theorem Views.mem_iff (hv : a.Views m) {id : Nat} : id ∈ m ↔ id ∈ a.records := by
  rw [Std.ExtTreeMap.mem_iff_isSome_getElem?, hv, Option.isSome_iff_ne_none, Ne, lookup?_eq_none_iff, not_not]

theorem Views.insert (hv : a.Views m) {id : Nat} (x : Item k) (fresh : id ∉ a.records) :
    (a.insert id k x fresh).Views (Std.ExtTreeMap.insert m id ⟨k, x⟩) := by
  intro id'
  rw [lookup?_insert, Dictionary.getElem?_insert', hv]

omit [DecidableEq κ] in
theorem Views.erase (hv : a.Views m) (id : Nat) : (a.erase id).Views (Std.ExtTreeMap.erase m id) := by
  intro id'
  rw [lookup?_erase, Dictionary.getElem?_erase', hv]

structure AnswersAs {α : Type} (m : Dictionary Item) (r : α × Arena Item) (s : α × Dictionary Item) : Prop where
  answer : r.1 = s.1
  views : r.2.Views s.2
  known (id : Nat) : id ∈ s.2 → id ∈ m

theorem Views.destroy (hv : a.Views m) (h : Handle k) : Agree (AnswersAs m) (a.destroy h) (m.destroy h) := by
  rw [Arena.destroy, Dictionary.destroy, hv.get]
  cases hx : m.resolve h with
  | error e => exact rfl
  | ok x =>
    cases x with
    | some x => exact ⟨rfl, hv.erase h.raw, fun _ => Std.ExtTreeMap.mem_of_mem_erase⟩
    | none =>
      refine ⟨rfl, fun id => ?_, fun _ => Std.ExtTreeMap.mem_of_mem_erase⟩
      rw [Dictionary.getElem?_erase']
      split
      next hid => rw [hid, ← hv, Dictionary.resolve_eq_none_iff.1 hx]
      next => exact hv id

theorem Views.destroyAll (hv : a.Views m) (hs : List (Handle k)) :
    Agree (AnswersAs m) (a.destroyAll hs) (m.destroyAll hs) := by
  induction hs generalizing a m with
  | nil =>
    have hempty : Std.ExtTreeMap.filter (fun id _ => Dictionary.names ([] : List (Handle k)) id) m = ∅ := by
      ext1 id
      cases hid : m[id]? with
      | none => simp [hid]
      | some e => simp [hid, Dictionary.names]
    refine ⟨?_, fun id => ?_, fun _ => Std.ExtTreeMap.mem_of_mem_filter⟩
    · rw [hempty]
      rfl
    · rw [Std.ExtTreeMap.getElem?_filter', ← hv]
      cases m[id]? <;> rfl
  | cons h hs ih =>
    rw [Dictionary.destroyAll_cons, Arena.destroyAll]
    refine (hv.destroy h).bind fun r s hfirst => ?_
    obtain ⟨x, a₁⟩ := r
    obtain ⟨y, m₁⟩ := s
    obtain rfl : x = y := hfirst.answer
    refine (ih hfirst.views).bind fun r s hrest => ?_
    exact ⟨by rw [hrest.answer], hrest.views, fun id hid => hfirst.known id (hrest.known id hid)⟩

theorem Views.write (hv : a.Views m) (h : Handle k) (f : Item k → Item k) :
    Agree (AnswersAs m) (a.write h f) (m.write h f) := by
  rw [Arena.write, Dictionary.write, hv.get]
  cases hx : m.resolve h with
  | error e => exact rfl
  | ok x =>
    cases x with
    | none =>
      have hnone : a.lookup? h.raw = none := (hv h.raw).symm.trans (Dictionary.resolve_eq_none_iff.1 hx)
      refine ⟨rfl, fun id => ?_, fun _ hid => hid⟩
      rw [update, lookup?_modify, ← hv]
      split
      next hid => rw [hid, hv, hnone]; rfl
      next => rfl
    | some x =>
      have hentry := Dictionary.resolve_eq_some_iff.1 hx
      have hsome : a.lookup? h.raw = some ⟨k, x⟩ := (hv h.raw).symm.trans hentry
      refine ⟨rfl, fun id => ?_, fun id hid => ?_⟩
      · rw [update, lookup?_modify, Dictionary.getElem?_insert', hv]
        split
        next hid => simp [hid, hsome]
        next => rfl
      · rcases Std.ExtTreeMap.mem_insert.1 hid with hself | hid
        · rw [Dictionary.compare_eq_iff.1 hself, Std.ExtTreeMap.mem_iff_isSome_getElem?, hentry]
          rfl
        · exact hid

structure TracksDictionary (a : Arena Item) (m : Dictionary Item) (ids : IdSupply) : Prop where
  views : a.Views m
  issued (id : Nat) : id ∈ m → id < ids.next

structure SameAnswers {α : Type} (r : α × Arena Item × IdSupply) (s : α × Dictionary Item × IdSupply) : Prop where
  answer : r.1 = s.1
  supply : r.2.2 = s.2.2
  tracksDictionary : r.2.1.TracksDictionary s.2.1 s.2.2

omit [DecidableEq κ] in
theorem TracksDictionary.follow {α β : Type} (ht : a.TracksDictionary m ids) {x : Except (Mistyped κ) (α × Arena Item)}
    {y : Except (Mistyped κ) (α × Dictionary Item)} (h : Agree (AnswersAs m) x y) (f : α → β) :
    Agree SameAnswers
      (do let (r, a) ← x.mapError Refusal.mistyped; return (f r, a, ids))
      (do let (r, m) ← y.mapError Refusal.mistyped; return (f r, m, ids)) := by
  refine (h.mapError _).bind fun r s hrs => ?_
  exact ⟨congrArg f hrs.answer, rfl, hrs.views, fun id hid => ht.issued id (hrs.known id hid)⟩

theorem TracksDictionary.perform (ht : a.TracksDictionary m ids) (c : Command Item) :
    Agree SameAnswers (a.perform ids c) (m.perform ids c) := by
  cases c with
  | create k build =>
    cases hids : ids.issue with
    | none => simp [Arena.perform, Dictionary.perform, Arena.create, hids, Agree]
    | some issued =>
      obtain ⟨id, ids'⟩ := issued
      obtain ⟨-, hid, rfl⟩ := IdSupply.issue_eq_some_iff.1 hids
      have hfresh : id ∉ a.records := fun hmem => by
        have := ht.issued id (ht.views.mem_iff.2 hmem)
        omega
      have hcreate : a.create ids k build = some (⟨id⟩, a.insert id k (build ⟨id⟩) hfresh, ⟨id + 1⟩) := by
        simp [Arena.create, hids, hfresh]
      simp only [Arena.perform, Dictionary.perform, hids, hcreate]
      refine ⟨rfl, rfl, ht.views.insert (build ⟨id⟩) hfresh, fun id' hmem => ?_⟩
      rcases Std.ExtTreeMap.mem_insert.1 hmem with hself | hmem
      · rw [Dictionary.compare_eq_iff.1 hself]
        exact Nat.lt_succ_self id
      · exact Nat.lt_succ_of_lt (hid ▸ ht.issued id' hmem)
  | destroy k h => exact ht.follow (ht.views.destroy h) (Answer.destroyed k)
  | destroyAll k hs => exact ht.follow (ht.views.destroyAll hs) Answer.count
  | write k h f => exact ht.follow (ht.views.write h f) Answer.written
  | issueElsewhere =>
    cases hids : ids.issue with
    | none => simp [Arena.perform, Dictionary.perform, hids, Agree]
    | some issued =>
      obtain ⟨id, ids'⟩ := issued
      obtain ⟨-, hid, rfl⟩ := IdSupply.issue_eq_some_iff.1 hids
      simp only [Arena.perform, Dictionary.perform, hids]
      exact ⟨rfl, rfl, ht.views, fun id' hmem => Nat.lt_succ_of_lt (hid ▸ ht.issued id' hmem)⟩

theorem TracksDictionary.run (ht : a.TracksDictionary m ids) (commands : List (Command Item)) :
    Agree SameAnswers (a.run ids commands) (m.run ids commands) := by
  induction commands generalizing a m ids with
  | nil => exact ⟨rfl, rfl, ht⟩
  | cons c rest ih =>
    rw [Arena.run, Dictionary.run]
    refine (ht.perform c).bind fun r s hfirst => ?_
    obtain ⟨x, a₁, ids₁⟩ := r
    obtain ⟨y, m₁, ids₂⟩ := s
    obtain rfl : x = y := hfirst.answer
    obtain rfl : ids₁ = ids₂ := hfirst.supply
    refine (ih hfirst.tracksDictionary).bind fun r s hrest => ?_
    exact ⟨by rw [hrest.answer], hrest.supply, hrest.tracksDictionary⟩

omit [DecidableEq κ] in
theorem idAt_eq_some_iff {stores : List (Store Item)} {n p id : Nat} :
    idAt stores ⟨n, p⟩ = some id ↔ ∃ s, stores[n]? = some s ∧ s.ids[p]? = some id := by
  simp only [idAt, entryAt, Option.map_eq_some_iff, Option.bind_eq_some_iff, Store.get?, Store.ids, List.getElem?_map,
    Array.getElem?_toList]
  constructor
  · rintro ⟨_, ⟨s, hs, c, hc, rfl⟩, rfl⟩
    exact ⟨s, hs, c, hc, rfl⟩
  · rintro ⟨s, hs, c, hc, rfl⟩
    exact ⟨_, ⟨s, hs, c, hc, rfl⟩, rfl⟩

omit [DecidableEq κ] in
theorem place_unique (a : Arena Item) {n n' p p' id : Nat} {s s' : Store Item} (hs : a.stores[n]? = some s)
    (hp : s.ids[p]? = some id) (hs' : a.stores[n']? = some s') (hp' : s'.ids[p']? = some id) : n = n' ∧ p = p' := by
  have hsame := record_eq (idAt_eq_some_iff.2 ⟨s, hs, hp⟩) (idAt_eq_some_iff.2 ⟨s', hs', hp'⟩)
  exact ⟨congrArg Record.store hsame, congrArg Record.position hsame⟩

omit [DecidableEq κ] in
theorem nodup_ids (a : Arena Item) : (a.stores.flatMap Store.ids).Nodup := by
  rw [List.nodup_flatMap]
  constructor
  · intro s hs
    obtain ⟨n, hn⟩ := List.mem_iff_getElem?.1 hs
    refine List.pairwise_iff_getElem.2 fun i j hi hj hij heq => ?_
    have hsame := a.place_unique hn (List.getElem?_eq_getElem hi) hn (heq ▸ List.getElem?_eq_getElem hj)
    omega
  · refine List.pairwise_iff_getElem.2 fun i j hi hj hij => ?_
    intro id hid hid'
    obtain ⟨p, hp⟩ := List.mem_iff_getElem?.1 hid
    obtain ⟨p', hp'⟩ := List.mem_iff_getElem?.1 hid'
    have hsame := a.place_unique (List.getElem?_eq_getElem hi) hp (List.getElem?_eq_getElem hj) hp'
    omega

omit [DecidableEq κ] in
theorem mem_ids_iff (a : Arena Item) {id : Nat} : id ∈ a.stores.flatMap Store.ids ↔ id ∈ a.records := by
  rw [List.mem_flatMap, Std.ExtTreeMap.mem_iff_isSome_getElem?, Option.isSome_iff_exists]
  constructor
  · rintro ⟨s, hs, hid⟩
    obtain ⟨n, hn⟩ := List.mem_iff_getElem?.1 hs
    obtain ⟨p, hp⟩ := List.mem_iff_getElem?.1 hid
    exact ⟨⟨n, p⟩, (a.records_iff id _).2 (idAt_eq_some_iff.2 ⟨s, hn, hp⟩)⟩
  · rintro ⟨⟨n, p⟩, hr⟩
    obtain ⟨s, hn, hp⟩ := idAt_eq_some_iff.1 ((a.records_iff id _).1 hr)
    exact ⟨s, List.mem_of_getElem? hn, List.mem_of_getElem? hp⟩

omit [DecidableEq κ] in
theorem live_eq_sum (a : Arena Item) : a.live = (a.stores.map (·.length)).sum := by
  have hperm : a.records.keys.Perm (a.stores.flatMap Store.ids) :=
    (List.perm_ext_iff_of_nodup Std.ExtTreeMap.nodup_keys a.nodup_ids).2 fun id => by
      rw [Std.ExtTreeMap.mem_keys, mem_ids_iff]
  have hlength (s : Store Item) : s.ids.length = s.length := by simp [Store.ids, Store.length]
  rw [live, ← Std.ExtTreeMap.length_keys, hperm.length_eq, List.length_flatMap]
  simp only [hlength]

theorem getElem?_cells {p id : Nat} {x : Item k} :
    (a.cells k)[p]? = some (id, x) ↔ ∃ n, entryAt a.stores ⟨n, p⟩ = some (id, ⟨k, x⟩) :=
  getElem?_cellsOf a.kinds_nodup

theorem nodup_cells (a : Arena Item) (k : κ) : ((a.cells k).map (·.1)).Nodup := by
  refine List.pairwise_iff_getElem.2 fun i j hi hj hij heq => ?_
  rw [List.length_map] at hi hj
  rw [List.getElem_map, List.getElem_map] at heq
  obtain ⟨n, hn⟩ := getElem?_cells.1 (List.getElem?_eq_getElem hi)
  obtain ⟨n', hn'⟩ := getElem?_cells.1 (List.getElem?_eq_getElem hj)
  have hsame : (⟨n, i⟩ : Record) = ⟨n', j⟩ :=
    record_eq (by rw [idAt, hn]; rfl) (by rw [idAt, hn']; exact congrArg some heq.symm)
  exact absurd (congrArg Record.position hsame) (Nat.ne_of_lt hij)

theorem nodup_handles (a : Arena Item) (k : κ) : (a.handles k).Nodup := by
  have hraw : (a.handles k).map Handle.raw = (a.cells k).map (·.1) := by
    rw [handles, List.map_map]
    rfl
  exact .of_map Handle.raw (hraw ▸ a.nodup_cells k)

theorem exists_of_mem_handles {h : Handle k} (hmem : h ∈ a.handles k) : ∃ x, a.item? h = some x := by
  obtain ⟨⟨id, x⟩, hx, rfl⟩ := List.mem_map.1 hmem
  obtain ⟨p, hp⟩ := List.getElem?_of_mem hx
  obtain ⟨n, hn⟩ := getElem?_cells.1 hp
  exact ⟨x, item?_eq_some_iff.2 (lookup?_eq_some_iff.2 ⟨_, hn⟩)⟩

theorem Views.record (hv : a.Views m) (h : Handle k) :
    match m.resolve h with
    | .error e => a.record h = .error e
    | .ok none => a.record h = .ok none
    | .ok (some x) => ∃ r, a.record h = .ok (some r) ∧ (a.cells k)[r.position]? = some (h.raw, x) := by
  rw [← hv.get]
  cases hx : a.get h with
  | error e => rw [Arena.record, hx]; rfl
  | ok x =>
    cases x with
    | none => rw [Arena.record, hx]; rfl
    | some x =>
      have hitem := item?_eq_some_iff.1 (get_eq_some_iff.1 hx)
      obtain ⟨r, hr⟩ := lookup?_eq_some_iff.1 hitem
      refine ⟨r, ?_, getElem?_cells.2 ⟨r.store, hr⟩⟩
      rw [Arena.record, hx]
      exact congrArg Except.ok (records_of_entryAt hr)

end Arena

end FlowGraph
