import FlowGraph.Arena.Basic
import FlowGraph.Proofs.Outcome
import Mathlib.Data.List.Perm.Subperm

/-!
# Items by kind

The items of one kind are a finite map from handles. There is an equation for what each change of an arena does
to it, and a change through a handle of one kind does nothing to the items of another.
-/

namespace FlowGraph.Arena

variable {κ : Type} {Item : κ → Type} [DecidableEq κ] {k k' : κ} {a : Arena Item}

def item? (a : Arena Item) (h : Handle k) : Option (Item k) :=
  (a.lookup? h.raw).bind fun e => if hk : e.kind = k then some (hk ▸ e.item) else none

theorem item?_eq_some_iff {h : Handle k} {x : Item k} :
    a.item? h = some x ↔ a.lookup? h.raw = some ⟨k, x⟩ := by
  rw [item?, Option.bind_eq_some_iff]
  constructor
  · rintro ⟨⟨k', y⟩, he, hx⟩
    by_cases hk : k' = k
    · subst hk
      rw [dif_pos rfl] at hx
      cases hx
      exact he
    · rw [dif_neg hk] at hx
      cases hx
  · intro h
    exact ⟨_, h, dif_pos rfl⟩

theorem get_eq_some_iff {h : Handle k} {x : Item k} : a.get h = .ok (some x) ↔ a.item? h = some x := by
  rw [get, item?]
  cases a.lookup? h.raw with
  | none => simp
  | some e =>
    by_cases hk : e.kind = k
    · simp [hk]
    · simp [hk]

theorem item?_of_get {h : Handle k} {x : Option (Item k)} (hx : a.get h = .ok x) : a.item? h = x := by
  cases x with
  | some x => exact get_eq_some_iff.1 hx
  | none =>
    rw [get] at hx
    cases hl : a.lookup? h.raw with
    | none => simp [item?, hl]
    | some e =>
      rw [hl] at hx
      by_cases hk : e.kind = k
      · simp [hk] at hx
      · simp [hk] at hx

theorem contains_iff {h : Handle k} : a.contains h = true ↔ (a.item? h).isSome := by
  rw [contains, tryGet, item?]
  cases a.lookup? h.raw with
  | none => simp [Except.isOk, Except.toBool]
  | some e =>
    by_cases hk : e.kind = k
    · simp [hk, Except.isOk, Except.toBool]
    · simp [hk, Except.isOk, Except.toBool]

theorem item?_eq_none_of_fresh {id : Nat} (fresh : id ∉ a.records) : a.item? (⟨id⟩ : Handle k) = none := by
  rw [item?, lookup?_eq_none_iff.2 fresh]
  rfl

theorem item?_insert {id : Nat} {x : Item k} (fresh : id ∉ a.records) (h : Handle k) :
    (a.insert id k x fresh).item? h = if h = ⟨id⟩ then some x else a.item? h := by
  rw [item?, lookup?_insert]
  by_cases hid : h.raw = id
  · have : h = ⟨id⟩ := Handle.ext hid
    simp [this]
  · have : h ≠ ⟨id⟩ := fun he => hid (he ▸ rfl)
    simp [hid, this, item?]

theorem item?_insert_ne {id : Nat} {x : Item k} (fresh : id ∉ a.records) (hk : k ≠ k') (h : Handle k') :
    (a.insert id k x fresh).item? h = a.item? h := by
  rw [item?, lookup?_insert]
  by_cases hid : h.raw = id
  · subst hid
    have hnone : a.item? h = none := item?_eq_none_of_fresh fresh
    simp [hk, hnone]
  · simp [hid, item?]

theorem item?_update {h : Handle k} {f : Item k → Item k} (h' : Handle k) :
    (a.update h f).item? h' = if h' = h then (a.item? h').map f else a.item? h' := by
  rw [update, item?, lookup?_modify]
  by_cases hid : h'.raw = h.raw
  · have : h' = h := Handle.ext hid
    subst this
    cases hl : a.lookup? h'.raw with
    | none => simp [item?, hl]
    | some e =>
      obtain ⟨k', x⟩ := e
      by_cases hk : k' = k
      · subst hk
        simp [item?, hl]
      · simp [item?, hl, hk]
  · have : h' ≠ h := fun he => hid (he ▸ rfl)
    simp [hid, this, item?]

theorem item?_update_ne {h : Handle k} {f : Item k → Item k} (hk : k ≠ k') (h' : Handle k') :
    (a.update h f).item? h' = a.item? h' := by
  rw [update, item?, lookup?_modify]
  by_cases hid : h'.raw = h.raw
  · rw [if_pos hid]
    cases hl : a.lookup? h'.raw with
    | none => simp [item?, hl]
    | some e =>
      obtain ⟨k'', x⟩ := e
      by_cases hk' : k'' = k'
      · subst hk'
        simp [item?, hl, Ne.symm hk]
      · simp [item?, hl, hk']
  · simp [hid, item?]

theorem item?_erase {id : Nat} (h : Handle k) :
    (a.erase id).item? h = if h.raw = id then none else a.item? h := by
  rw [item?, lookup?_erase]
  by_cases hid : h.raw = id
  · simp [hid]
  · simp [hid, item?]

theorem item?_erase_of_ne {h : Handle k} {x : Item k} (hx : a.item? h = some x) (hk : k ≠ k') (h' : Handle k') :
    (a.erase h.raw).item? h' = a.item? h' := by
  rw [item?_erase]
  split
  next hraw =>
    cases hy : a.item? h' with
    | none => rfl
    | some y =>
      have hfound := item?_eq_some_iff.1 hx
      rw [← hraw, item?_eq_some_iff.1 hy] at hfound
      cases hfound
      exact (hk rfl).elim
  next => rfl

theorem item?_destroy {a' : Arena Item} {h : Handle k} {x : Option (Item k)} (hd : a.destroy h = .ok (x, a')) :
    (∀ y : Handle k, a'.item? y = if y = h then none else a.item? y) ∧
      ∀ k', k ≠ k' → ∀ y : Handle k', a'.item? y = a.item? y := by
  simp only [destroy, bind_eq_ok] at hd
  obtain ⟨found, hfound, hd⟩ := hd
  have hfound := item?_of_get hfound
  cases found with
  | none =>
    cases hd
    refine ⟨fun y => ?_, fun _ _ _ => rfl⟩
    split
    next hy => rw [hy, hfound]
    next => rfl
  | some item =>
    cases hd
    refine ⟨fun y => (item?_erase y).trans ?_, fun k' hk y => item?_erase_of_ne hfound hk y⟩
    by_cases hy : y = h
    · rw [if_pos hy, if_pos (congrArg Handle.raw hy)]
    · rw [if_neg hy, if_neg fun hraw => hy (Handle.ext hraw)]

theorem item?_destroyAll {a' : Arena Item} {hs : List (Handle k)} {n : Nat} (hd : a.destroyAll hs = .ok (n, a')) :
    (∀ y : Handle k, a'.item? y = if y ∈ hs then none else a.item? y) ∧
      ∀ k', k ≠ k' → ∀ y : Handle k', a'.item? y = a.item? y := by
  induction hs generalizing a n with
  | nil =>
    cases hd
    exact ⟨fun y => by rw [if_neg List.not_mem_nil], fun _ _ _ => rfl⟩
  | cons h hs ih =>
    simp only [destroyAll, bind_eq_ok] at hd
    obtain ⟨⟨x, a₁⟩, hfirst, ⟨m, a₂⟩, hrest, hd⟩ := hd
    cases hd
    obtain ⟨hsame, hother⟩ := item?_destroy hfirst
    obtain ⟨hsame', hother'⟩ := ih hrest
    refine ⟨fun y => ?_, fun k' hk y => (hother' k' hk y).trans (hother k' hk y)⟩
    rw [hsame', hsame]
    by_cases hy : y = h <;> by_cases hmem : y ∈ hs <;> simp [hy, hmem]

omit [DecidableEq κ] in
theorem kind_mem_of_entryAt {stores : List (Store Item)} {r : Record} {id : Nat} {e : Entry Item}
    (h : entryAt stores r = some (id, e)) : e.kind ∈ stores.map (·.kind) := by
  simp only [entryAt, Option.bind_eq_some_iff, Store.get?, Option.map_eq_some_iff] at h
  obtain ⟨s, hs, _, -, h⟩ := h
  exact List.mem_map.2 ⟨s, List.mem_of_getElem? hs, congrArg (·.2.kind) h⟩

/-- The items of a kind are those of the one store of that kind, at the same positions. -/
theorem getElem?_cellsOf {stores : List (Store Item)} (hnodup : (stores.map (·.kind)).Nodup) {p id : Nat} {x : Item k} :
    (Store.cellsOf k stores)[p]? = some (id, x) ↔ ∃ n, entryAt stores ⟨n, p⟩ = some (id, ⟨k, x⟩) := by
  induction stores with
  | nil => simp [Store.cellsOf, entryAt]
  | cons s rest ih =>
    rw [List.map_cons, List.nodup_cons] at hnodup
    by_cases hk : s.kind = k
    · subst hk
      rw [Store.cellsOf, dif_pos rfl, Array.getElem?_toList]
      constructor
      · intro h
        exact ⟨0, by rw [entryAt_cons_zero, Store.get?, h]; rfl⟩
      · rintro ⟨n, h⟩
        cases n with
        | zero =>
          rw [entryAt_cons_zero, Store.get?, Option.map_eq_some_iff] at h
          obtain ⟨⟨_, _⟩, hp, h⟩ := h
          cases h
          exact hp
        | succ n =>
          rw [entryAt_cons_succ] at h
          exact (hnodup.1 (kind_mem_of_entryAt h)).elim
    · rw [Store.cellsOf, dif_neg hk, ih hnodup.2]
      constructor
      · rintro ⟨n, h⟩
        exact ⟨n + 1, h⟩
      · rintro ⟨n, h⟩
        cases n with
        | zero =>
          rw [entryAt_cons_zero, Store.get?, Option.map_eq_some_iff] at h
          obtain ⟨_, -, h⟩ := h
          exact (hk (congrArg (·.2.kind) h)).elim
        | succ n => exact ⟨n, h⟩

theorem mem_cellsOf {stores : List (Store Item)} (hnodup : (stores.map (·.kind)).Nodup) {r : Record} {id : Nat}
    {x : Item k} (h : entryAt stores r = some (id, ⟨k, x⟩)) : (id, x) ∈ Store.cellsOf k stores :=
  List.mem_of_getElem? ((getElem?_cellsOf hnodup).2 ⟨r.store, h⟩)

theorem mem_handles {h : Handle k} {x : Item k} (hx : a.item? h = some x) : h ∈ a.handles k := by
  obtain ⟨r, hr⟩ := lookup?_eq_some_iff.1 (item?_eq_some_iff.1 hx)
  exact List.mem_map.2 ⟨(h.raw, x), mem_cellsOf a.kinds_nodup hr, rfl⟩

theorem length_le_of_live {hs : List (Handle k)} (hnodup : hs.Nodup) (hlive : ∀ h ∈ hs, ∃ x, a.item? h = some x) :
    hs.length ≤ a.length k := by
  have hsubset : hs ⊆ a.handles k := by
    intro h hmem
    obtain ⟨x, hx⟩ := hlive h hmem
    exact mem_handles hx
  have hle := (List.subperm_of_subset hnodup hsubset).length_le
  rwa [handles, List.length_map] at hle

end FlowGraph.Arena
