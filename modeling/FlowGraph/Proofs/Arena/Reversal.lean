import FlowGraph.Proofs.Arena.Items

/-!
# Changes taken back

An arena is determined by which kinds its stores are of and by what they hold where. So an item that is created, changed
and destroyed again leaves no trace, though a removal can move others: it was the last of its store, and nothing had to
move.
-/

namespace FlowGraph

variable {κ : Type} {Item : κ → Type}

theorem Store.eq_of_get? {s s' : Store Item} (hkind : s.kind = s'.kind)
    (hget : ∀ p, s.get? p = s'.get? p) : s = s' := by
  obtain ⟨k, cells⟩ := s
  obtain ⟨k', cells'⟩ := s'
  obtain rfl : k = k' := hkind
  congr 1
  refine Array.ext_getElem? fun p => ?_
  have hp : cells[p]?.map _ = cells'[p]?.map _ := hget p
  refine Option.map_injective ?_ hp
  rintro ⟨id, x⟩ ⟨id', x'⟩ h
  cases h
  rfl

theorem stores_eq {stores stores' : List (Store Item)} (hkinds : stores.map (·.kind) = stores'.map (·.kind))
    (hentry : ∀ r, entryAt stores r = entryAt stores' r) : stores = stores' := by
  induction stores generalizing stores' with
  | nil =>
    cases stores' with
    | nil => rfl
    | cons s' rest' => cases hkinds
  | cons s rest ih =>
    cases stores' with
    | nil => cases hkinds
    | cons s' rest' =>
      obtain ⟨hkind, hrest⟩ := List.cons.inj hkinds
      rw [Store.eq_of_get? hkind fun p => hentry ⟨0, p⟩, ih hrest fun r => hentry ⟨r.store + 1, r.position⟩]

/-- There are no gaps in a store. -/
theorem exists_entryAt_of_le {stores : List (Store Item)} {n p q : Nat} {x : Nat × Entry Item}
    (h : entryAt stores ⟨n, q⟩ = some x) (hle : p ≤ q) : ∃ y, entryAt stores ⟨n, p⟩ = some y := by
  obtain ⟨s, hs, he⟩ := Option.bind_eq_some_iff.1 h
  obtain ⟨_, hq, -⟩ := Option.map_eq_some_iff.1 he
  have hlt : p < s.cells.size := Nat.lt_of_le_of_lt hle (Array.getElem?_eq_some_iff.1 hq).1
  have hs : stores[n]? = some s := hs
  simp only [entryAt, hs, Option.bind_some, Store.get?, Array.getElem?_eq_getElem hlt, Option.map_some]
  exact ⟨_, rfl⟩

namespace Arena

variable {a b : Arena Item} {id : Nat} {r : Record}

theorem eq_of_stores (h : a.stores = b.stores) : a = b := by
  have hrecords : a.records = b.records := by
    ext1 id
    refine Option.ext fun r => ?_
    rw [a.records_iff, b.records_iff, h]
  cases a
  cases b
  simp_all

theorem eq_of_entryAt (hkinds : a.stores.map (·.kind) = b.stores.map (·.kind))
    (hentry : ∀ r, entryAt a.stores r = entryAt b.stores r) : a = b :=
  eq_of_stores (stores_eq hkinds hentry)

theorem kinds_modifyItem (a : Arena Item) (id : Nat) (f : (k : κ) → Item k → Item k) :
    (a.modify id f).stores.map (·.kind) = a.stores.map (·.kind) := by
  unfold modify
  split
  next => rfl
  next r _ => exact kinds_modify _ _ (fun s => s.modify r.position (f s.kind)) fun _ => rfl

theorem entryAt_modify (a : Arena Item) (id : Nat) (f : (k : κ) → Item k → Item k) (r : Record) :
    entryAt (a.modify id f).stores r =
      (entryAt a.stores r).map fun x => if x.1 = id then (x.1, ⟨x.2.kind, f x.2.kind x.2.item⟩) else x := by
  have hother {r : Record} {x : Nat × Entry Item} (hx : entryAt a.stores r = some x) (hne : a.records[id]? ≠ some r) :
      x.1 ≠ id := by
    rintro rfl
    exact hne (records_of_entryAt hx)
  unfold modify
  split
  next hnone =>
    cases hx : entryAt a.stores r with
    | none => rfl
    | some x => rw [Option.map_some, if_neg (hother hx (by rw [hnone]; nofun))]
  next r₀ hr₀ =>
    rw [entryAt_modifyAt]
    split
    next heq =>
      subst heq
      obtain ⟨e, he⟩ := entryAt_of_records hr₀
      rw [he, Option.map_some, Option.map_some, if_pos rfl]
    next hne =>
      cases hx : entryAt a.stores r with
      | none => rfl
      | some x =>
        have hr : a.records[id]? ≠ some r := fun heq => hne (Option.some.inj (heq.symm.trans hr₀))
        rw [Option.map_some, if_neg (hother hx hr)]

theorem modify_modify {f f' : (k : κ) → Item k → Item k} {e : Entry Item} (hlive : a.lookup? id = some e)
    (hback : f' e.kind (f e.kind e.item) = e.item) : (a.modify id f).modify id f' = a := by
  refine eq_of_entryAt (by rw [kinds_modifyItem, kinds_modifyItem]) fun r => ?_
  rw [entryAt_modify, entryAt_modify]
  cases hx : entryAt a.stores r with
  | none => rfl
  | some x =>
    obtain ⟨id', e'⟩ := x
    by_cases hid : id' = id
    · subst hid
      have he : a.lookup? id' = some e' := lookup?_eq_some_iff.2 ⟨r, hx⟩
      obtain rfl : e = e' := Option.some.inj (hlive.symm.trans he)
      simp [hback]
    · simp [hid]

theorem modify_comm (a : Arena Item) {id id' : Nat} (hne : id ≠ id') (f f' : (k : κ) → Item k → Item k) :
    (a.modify id f).modify id' f' = (a.modify id' f').modify id f := by
  refine eq_of_entryAt (by simp only [kinds_modifyItem]) fun r => ?_
  simp only [entryAt_modify, Option.map_map]
  refine congrArg (Option.map · _) (funext fun (i, e) => ?_)
  simp only [Function.comp_apply]
  by_cases hid : i = id
  · have hid' : i ≠ id' := fun hid' => hne (hid.symm.trans hid')
    rw [if_neg hid', if_pos hid, if_neg hid']
  · rw [if_neg hid]
    by_cases hid' : i = id'
    · rw [if_pos hid', if_neg hid]
    · rw [if_neg hid', if_neg hid]

structure OneMore (a b : Arena Item) (id : Nat) (r : Record) : Prop where
  kinds : b.stores.map (·.kind) = a.stores.map (·.kind)
  free : entryAt a.stores r = none
  entry : ∃ e, ∀ r', entryAt b.stores r' = if r' = r then some (id, e) else entryAt a.stores r'

theorem oneMore_insert [DecidableEq κ] {k : κ} (hkind : k ∈ a.stores.map (·.kind)) (x : Item k)
    (fresh : id ∉ a.records) :
    OneMore a (a.insert id k x fresh) id (Store.nextRecord k a.stores) where
  kinds := (kinds_push id k x a.stores).trans (if_pos hkind)
  free := entryAt_nextRecord k a.stores
  entry := ⟨_, entryAt_push id k x a.stores⟩

theorem OneMore.modify_self (h : OneMore a b id r) (f : (k : κ) → Item k → Item k) (hfresh : a.lookup? id = none) :
    OneMore a (b.modify id f) id r where
  kinds := (kinds_modifyItem b id f).trans h.kinds
  free := h.free
  entry := by
    obtain ⟨e, he⟩ := h.entry
    refine ⟨⟨e.kind, f e.kind e.item⟩, fun r' => ?_⟩
    rw [entryAt_modify, he]
    split
    next => rw [Option.map_some, if_pos rfl]
    next =>
      cases hx : entryAt a.stores r' with
      | none => rfl
      | some x =>
        have hne : x.1 ≠ id := by
          rintro rfl
          rw [lookup?_eq_some_iff.2 ⟨r', hx⟩] at hfresh
          cases hfresh
        rw [Option.map_some, if_neg hne]

theorem OneMore.modify_other (h : OneMore a b id r) {id' : Nat} (hne : id ≠ id') (f : (k : κ) → Item k → Item k) :
    OneMore (a.modify id' f) (b.modify id' f) id r where
  kinds := by rw [kinds_modifyItem, kinds_modifyItem, h.kinds]
  free := by rw [entryAt_modify, h.free]; rfl
  entry := by
    obtain ⟨e, he⟩ := h.entry
    refine ⟨e, fun r' => ?_⟩
    rw [entryAt_modify, he, entryAt_modify]
    split
    next => rw [Option.map_some, if_neg hne]
    next => rfl

theorem OneMore.erase (h : OneMore a b id r) : b.erase id = a := by
  obtain ⟨e, he⟩ := h.entry
  have hself : entryAt b.stores r = some (id, e) := (he r).trans (if_pos rfl)
  have hlast : lastRecord b.stores r = r := by
    obtain ⟨x, hx⟩ := entryAt_last hself
    by_cases heq : lastRecord b.stores r = r
    · exact heq
    · rw [← lastRecord, he, if_neg heq] at hx
      obtain ⟨y, hy⟩ := exists_entryAt_of_le hx (position_le_last hself)
      rw [h.free] at hy
      cases hy
  have hstores : (b.erase id).stores = removeAt b.stores r := by
    have hr := records_of_entryAt hself
    unfold Arena.erase
    split
    next hnone => rw [hr] at hnone; cases hnone
    next r' hr' =>
      rw [hr] at hr'
      cases hr'
      rfl
  refine eq_of_entryAt ?_ fun r' => ?_
  · rw [hstores, removeAt, kinds_modify _ _ (·.remove r.position) fun _ => rfl, h.kinds]
  · rw [hstores, entryAt_removeAt_of_live hself, hlast]
    by_cases heq : r' = r
    · rw [if_pos heq, heq, h.free]
    · rw [if_neg heq, if_neg heq, he, if_neg heq]

section

variable [DecidableEq κ] {k : κ}

theorem update_update {h : Handle k} {f f' : Item k → Item k} {x : Item k} (hx : a.item? h = some x)
    (hback : f' (f x) = x) : (a.update h f).update h f' = a :=
  modify_modify (item?_eq_some_iff.1 hx) (by simp [hback])

theorem update_comm (a : Arena Item) {h h' : Handle k} (hne : h ≠ h') (f f' : Item k → Item k) :
    (a.update h f).update h' f' = (a.update h' f').update h f :=
  modify_comm a (fun hraw => hne (Handle.ext hraw)) _ _

theorem OneMore.update_self {h : Handle k} (ht : OneMore a b h.raw r) (hfresh : h.raw ∉ a.records)
    (f : Item k → Item k) :
    OneMore a (b.update h f) h.raw r :=
  ht.modify_self _ (lookup?_eq_none_iff.2 hfresh)

theorem OneMore.update_other (ht : OneMore a b id r) {h : Handle k} (hne : id ≠ h.raw) (f : Item k → Item k) :
    OneMore (a.update h f) (b.update h f) id r :=
  ht.modify_other hne _

theorem mem_records_update {h : Handle k} {f : Item k → Item k} : id ∈ (a.update h f).records ↔ id ∈ a.records := by
  rw [update, modify]
  split <;> rfl

end

end Arena

end FlowGraph
