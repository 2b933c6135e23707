import FlowGraph.Proofs.Changes
import FlowGraph.Proofs.Growth
import Mathlib.Data.List.Nodup

/-!
# Links in the registry and in slots

A link is kept in three places: in the registry of its kind, and in the adjacency of its two slots. They agree
in every graph that edits lead to, and no slot holds more than it has room for.
-/

namespace FlowGraph

def Slot.linkTo (slot : Slot) (self other : SlotRef) : Link :=
  if slot.isPrimary then ⟨self, other, slot.kind⟩ else ⟨other, self, slot.kind⟩

theorem Slot.kind_linkTo (slot : Slot) (self other : SlotRef) : (slot.linkTo self other).kind = slot.kind := by
  unfold linkTo
  split <;> rfl

def Slot.RoomKnown (slot : Slot) : Prop :=
  slot.adjacent.length ≤ slot.capacity ∧ slot.notFull = decide (slot.adjacent.length < slot.capacity)

namespace Graph

structure LinksMatch (g : Graph) : Prop where
  links_nodup (k : SlotKind) : (g.links k).Nodup
  joined {k : SlotKind} {l : Link} : l ∈ g.links k → l.kind = k ∧ l.tail.node ≠ l.head.node ∧
    ∃ t h, g.slotAt? l.tail = some t ∧ g.slotAt? l.head = some h ∧ t.kind = k ∧ h.kind = k ∧
      t.isPrimary = true ∧ h.isPrimary = false ∧ l.head ∈ t.adjacent ∧ l.tail ∈ h.adjacent
  registered {r r' : SlotRef} {slot : Slot} : g.slotAt? r = some slot → r' ∈ slot.adjacent →
    slot.linkTo r r' ∈ g.links slot.kind
  adjacent_nodup {r : SlotRef} {slot : Slot} : g.slotAt? r = some slot → slot.adjacent.Nodup
  roomKnown {r : SlotRef} {slot : Slot} : g.slotAt? r = some slot → slot.RoomKnown

variable {g g' : Graph} {l : Link}

theorem slotAt?_modifyLinks (kind : SlotKind) (f : List Link → List Link) (r : SlotRef) :
    (g.modifyLinks kind f).slotAt? r = g.slotAt? r := by
  rw [slotAt?, nodeAt?_modifyLinks, slotAt?]

theorem links_congr (hvalue : g'.valueLinks = g.valueLinks) (hflow : g'.flowLinks = g.flowLinks) (k : SlotKind) :
    g'.links k = g.links k := by
  cases k with
  | value => exact hvalue
  | flow => exact hflow

theorem mem_append_of_links {k : SlotKind} (hl : l ∈ g.links k) : l ∈ g.valueLinks ++ g.flowLinks := by
  cases k with
  | value => exact List.mem_append_left _ hl
  | flow => exact List.mem_append_right _ hl

theorem links_modifyLinks (kind k : SlotKind) (f : List Link → List Link) :
    (g.modifyLinks kind f).links k = if k = kind then f (g.links k) else g.links k := by
  cases kind <;> cases k <;> rfl

theorem links_modifyNode (id : NodeId) (f : Node → Node) (k : SlotKind) :
    (g.modifyNode id f).links k = g.links k :=
  links_congr rfl rfl k

theorem links_modifyScope (s : ScopeId) (f : Scope → Scope) (k : SlotKind) :
    (g.modifyScope s f).links k = g.links k :=
  links_congr rfl rfl k

theorem links_emit (e : Event) (k : SlotKind) : (g.emit e).links k = g.links k :=
  links_congr rfl rfl k

theorem slotAt?_addLink (hne : l.tail ≠ l.head) (r : SlotRef) :
    (g.addLink l).slotAt? r =
      if r = l.tail then (g.slotAt? r).map (·.attach l.head)
      else if r = l.head then (g.slotAt? r).map (·.attach l.tail)
      else g.slotAt? r := by
  have hview : (g.addLink l).slotAt? r =
      ((g.modifySlot l.tail (·.attach l.head)).modifySlot l.head (·.attach l.tail)).slotAt? r :=
    slotAt?_modifyLinks ..
  rw [hview, slotAt?_modifySlot, slotAt?_modifySlot]
  by_cases ht : r = l.tail
  · rw [if_pos ht, if_pos ht, if_neg (ht ▸ hne)]
  · rw [if_neg ht, if_neg ht]

theorem slotAt?_removeLink (hne : l.tail ≠ l.head) (r : SlotRef) :
    (g.removeLink l).slotAt? r =
      if r = l.tail then (g.slotAt? r).map (·.detach l.head)
      else if r = l.head then (g.slotAt? r).map (·.detach l.tail)
      else g.slotAt? r := by
  have hview : (g.removeLink l).slotAt? r = (((g.modifyLinks l.kind (·.erase l)).modifySlot l.tail
      (·.detach l.head)).modifySlot l.head (·.detach l.tail)).slotAt? r := rfl
  rw [hview, slotAt?_modifySlot, slotAt?_modifySlot, slotAt?_modifyLinks]
  by_cases ht : r = l.tail
  · rw [if_pos ht, if_pos ht, if_neg (ht ▸ hne)]
  · rw [if_neg ht, if_neg ht]

theorem links_addLink (k : SlotKind) :
    (g.addLink l).links k = if k = l.kind then g.links k ++ [l] else g.links k := by
  rw [addLink, links_emit, links_modifyLinks, modifySlot, modifySlot, links_modifyNode, links_modifyNode]

theorem links_removeLink (k : SlotKind) :
    (g.removeLink l).links k = if k = l.kind then (g.links k).erase l else g.links k := by
  rw [removeLink, links_emit, modifySlot, modifySlot, links_modifyNode, links_modifyNode, links_modifyLinks]

theorem lookupSlot_eq_ok_iff {r : SlotRef} {slot : Slot} :
    g.lookupSlot r = .ok (.ok slot) ↔ g.slot? r = .ok (some slot) := by
  simp only [lookupSlot, slot?]
  cases g.node? r.node with
  | error f => exact iff_of_false (fun h => by cases h) fun h => by cases h
  | ok found =>
    cases found with
    | none => exact iff_of_false (fun h => by cases h) fun h => by cases h
    | some n =>
      simp only [ok_bind, Option.bind_some]
      cases n.slot? r.slot with
      | none => exact iff_of_false (fun h => by cases h) fun h => by cases h
      | some s => exact ⟨fun h => by cases h; rfl, fun h => by cases h; rfl⟩

theorem lookupSlot_eq_ok {r : SlotRef} {slot : Slot} (h : g.lookupSlot r = .ok (.ok slot)) :
    g.slotAt? r = some slot :=
  slot?_eq_some_iff.1 (lookupSlot_eq_ok_iff.1 h)

structure Joinable (a b : SlotRef) (slotA slotB : Slot) : Prop where
  nodes : a.node ≠ b.node
  kinds : slotA.kind = slotB.kind
  orders : slotA.isPrimary ≠ slotB.isPrimary
  apart : b ∉ slotA.adjacent
  room : slotA.notFull = true
  room' : slotB.notFull = true

theorem linkOf_eq_ok_iff {a b : SlotRef} {slotA slotB : Slot} :
    linkOf a b slotA slotB = .ok l ↔ Joinable a b slotA slotB ∧ l = slotA.linkTo a b := by
  have hlink : (if slotA.isPrimary then .ok ⟨a, b, slotA.kind⟩ else .ok ⟨b, a, slotA.kind⟩) =
      (.ok (slotA.linkTo a b) : Except ConnectError Link) := (apply_ite Except.ok _ _ _).symm
  have hapart : ¬slotA.isConnectedTo b = true ↔ b ∉ slotA.adjacent := by simp [Slot.isConnectedTo]
  have hroom (slot : Slot) : ¬slot.isFull = true ↔ slot.notFull = true := by simp [Slot.isFull]
  simp only [linkOf, ite_error_eq_ok_iff, hlink, hapart, hroom, not_not, Except.ok.injEq]
  constructor
  · rintro ⟨hnodes, hkinds, horders, hapart, hroom, hroom', rfl⟩
    exact ⟨⟨hnodes, hkinds, horders, hapart, hroom, hroom'⟩, rfl⟩
  · rintro ⟨⟨hnodes, hkinds, horders, hapart, hroom, hroom'⟩, rfl⟩
    exact ⟨hnodes, hkinds, horders, hapart, hroom, hroom', rfl⟩

theorem validateLink_eq_ok_iff {a b : SlotRef} :
    g.validateLink a b = .ok (.ok l) ↔ ∃ slotA slotB, g.slotAt? a = some slotA ∧ g.slotAt? b = some slotB ∧
      Joinable a b slotA slotB ∧ l = slotA.linkTo a b := by
  constructor
  · intro h
    obtain ⟨foundA, hA, h⟩ := bind_eq_ok.1 h
    cases foundA with
    | error e => cases h
    | ok slotA =>
      obtain ⟨foundB, hB, h⟩ := bind_eq_ok.1 h
      cases foundB with
      | error e => cases h
      | ok slotB =>
        have hlink : linkOf a b slotA slotB = .ok l := pure_eq_ok.1 h
        exact ⟨slotA, slotB, lookupSlot_eq_ok hA, lookupSlot_eq_ok hB, linkOf_eq_ok_iff.1 hlink⟩
  · rintro ⟨slotA, slotB, hA, hB, hlink⟩
    simp only [validateLink, lookupSlot_eq_ok_iff.2 (slot?_eq_some_iff.2 hA),
      lookupSlot_eq_ok_iff.2 (slot?_eq_some_iff.2 hB), ok_bind]
    exact congrArg Except.ok (linkOf_eq_ok_iff.2 hlink)

structure Linkable (g : Graph) (l : Link) (t h : Slot) : Prop where
  tail : g.slotAt? l.tail = some t
  head : g.slotAt? l.head = some h
  nodes : l.tail.node ≠ l.head.node
  tail_kind : t.kind = l.kind
  head_kind : h.kind = l.kind
  tail_primary : t.isPrimary = true
  head_primary : h.isPrimary = false
  apart : l.head ∉ t.adjacent ∨ l.tail ∉ h.adjacent
  tail_room : t.notFull = true
  head_room : h.notFull = true

theorem Linkable.linkTo_tail {t h : Slot} (hl : Linkable g l t h) : t.linkTo l.tail l.head = l := by
  rw [Slot.linkTo, if_pos hl.tail_primary, hl.tail_kind]

theorem Linkable.linkTo_head {t h : Slot} (hl : Linkable g l t h) : h.linkTo l.head l.tail = l := by
  rw [Slot.linkTo, hl.head_primary, if_neg Bool.false_ne_true, hl.head_kind]

theorem linkable_of_validateLink {a b : SlotRef} (hok : g.validateLink a b = .ok (.ok l)) :
    ∃ t h, Linkable g l t h := by
  obtain ⟨slotA, slotB, hA, hB, h, rfl⟩ := validateLink_eq_ok_iff.1 hok
  have horders := h.orders
  rw [Slot.linkTo]
  split
  next hprimary =>
    refine ⟨slotA, slotB, hA, hB, h.nodes, rfl, h.kinds.symm, hprimary, ?_, .inl h.apart, h.room, h.room'⟩
    simpa [hprimary] using horders
  next hsecondary =>
    rw [Bool.not_eq_true] at hsecondary
    refine ⟨slotB, slotA, hB, hA, h.nodes.symm, h.kinds.symm, rfl, ?_, hsecondary, .inr h.apart, h.room', h.room⟩
    simpa [hsecondary] using horders

end Graph

namespace Slot

variable {slot : Slot} {r : SlotRef}

theorem RoomKnown.attach (h : slot.RoomKnown) (hroom : slot.notFull = true) : (slot.attach r).RoomKnown := by
  obtain ⟨-, hfull⟩ := h
  rw [hroom, eq_comm, decide_eq_true_eq] at hfull
  refine ⟨?_, rfl⟩
  simp only [Slot.attach, refresh, List.length_append, List.length_singleton]
  omega

theorem RoomKnown.detach (h : slot.RoomKnown) : (slot.detach r).RoomKnown := by
  unfold Slot.detach
  split
  next =>
    refine ⟨?_, rfl⟩
    have := List.length_erase_le (a := r) (l := slot.adjacent)
    exact Nat.le_trans this h.1
  next => exact h

theorem detach_of_mem (h : r ∈ slot.adjacent) :
    slot.detach r = { slot with adjacent := slot.adjacent.erase r }.refresh := if_pos h

end Slot

namespace Graph.LinksMatch

variable {g g' : Graph} {l : Link}

theorem congr (h : LinksMatch g) (hslots : ∀ r, g'.slotAt? r = g.slotAt? r) (hlinks : ∀ k, g'.links k = g.links k) :
    LinksMatch g' := by
  refine ⟨?_, ?_, ?_, ?_, ?_⟩
  · intro k
    rw [hlinks]
    exact h.links_nodup k
  · intro k l hl
    rw [hlinks] at hl
    rw [hslots, hslots]
    exact h.joined hl
  · intro r r' slot hslot hr'
    rw [hslots] at hslot
    rw [hlinks]
    exact h.registered hslot hr'
  · intro r slot hslot
    rw [hslots] at hslot
    exact h.adjacent_nodup hslot
  · intro r slot hslot
    rw [hslots] at hslot
    exact h.roomKnown hslot

theorem mem_of_adjacent {t h : Slot} (hw : LinksMatch g) (hl : Linkable g l t h)
    (hadj : l.head ∈ t.adjacent ∨ l.tail ∈ h.adjacent) : l ∈ g.links l.kind := by
  rcases hadj with hadj | hadj
  · have := hw.registered hl.tail hadj
    rwa [hl.linkTo_tail, hl.tail_kind] at this
  · have := hw.registered hl.head hadj
    rwa [hl.linkTo_head, hl.head_kind] at this

theorem eq_of_ends (hw : LinksMatch g) {k k' : SlotKind} {l l' : Link} (hl : l ∈ g.links k) (hl' : l' ∈ g.links k')
    (htail : l.tail = l'.tail) (hhead : l.head = l'.head) : l = l' := by
  obtain ⟨hkind, -, t, -, ht, -, htk, -⟩ := hw.joined hl
  obtain ⟨hkind', -, t', -, ht', -, htk', -⟩ := hw.joined hl'
  rw [htail, ht'] at ht
  obtain rfl : t' = t := Option.some.inj ht
  cases l
  cases l'
  simp only [Link.mk.injEq] at *
  exact ⟨htail, hhead, by rw [hkind, hkind', ← htk, ← htk']⟩

theorem tail_ne_head (hw : LinksMatch g) {k k' : SlotKind} {l l' : Link} (hl : l ∈ g.links k) (hl' : l' ∈ g.links k') :
    l.tail ≠ l'.head := by
  intro he
  obtain ⟨-, -, t, -, ht, -, -, -, htail, -⟩ := hw.joined hl
  obtain ⟨-, -, -, h, -, hh, -, -, -, hhead, -⟩ := hw.joined hl'
  rw [he, hh] at ht
  obtain rfl : h = t := Option.some.inj ht
  rw [hhead] at htail
  cases htail

theorem apart {t h : Slot} (hw : LinksMatch g) (hl : Linkable g l t h) :
    l ∉ g.links l.kind ∧ l.head ∉ t.adjacent ∧ l.tail ∉ h.adjacent := by
  have hnew : l ∉ g.links l.kind := by
    intro hmem
    obtain ⟨-, -, t', h', ht', hh', -, -, -, -, hhead, htail⟩ := hw.joined hmem
    obtain rfl : t = t' := Option.some.inj (hl.tail.symm.trans ht')
    obtain rfl : h = h' := Option.some.inj (hl.head.symm.trans hh')
    rcases hl.apart with hapart | hapart
    · exact hapart hhead
    · exact hapart htail
  exact ⟨hnew, fun hadj => hnew (hw.mem_of_adjacent hl (.inl hadj)),
    fun hadj => hnew (hw.mem_of_adjacent hl (.inr hadj))⟩

section Adding

variable {t h : Slot} (hl : Linkable g l t h)

include hl

theorem slot_of_addLink {r : SlotRef} {slot : Slot} (hslot : (g.addLink l).slotAt? r = some slot) :
    r = l.tail ∧ slot = t.attach l.head ∨ r = l.head ∧ slot = h.attach l.tail ∨ g.slotAt? r = some slot := by
  have hne : l.tail ≠ l.head := fun he => hl.nodes (congrArg SlotRef.node he)
  rw [slotAt?_addLink hne] at hslot
  split at hslot
  next hr =>
    subst hr
    rw [hl.tail] at hslot
    cases hslot
    exact .inl ⟨rfl, rfl⟩
  next =>
    split at hslot
    next hr =>
      subst hr
      rw [hl.head] at hslot
      cases hslot
      exact .inr (.inl ⟨rfl, rfl⟩)
    next => exact .inr (.inr hslot)

theorem addLink_slot {r : SlotRef} {slot : Slot} (hslot : g.slotAt? r = some slot) :
    ∃ slot', (g.addLink l).slotAt? r = some slot' ∧ slot'.kind = slot.kind ∧
      slot'.isPrimary = slot.isPrimary ∧ (∀ r' ∈ slot.adjacent, r' ∈ slot'.adjacent) ∧
      (r = l.tail → l.head ∈ slot'.adjacent) ∧ (r = l.head → l.tail ∈ slot'.adjacent) := by
  have hne : l.tail ≠ l.head := fun he => hl.nodes (congrArg SlotRef.node he)
  rw [slotAt?_addLink hne, hslot]
  split
  next hr =>
    refine ⟨_, rfl, rfl, rfl, fun r' hr' => List.mem_append_left _ hr', fun _ => ?_, fun hr' => ?_⟩
    · exact List.mem_append_right _ List.mem_cons_self
    · exact (hne (hr.symm.trans hr')).elim
  next hr =>
    split
    next =>
      exact ⟨_, rfl, rfl, rfl, fun r' hr' => List.mem_append_left _ hr', fun hr' => (hr hr').elim,
        fun _ => List.mem_append_right _ List.mem_cons_self⟩
    next hr' => exact ⟨_, rfl, rfl, rfl, fun _ h => h, fun h => (hr h).elim, fun h => (hr' h).elim⟩

theorem addLink (hw : LinksMatch g) : LinksMatch (g.addLink l) := by
  obtain ⟨hnew, hhead, htail⟩ := hw.apart hl
  have hlinks {k : SlotKind} {l' : Link} : l' ∈ (g.addLink l).links k ↔ l' ∈ g.links k ∨ k = l.kind ∧ l' = l := by
    rw [links_addLink]
    by_cases hk : k = l.kind <;> simp [hk]
  have hattach {slot : Slot} {r : SlotRef} (hnodup : slot.adjacent.Nodup) (hr : r ∉ slot.adjacent) :
      (slot.attach r).adjacent.Nodup := by
    refine List.nodup_append.2 ⟨hnodup, List.nodup_singleton r, ?_⟩
    rintro r' hr' r'' hr'' rfl
    rw [List.mem_singleton.1 hr''] at hr'
    exact hr hr'
  refine ⟨?_, ?_, ?_, ?_, ?_⟩
  · intro k
    rw [links_addLink]
    split
    next hk =>
      subst hk
      refine List.nodup_append.2 ⟨hw.links_nodup _, List.nodup_singleton l, ?_⟩
      rintro l' hl' l'' hl'' rfl
      rw [List.mem_singleton.1 hl''] at hl'
      exact hnew hl'
    next => exact hw.links_nodup k
  · intro k l' hl'
    rcases hlinks.1 hl' with hl' | ⟨rfl, rfl⟩
    · obtain ⟨hkind, hnodes, t', h', ht', hh', htk, hhk, htp, hhp, hta, hha⟩ := hw.joined hl'
      obtain ⟨t'', ht'', htk', htp', hta', -⟩ := addLink_slot hl ht'
      obtain ⟨h'', hh'', hhk', hhp', hha', -⟩ := addLink_slot hl hh'
      exact ⟨hkind, hnodes, t'', h'', ht'', hh'', htk'.trans htk, hhk'.trans hhk, htp'.trans htp,
        hhp'.trans hhp, hta' _ hta, hha' _ hha⟩
    · obtain ⟨t'', ht'', htk', htp', -, hta', -⟩ := addLink_slot hl hl.tail
      obtain ⟨h'', hh'', hhk', hhp', -, -, hha'⟩ := addLink_slot hl hl.head
      exact ⟨rfl, hl.nodes, t'', h'', ht'', hh'', htk'.trans hl.tail_kind, hhk'.trans hl.head_kind,
        htp'.trans hl.tail_primary, hhp'.trans hl.head_primary, hta' rfl, hha' rfl⟩
  · intro r r' slot hslot hr'
    rw [hlinks]
    rcases slot_of_addLink hl hslot with ⟨rfl, rfl⟩ | ⟨rfl, rfl⟩ | hslot
    · show t.linkTo l.tail r' ∈ g.links t.kind ∨ t.kind = l.kind ∧ t.linkTo l.tail r' = l
      rcases List.mem_append.1 hr' with hr' | hr'
      · exact .inl (hw.registered hl.tail hr')
      · exact .inr ⟨hl.tail_kind, by rw [List.mem_singleton.1 hr', hl.linkTo_tail]⟩
    · show h.linkTo l.head r' ∈ g.links h.kind ∨ h.kind = l.kind ∧ h.linkTo l.head r' = l
      rcases List.mem_append.1 hr' with hr' | hr'
      · exact .inl (hw.registered hl.head hr')
      · exact .inr ⟨hl.head_kind, by rw [List.mem_singleton.1 hr', hl.linkTo_head]⟩
    · exact .inl (hw.registered hslot hr')
  · intro r slot hslot
    rcases slot_of_addLink hl hslot with ⟨rfl, rfl⟩ | ⟨rfl, rfl⟩ | hslot
    · exact hattach (hw.adjacent_nodup hl.tail) hhead
    · exact hattach (hw.adjacent_nodup hl.head) htail
    · exact hw.adjacent_nodup hslot
  · intro r slot hslot
    rcases slot_of_addLink hl hslot with ⟨rfl, rfl⟩ | ⟨rfl, rfl⟩ | hslot
    · exact (hw.roomKnown hl.tail).attach hl.tail_room
    · exact (hw.roomKnown hl.head).attach hl.head_room
    · exact hw.roomKnown hslot

end Adding

section Removing

variable (hw : LinksMatch g) (hl : l ∈ g.links l.kind)

include hw hl

/-- The slots of a link that is removed no longer have an entry for each other, and nothing else changes. -/
theorem removeLink_slot {r : SlotRef} {old : Slot} (hold : g.slotAt? r = some old) :
    ∃ slot, (g.removeLink l).slotAt? r = some slot ∧ slot.kind = old.kind ∧ slot.isPrimary = old.isPrimary ∧
      slot.adjacent.Nodup ∧ slot.RoomKnown ∧ ∀ r', r' ∈ slot.adjacent ↔
        r' ∈ old.adjacent ∧ ¬(r = l.tail ∧ r' = l.head) ∧ ¬(r = l.head ∧ r' = l.tail) := by
  obtain ⟨-, hnodes, t, h, ht, hh, -, -, -, -, hhead, htail⟩ := hw.joined hl
  have hne : l.tail ≠ l.head := fun he => hnodes (congrArg SlotRef.node he)
  have hdetach {other : SlotRef} (hother : other ∈ old.adjacent) :
      (old.detach other).kind = old.kind ∧ (old.detach other).isPrimary = old.isPrimary ∧
        (old.detach other).adjacent = old.adjacent.erase other := by
    rw [Slot.detach_of_mem hother]
    exact ⟨rfl, rfl, rfl⟩
  have hnodup := hw.adjacent_nodup hold
  rw [slotAt?_removeLink hne, hold]
  by_cases htl : r = l.tail
  · subst htl
    obtain rfl : t = old := Option.some.inj (ht.symm.trans hold)
    obtain ⟨hkind, hprimary, hadj⟩ := hdetach hhead
    refine ⟨_, by rw [if_pos rfl]; rfl, hkind, hprimary, ?_, (hw.roomKnown hold).detach, ?_⟩
    · rw [hadj]
      exact hnodup.erase _
    · intro r'
      rw [hadj, hnodup.mem_erase_iff]
      simp only [hne, false_and, not_false_iff, and_true, true_and]
      exact and_comm
  by_cases hhd : r = l.head
  · subst hhd
    obtain rfl : h = old := Option.some.inj (hh.symm.trans hold)
    obtain ⟨hkind, hprimary, hadj⟩ := hdetach htail
    refine ⟨_, by rw [if_neg htl, if_pos rfl]; rfl, hkind, hprimary, ?_, (hw.roomKnown hold).detach, ?_⟩
    · rw [hadj]
      exact hnodup.erase _
    · intro r'
      rw [hadj, hnodup.mem_erase_iff]
      simp only [htl, false_and, not_false_iff, true_and]
      exact and_comm
  · refine ⟨old, by rw [if_neg htl, if_neg hhd], rfl, rfl, hnodup, hw.roomKnown hold, ?_⟩
    intro r'
    simp [htl, hhd]

theorem slot_of_removeLink {r : SlotRef} {slot : Slot} (hslot : (g.removeLink l).slotAt? r = some slot) :
    ∃ old, g.slotAt? r = some old := by
  obtain ⟨-, hnodes, -⟩ := hw.joined hl
  have hne : l.tail ≠ l.head := fun he => hnodes (congrArg SlotRef.node he)
  rw [slotAt?_removeLink hne] at hslot
  cases hold : g.slotAt? r with
  | some old => exact ⟨old, rfl⟩
  | none =>
    rw [hold] at hslot
    split at hslot
    · cases hslot
    · split at hslot <;> cases hslot

theorem removeLink : LinksMatch (g.removeLink l) := by
  have hlinks {k : SlotKind} {l' : Link} :
      l' ∈ (g.removeLink l).links k ↔ l' ∈ g.links k ∧ ¬(k = l.kind ∧ l' = l) := by
    rw [links_removeLink]
    split
    next hk =>
      rw [(hw.links_nodup k).mem_erase_iff]
      simp [hk, and_comm]
    next hk => simp [hk]
  refine ⟨?_, ?_, ?_, ?_, ?_⟩
  · intro k
    rw [links_removeLink]
    split
    next => exact (hw.links_nodup k).erase _
    next => exact hw.links_nodup k
  · intro k l' hl'
    obtain ⟨hl', hother⟩ := hlinks.1 hl'
    obtain ⟨hkind, hnodes, t, h, ht, hh, htk, hhk, htp, hhp, hta, hha⟩ := hw.joined hl'
    obtain ⟨t', ht', htk', htp', -, -, htadj⟩ := removeLink_slot hw hl ht
    obtain ⟨h', hh', hhk', hhp', -, -, hhadj⟩ := removeLink_slot hw hl hh
    have hsame : ¬(l'.tail = l.tail ∧ l'.head = l.head) := by
      rintro ⟨htail, hhead⟩
      obtain rfl := hw.eq_of_ends hl' hl htail hhead
      exact hother ⟨hkind.symm, rfl⟩
    exact ⟨hkind, hnodes, t', h', ht', hh', htk'.trans htk, hhk'.trans hhk, htp'.trans htp, hhp'.trans hhp,
      (htadj _).2 ⟨hta, hsame, fun he => hw.tail_ne_head hl' hl he.1⟩,
      (hhadj _).2 ⟨hha, fun he => hw.tail_ne_head hl hl' he.1.symm, fun he => hsame ⟨he.2, he.1⟩⟩⟩
  · intro r r' slot hslot hr'
    obtain ⟨old, hold⟩ := slot_of_removeLink hw hl hslot
    obtain ⟨slot', hslot', hkind, hprimary, -, -, hadj⟩ := removeLink_slot hw hl hold
    obtain rfl : slot = slot' := Option.some.inj (hslot.symm.trans hslot')
    obtain ⟨hr', htail, hhead⟩ := (hadj r').1 hr'
    have hmem := hw.registered hold hr'
    rw [Slot.linkTo, ← hkind, ← hprimary] at hmem
    rw [hlinks]
    refine ⟨hmem, ?_⟩
    rintro ⟨-, he⟩
    unfold Slot.linkTo at he
    split at he
    next => exact htail ⟨congrArg Link.tail he, congrArg Link.head he⟩
    next => exact hhead ⟨congrArg Link.head he, congrArg Link.tail he⟩
  · intro r slot hslot
    obtain ⟨old, hold⟩ := slot_of_removeLink hw hl hslot
    obtain ⟨slot', hslot', -, -, hnodup, -⟩ := removeLink_slot hw hl hold
    rwa [Option.some.inj (hslot.symm.trans hslot')]
  · intro r slot hslot
    obtain ⟨old, hold⟩ := slot_of_removeLink hw hl hslot
    obtain ⟨slot', hslot', -, -, -, hroomKnown, -⟩ := removeLink_slot hw hl hold
    rwa [Option.some.inj (hslot.symm.trans hslot')]

end Removing

theorem modifyNode (hw : LinksMatch g) {id : NodeId} {f : Node → Node} (hf : ∀ n, (f n).slots = n.slots) :
    LinksMatch (g.modifyNode id f) := by
  refine hw.congr (fun r => ?_) (links_modifyNode id f)
  rw [slotAt?, nodeAt?_modifyNode, slotAt?]
  split
  next =>
    cases g.nodeAt? r.node with
    | none => rfl
    | some n =>
      show (f n).slot? r.slot = n.slot? r.slot
      rw [Node.slot?, hf, Node.slot?]
  next => rfl

theorem modifyScope (hw : LinksMatch g) {s : ScopeId} {f : Scope → Scope} : LinksMatch (g.modifyScope s f) :=
  hw.congr (fun r => by rw [slotAt?, nodeAt?_modifyScope, slotAt?]) (links_modifyScope s f)

theorem move {may : Graph → NodeId → ScopeId → Prop} (hw : LinksMatch g) (hmove : Move may g g') : LinksMatch g' := by
  cases hmove with
  | note e => exact hw.congr (fun _ => by rfl) (links_emit e)
  | enter => exact (hw.modifyNode (f := ({ · with scope := _ })) fun _ => by rfl).modifyScope
  | leave => exact (hw.modifyNode (f := ({ · with scope := _ })) fun _ => by rfl).modifyScope
  | declare => exact hw.modifyScope
  | lead => exact hw.modifyScope

theorem change {may : Graph → NodeId → ScopeId → Prop} (hw : LinksMatch g) (hchange : Change may g g') :
    LinksMatch g' := by
  cases hchange with
  | move hmove => exact hw.move hmove
  | retouch => exact hw.modifyNode fun _ => by rfl
  | link hl =>
    obtain ⟨t, h, hl⟩ := linkable_of_validateLink hl
    exact addLink hl hw
  | unlink hl => exact hw.removeLink hl

theorem changes {may : Graph → NodeId → ScopeId → Prop} (hw : LinksMatch g) (hchanges : Changes may g g') :
    LinksMatch g' := by
  induction hchanges with
  | refl => exact hw
  | tail _ hchange ih => exact ih.change hchange

theorem addsNode {id : NodeId} {n : Node} {ps : List ScopeId} (hw : LinksMatch g) (hs : AddsNode g id n ps g')
    (hslots : ∀ slot ∈ n.slots, slot.adjacent = [] ∧ slot.RoomKnown) : LinksMatch g' := by
  have hlinks := links_congr hs.valueLinks hs.flowLinks
  have hold {r : SlotRef} {slot : Slot} (hslot : g.slotAt? r = some slot) : g'.slotAt? r = some slot := by
    rw [slotAt?, hs.nodeAt?, if_neg]
    · exact hslot
    · intro hid
      rw [slotAt?, hid, hs.fresh] at hslot
      cases hslot
  have hback {r : SlotRef} {slot : Slot} (hslot : g'.slotAt? r = some slot) :
      g.slotAt? r = some slot ∨ slot.adjacent = [] ∧ slot.RoomKnown := by
    rw [slotAt?, hs.nodeAt?] at hslot
    split at hslot
    next => exact .inr (hslots slot (List.mem_of_getElem? hslot))
    next => exact .inl hslot
  refine ⟨?_, ?_, ?_, ?_, ?_⟩
  · intro k
    rw [hlinks]
    exact hw.links_nodup k
  · intro k l hl
    rw [hlinks] at hl
    obtain ⟨hkind, hnodes, t, h, ht, hh, hrest⟩ := hw.joined hl
    exact ⟨hkind, hnodes, t, h, hold ht, hold hh, hrest⟩
  · intro r r' slot hslot hr'
    rw [hlinks]
    rcases hback hslot with hslot | ⟨hempty, -⟩
    · exact hw.registered hslot hr'
    · rw [hempty] at hr'
      cases hr'
  · intro r slot hslot
    rcases hback hslot with hslot | ⟨hempty, -⟩
    · exact hw.adjacent_nodup hslot
    · rw [hempty]
      exact List.nodup_nil
  · intro r slot hslot
    rcases hback hslot with hslot | ⟨-, hroomKnown⟩
    · exact hw.roomKnown hslot
    · exact hroomKnown

theorem removesNode {id : NodeId} {inner : List ScopeId} (hw : LinksMatch g) (hs : RemovesNode g id inner g')
    (hfree : ∀ k, ∀ l ∈ g.links k, l.involves id = false) : LinksMatch g' := by
  have hlinks := links_congr hs.valueLinks hs.flowLinks
  have hback {r : SlotRef} {slot : Slot} (hslot : g'.slotAt? r = some slot) : g.slotAt? r = some slot := by
    rw [slotAt?, hs.nodeAt?] at hslot
    split at hslot
    next => cases hslot
    next => exact hslot
  have hold {r : SlotRef} {slot : Slot} (hr : r.node ≠ id) (hslot : g.slotAt? r = some slot) :
      g'.slotAt? r = some slot := by
    rw [slotAt?, hs.nodeAt?, if_neg hr]
    exact hslot
  refine ⟨?_, ?_, ?_, ?_, ?_⟩
  · intro k
    rw [hlinks]
    exact hw.links_nodup k
  · intro k l hl
    rw [hlinks] at hl
    have hne := hfree k l hl
    simp only [Link.involves, Bool.or_eq_false_iff, beq_eq_false_iff_ne] at hne
    obtain ⟨hkind, hnodes, t, h, ht, hh, hrest⟩ := hw.joined hl
    exact ⟨hkind, hnodes, t, h, hold hne.1 ht, hold hne.2 hh, hrest⟩
  · intro r r' slot hslot hr'
    rw [hlinks]
    exact hw.registered (hback hslot) hr'
  · intro r slot hslot
    exact hw.adjacent_nodup (hback hslot)
  · intro r slot hslot
    exact hw.roomKnown (hback hslot)

end Graph.LinksMatch

end FlowGraph
