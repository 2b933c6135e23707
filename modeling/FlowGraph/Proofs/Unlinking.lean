import FlowGraph.Proofs.Heads
import FlowGraph.Proofs.Mirror
import FlowGraph.Proofs.Refusals

/-!
# Links made and taken back

It does not matter which slot of a link is named first: what is checked of one slot holds of the other, because each of
two linked slots has an entry for the other. A raw link that is removed again leaves no trace but in the events. The new
entry was the last of its slot and the link the last of its kind, so the order of the others stays, and each slot
compares its entries with its capacity as before.
-/

namespace FlowGraph

theorem Link.joins_comm (l : Link) (a b : SlotRef) : l.joins a b = l.joins b a := by
  rw [Link.joins, Link.joins, Bool.or_comm]

theorem List.modify_modify_of_back {α : Type} {f f' : α → α} {as : List α} {i : Nat}
    (hback : ∀ a, as[i]? = some a → f' (f a) = a) : (as.modify i f).modify i f' = as := by
  refine List.ext_getElem? fun j => ?_
  rw [List.getElem?_modify, List.getElem?_modify]
  by_cases hj : i = j
  · subst hj
    cases ha : as[i]? with
    | none => simp
    | some a => simp [hback a ha]
  · simp [hj]

namespace Slot

variable {slot : Slot} {r : SlotRef}

theorem detach_attach (h : slot.RoomKnown) (hr : r ∉ slot.adjacent) : (slot.attach r).detach r = slot := by
  have hmem : r ∈ (slot.attach r).adjacent := List.mem_append_right _ List.mem_cons_self
  have hadjacent : (slot.attach r).adjacent.erase r = slot.adjacent := by
    show (slot.adjacent ++ [r]).erase r = slot.adjacent
    rw [List.erase_append_right _ hr, List.erase_cons_head, List.append_nil]
  rw [detach_of_mem hmem, hadjacent]
  show { slot with notFull := decide (slot.adjacent.length < slot.capacity) } = slot
  rw [← h.2]

theorem linkTo_comm {slot' : Slot} {a b : SlotRef} (hkind : slot.kind = slot'.kind)
    (horder : slot.isPrimary ≠ slot'.isPrimary) : slot.linkTo a b = slot'.linkTo b a := by
  unfold linkTo
  cases hp : slot.isPrimary <;> cases hp' : slot'.isPrimary <;> simp_all

end Slot

namespace Graph

variable {g g' : Graph} {a b : SlotRef} {l : Link} {sideEffects : Bool}

theorem LinksMatch.adjacent_of_adjacent (hw : LinksMatch g) {slotA slotB : Slot} (hA : g.slotAt? a = some slotA)
    (hB : g.slotAt? b = some slotB) (hmem : b ∈ slotA.adjacent) : a ∈ slotB.adjacent := by
  obtain ⟨-, -, t, h, ht, hh, -, -, -, -, hhead, htail⟩ := hw.joined (hw.registered hA hmem)
  unfold Slot.linkTo at ht hh hhead htail
  split at ht
  next hprimary =>
    rw [if_pos hprimary] at hh htail
    cases hB.symm.trans hh
    exact htail
  next hprimary =>
    rw [if_neg hprimary] at hhead
    cases hB.symm.trans ht
    exact hhead

theorem LinksMatch.validateLink_comm (hw : LinksMatch g) (h : g.validateLink a b = .ok (.ok l)) :
    g.validateLink b a = .ok (.ok l) := by
  obtain ⟨slotA, slotB, hA, hB, hjoinable, rfl⟩ := validateLink_eq_ok_iff.1 h
  have hapart : a ∉ slotB.adjacent := fun hmem => hjoinable.apart (hw.adjacent_of_adjacent hB hA hmem)
  exact validateLink_eq_ok_iff.2 ⟨slotB, slotA, hB, hA,
    ⟨hjoinable.nodes.symm, hjoinable.kinds.symm, hjoinable.orders.symm, hapart, hjoinable.room', hjoinable.room⟩,
    Slot.linkTo_comm hjoinable.kinds hjoinable.orders⟩

/-- No link is made: the edit is refused and leaves the graph as it is, or a handle is not a node's. -/
def Refuses (g : Graph) (x : Except Fault (Graph × Except ConnectError Link)) : Prop :=
  (∃ e, x = .ok (g, .error e)) ∨ ∃ m, x = .error (.mistyped m)

theorem lookupSlot_cases (g : Graph) (r : SlotRef) :
    (∃ found, g.lookupSlot r = .ok found) ∨ ∃ m, g.lookupSlot r = .error (.mistyped m) := by
  unfold lookupSlot node?
  cases g.arena.get r.node with
  | error m => exact .inr ⟨m, rfl⟩
  | ok found =>
    refine .inl ?_
    cases found with
    | none => exact ⟨_, rfl⟩
    | some n =>
      cases hslot : n.slot? r.slot with
      | none => exact ⟨.error (.unknownSlot r), by simp only [ok_bind, hslot]; rfl⟩
      | some slot => exact ⟨.ok slot, by simp only [ok_bind, hslot]; rfl⟩

theorem validateLink_cases (g : Graph) (a b : SlotRef) :
    (∃ result, g.validateLink a b = .ok result) ∨ ∃ m, g.validateLink a b = .error (.mistyped m) := by
  unfold validateLink
  rcases lookupSlot_cases g a with ⟨foundA, hA⟩ | ⟨m, hA⟩
  · rw [hA, ok_bind]
    cases foundA with
    | error e => exact .inl ⟨_, rfl⟩
    | ok slotA =>
      rcases lookupSlot_cases g b with ⟨foundB, hB⟩ | ⟨m, hB⟩
      · rw [hB]
        cases foundB with
        | error e => exact .inl ⟨_, rfl⟩
        | ok slotB => exact .inl ⟨_, rfl⟩
      · exact .inr ⟨m, by rw [hB]; rfl⟩
  · exact .inr ⟨m, by rw [hA]; rfl⟩

theorem refuses_of_not_valid (h : ∀ l, g.validateLink a b ≠ .ok (.ok l)) : Refuses g (g.connect a b sideEffects) := by
  unfold connect
  rcases validateLink_cases g a b with ⟨result, hresult⟩ | ⟨m, hm⟩
  · cases result with
    | ok l => exact (h l hresult).elim
    | error e => exact .inl ⟨e, by rw [hresult]; rfl⟩
  · exact .inr ⟨m, by rw [hm]; rfl⟩

theorem LinksMatch.connect_comm (hw : LinksMatch g) (a b : SlotRef) (sideEffects : Bool) :
    g.connect a b sideEffects = g.connect b a sideEffects ∨
      Refuses g (g.connect a b sideEffects) ∧ Refuses g (g.connect b a sideEffects) := by
  by_cases hvalid : ∃ l, g.validateLink a b = .ok (.ok l)
  · obtain ⟨l, hl⟩ := hvalid
    refine .inl ?_
    unfold connect
    rw [hl, hw.validateLink_comm hl]
  · have hback (l : Link) : g.validateLink b a ≠ .ok (.ok l) := fun hl => hvalid ⟨l, hw.validateLink_comm hl⟩
    exact .inr ⟨refuses_of_not_valid fun l hl => hvalid ⟨l, hl⟩, refuses_of_not_valid hback⟩

theorem findLink?_comm (g : Graph) (a b : SlotRef) : g.findLink? a b = g.findLink? b a := by
  simp only [findLink?, Link.joins_comm _ a b]

theorem LinksMatch.findLink?_eq_some_iff (hw : LinksMatch g) :
    g.findLink? a b = some l ↔ l ∈ g.links l.kind ∧ l.joins a b = true := by
  have hlisted {l : Link} : l ∈ g.valueLinks ++ g.flowLinks ↔ l ∈ g.links l.kind := by
    refine ⟨fun hl => ?_, mem_append_of_links⟩
    rcases List.mem_append.1 hl with hl | hl
    · exact (hw.joined (k := .value) hl).1 ▸ hl
    · exact (hw.joined (k := .flow) hl).1 ▸ hl
  constructor
  · intro h
    exact ⟨hlisted.1 (List.mem_of_find?_eq_some h), List.find?_some (p := (Link.joins · a b)) h⟩
  · rintro ⟨hl, hjoins⟩
    have hsome : ((g.valueLinks ++ g.flowLinks).find? (·.joins a b)).isSome = true :=
      List.find?_isSome.2 ⟨l, hlisted.2 hl, hjoins⟩
    obtain ⟨l', hl'⟩ := Option.isSome_iff_exists.1 hsome
    have hother : l'.joins l.tail l.head = true := by
      have hjoins' : l'.joins a b = true := List.find?_some (p := (Link.joins · a b)) hl'
      simp only [Link.joins, Bool.or_eq_true, Bool.and_eq_true, beq_iff_eq] at hjoins hjoins' ⊢
      rcases hjoins with ⟨rfl, rfl⟩ | ⟨rfl, rfl⟩
      · exact hjoins'
      · exact hjoins'.symm
    rw [findLink?, hl', hw.eq_of_joins (hlisted.1 (List.mem_of_find?_eq_some hl')) hl hother]

theorem joins_of_validateLink (h : g.validateLink a b = .ok (.ok l)) : l.joins a b = true := by
  obtain ⟨slotA, slotB, -, -, -, rfl⟩ := validateLink_eq_ok_iff.1 h
  unfold Slot.linkTo
  split <;> simp [Link.joins]

theorem links_connect (h : g.connect a b sideEffects = .ok (g', .ok l)) :
    g.validateLink a b = .ok (.ok l) ∧ ∀ k, g'.links k = (g.addLink l).links k := by
  rcases connect_eq h with ⟨-, _, ⟨⟩⟩ | ⟨_, ⟨⟩, hl, ⟨-, rfl⟩ | ⟨-, -, hflow⟩ | ⟨-, -, hvalue⟩⟩
  · exact ⟨hl, fun _ => rfl⟩
  · exact ⟨hl, fun k => links_moves (onFlowConnected_editMoves guards_always hflow).moves k⟩
  · obtain ⟨tail, moved, -, hmoved, hpropertyWritten⟩ := onValueConnected_eq hvalue
    exact ⟨hl, fun k => (hpropertyWritten.links k).trans (links_moves (hmoved.editMoves guards_always).moves k)⟩

theorem modifyNode_modifyNode {id : NodeId} {n : Node} {f f' : Node → Node} (hn : g.nodeAt? id = some n)
    (hback : f' (f n) = n) : (g.modifyNode id f).modifyNode id f' = g := by
  show { g with arena := (g.arena.update id f).update id f' } = g
  rw [Arena.update_update hn hback]

theorem modifyNode_comm {id id' : NodeId} (hne : id ≠ id') (f f' : Node → Node) :
    (g.modifyNode id f).modifyNode id' f' = (g.modifyNode id' f').modifyNode id f :=
  congrArg (fun arena => { g with arena }) (Arena.update_comm g.arena hne f f')

theorem modifySlot_modifySlot {r other : SlotRef} {slot : Slot} (hslot : g.slotAt? r = some slot)
    (hroomKnown : slot.RoomKnown) (hother : other ∉ slot.adjacent) :
    (g.modifySlot r (·.attach other)).modifySlot r (·.detach other) = g := by
  obtain ⟨n, hn, hslot⟩ := Option.bind_eq_some_iff.1 hslot
  refine modifyNode_modifyNode hn ?_
  have hslots : (n.slots.modify r.slot.index (·.attach other)).modify r.slot.index (·.detach other) = n.slots := by
    refine List.modify_modify_of_back fun slot' hslot' => ?_
    obtain rfl : slot = slot' := Option.some.inj (hslot.symm.trans hslot')
    exact Slot.detach_attach hroomKnown hother
  show { n with slots := (n.slots.modify r.slot.index (·.attach other)).modify r.slot.index (·.detach other) } = n
  rw [hslots]

theorem modifyLinks_eq_self {kind : SlotKind} {f : List Link → List Link} (h : f (g.links kind) = g.links kind) :
    g.modifyLinks kind f = g := by
  cases kind with
  | value =>
    show { g with valueLinks := f g.valueLinks } = g
    rw [show f g.valueLinks = g.valueLinks from h]
  | flow =>
    show { g with flowLinks := f g.flowLinks } = g
    rw [show f g.flowLinks = g.flowLinks from h]

theorem removeLink_addLink {t h : Slot} (hw : LinksMatch g) (hl : Linkable g l t h) :
    (g.addLink l).removeLink l = { g with events := g.events ++ [.linkAdded l, .linkRemoved l] } := by
  obtain ⟨hnew, hhead, htail⟩ := hw.apart hl
  -- The two slots are of different nodes, so that the entries of the one can be made and removed before the other's.
  have hslots : (((g.modifySlot l.tail (·.attach l.head)).modifySlot l.head (·.attach l.tail)).modifySlot l.tail
      (·.detach l.head)).modifySlot l.head (·.detach l.tail) = g := by
    have hcomm : ((g.modifySlot l.tail (·.attach l.head)).modifySlot l.head (·.attach l.tail)).modifySlot l.tail
        (·.detach l.head) = ((g.modifySlot l.tail (·.attach l.head)).modifySlot l.tail (·.detach l.head)).modifySlot
          l.head (·.attach l.tail) := modifyNode_comm hl.nodes.symm _ _
    rw [hcomm, modifySlot_modifySlot hl.tail (hw.roomKnown hl.tail) hhead,
      modifySlot_modifySlot hl.head (hw.roomKnown hl.head) htail]
  have hlinks : (g.links l.kind ++ [l]).erase l = g.links l.kind := by
    rw [List.erase_append_right _ hnew, List.erase_cons_head, List.append_nil]
  have hparts : (g.addLink l).removeLink l =
      ((((((g.modifySlot l.tail (·.attach l.head)).modifySlot l.head (·.attach l.tail)).modifySlot l.tail
        (·.detach l.head)).modifySlot l.head (·.detach l.tail)).modifyLinks l.kind
          fun links => (links ++ [l]).erase l).emit (.linkAdded l)).emit (.linkRemoved l) := by
    unfold addLink removeLink
    cases l.kind <;> rfl
  rw [hparts, hslots, modifyLinks_eq_self hlinks]
  exact congrArg (fun events => { g with events }) (List.append_assoc g.events [.linkAdded l] [.linkRemoved l])

theorem LinksMatch.findLink?_eq_none (hw : LinksMatch g) (h : g.validateLink a b = .ok (.ok l)) :
    g.findLink? a b = none := by
  obtain ⟨slotA, slotB, hA, hB, hjoinable, -⟩ := validateLink_eq_ok_iff.1 h
  refine Option.eq_none_iff_forall_ne_some.2 fun l' hl' => ?_
  obtain ⟨hl', hjoins⟩ := hw.findLink?_eq_some_iff.1 hl'
  obtain ⟨-, -, t, h, ht, hh, -, -, -, -, hhead, htail⟩ := hw.joined hl'
  simp only [Link.joins, Bool.or_eq_true, Bool.and_eq_true, beq_iff_eq] at hjoins
  rcases hjoins with ⟨rfl, rfl⟩ | ⟨rfl, rfl⟩
  · cases hA.symm.trans ht
    exact hjoinable.apart hhead
  · cases hA.symm.trans hh
    exact hjoinable.apart htail

theorem disconnect_connect (hw : LinksMatch g) (h : g.connect a b false = .ok (g', .ok l)) :
    g'.disconnect l false = .ok ({ g with events := g.events ++ [.linkAdded l, .linkRemoved l] }, .ok ()) := by
  obtain ⟨hl, hlinks⟩ := links_connect h
  obtain ⟨t, h', hlinkable⟩ := linkable_of_validateLink hl
  rcases connect_eq h with ⟨-, _, ⟨⟩⟩ | ⟨_, ⟨⟩, -, ⟨-, rfl⟩ | ⟨⟨⟩, -⟩ | ⟨⟨⟩, -⟩⟩
  have hmem : l ∈ (g.addLink l).links l.kind := mem_addLink l
  rw [disconnect, if_neg (not_not.2 hmem), removeLink_addLink hw hlinkable]
  rfl

/-- Linking and looking links up do not depend on which slot comes first, and a raw link that is removed again leaves
the graph as it was. -/
theorem Reachable.linking_symmetric (hr : Reachable g) (a b : SlotRef) :
    (∀ sideEffects, g.connect a b sideEffects = g.connect b a sideEffects ∨
      Refuses g (g.connect a b sideEffects) ∧ Refuses g (g.connect b a sideEffects)) ∧
    (g.findLink? a b = g.findLink? b a ∧
      ∀ l, g.findLink? a b = some l ↔ l ∈ g.links l.kind ∧ l.joins a b = true) ∧
    (∀ {sideEffects g' l}, g.connect a b sideEffects = .ok (g', .ok l) →
      g.findLink? a b = none ∧ g'.findLink? a b = some l) ∧
    ∀ {g' l}, g.connect a b false = .ok (g', .ok l) →
      g'.disconnect l false = .ok ({ g with events := g.events ++ [.linkAdded l, .linkRemoved l] }, .ok ()) := by
  have hw := hr.wellFormed.linksMatch
  refine ⟨hw.connect_comm a b, ⟨findLink?_comm g a b, fun l => hw.findLink?_eq_some_iff⟩, ?_, disconnect_connect hw⟩
  intro sideEffects g' l h
  obtain ⟨hl, hlinks⟩ := links_connect h
  have hr' : Reachable g' := .edit (.connect a b sideEffects) hr (bind_eq_ok.2 ⟨_, h, rfl⟩)
  have hmem : l ∈ g'.links l.kind := by
    rw [hlinks]
    exact mem_addLink l
  exact ⟨hw.findLink?_eq_none hl, hr'.wellFormed.linksMatch.findLink?_eq_some_iff.2 ⟨hmem, joins_of_validateLink hl⟩⟩

/-- The way out of the loop 3 is linked to the way into the instruction 7, the input named first. -/
theorem linking_symmetric_idleLoop :
    ∃ g g' l, (idleLoop >>= (perform · (.emptyInstruction ⟨2⟩))) = .ok g ∧ Reachable g ∧
    l = ⟨⟨⟨3⟩, ⟨1⟩⟩, ⟨⟨7⟩, ⟨0⟩⟩, .flow⟩ ∧ g.connect ⟨⟨7⟩, ⟨0⟩⟩ ⟨⟨3⟩, ⟨1⟩⟩ false = .ok (g', .ok l) ∧
    g.connect ⟨⟨3⟩, ⟨1⟩⟩ ⟨⟨7⟩, ⟨0⟩⟩ false = .ok (g', .ok l) ∧ g.findLink? ⟨⟨7⟩, ⟨0⟩⟩ ⟨⟨3⟩, ⟨1⟩⟩ = none ∧
    g'.findLink? ⟨⟨7⟩, ⟨0⟩⟩ ⟨⟨3⟩, ⟨1⟩⟩ = some l ∧
    g'.disconnect l false = .ok ({ g with events := g.events ++ [.linkAdded l, .linkRemoved l] }, .ok ()) := by
  obtain ⟨g, hg⟩ := exists_of_isOk (x := idleLoop >>= (perform · (.emptyInstruction ⟨2⟩))) (by decide +kernel)
  obtain ⟨g₀, hg₀, hcreate⟩ := bind_eq_ok.1 hg
  have hr : Reachable g := .edit _ (idleLoop_reachable hg₀) hcreate
  have hlinked := eq_ok_of_toOption_bind (fun g => do return (← g.connect ⟨⟨7⟩, ⟨0⟩⟩ ⟨⟨3⟩, ⟨1⟩⟩ false).2) hg
    (b := .ok ⟨⟨⟨3⟩, ⟨1⟩⟩, ⟨⟨7⟩, ⟨0⟩⟩, .flow⟩) (by decide +kernel)
  obtain ⟨⟨g', _⟩, hconnect, hl⟩ := bind_eq_ok.1 hlinked
  cases pure_eq_ok.1 hl
  obtain ⟨hcomm, -, hfound, hundone⟩ := hr.linking_symmetric ⟨⟨7⟩, ⟨0⟩⟩ ⟨⟨3⟩, ⟨1⟩⟩
  obtain ⟨hbefore, hafter⟩ := hfound hconnect
  refine ⟨g, g', _, hg, hr, rfl, hconnect, ?_, hbefore, hafter, hundone hconnect⟩
  rcases hcomm false with hsame | ⟨⟨_, hrefused⟩ | ⟨_, hrefused⟩, -⟩
  · exact hsame.symm.trans hconnect
  · cases hconnect.symm.trans hrefused
  · cases hconnect.symm.trans hrefused

end Graph

end FlowGraph
