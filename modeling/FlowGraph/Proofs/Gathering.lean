import FlowGraph.Proofs.Junctions
import FlowGraph.Proofs.Rescue

/-!
# Links that come together at a new node

A new node is linked to nothing and has nobody inside. Each link that leads control to it moves it, alone, and what it
comes after decides where to. The way there depends on the order of the links; where the node is after the last one does
not.
-/

namespace FlowGraph.Graph

open Relation

variable {g g' : Graph} {id m x : NodeId} {s t root : ScopeId} {n : Node} {head : SlotRef} {done ids : List NodeId}
  {room : Nat}

structure UnlinkedAndEmpty (g : Graph) (m : NodeId) : Prop where
  unlinked {i : SlotId} {slot : Slot} : g.slotAt? ⟨m, i⟩ = some slot → slot.adjacent = []
  outside {x : NodeId} {s : ScopeId} : x ≠ m → g.homeAt? x = some s → clear g m s

theorem spawn_unlinkedAndEmpty {build : NodeId → Node} {partitions : Option Nat} (hg : Consistent g)
    (hbuildsUnlinked : BuildsUnlinked g.config.fanIn build)
    (hspawn : g.spawn build partitions (some s) = .ok (id, g')) :
    UnlinkedAndEmpty g' id ∧ g'.homeAt? id = some s ∧ ∀ x, x ≠ id → g'.nodeAt? x = g.nodeAt? x := by
  obtain ⟨n, ps, g₁, hnew, -, ⟨⟨⟩, -⟩ | ⟨_, ⟨⟩, hplaced⟩⟩ := spawn_addsUnplaced hbuildsUnlinked hspawn
  have hunlinked : ∀ slot ∈ n.slots, slot.adjacent = [] := fun slot hslot => (hnew.unused slot hslot).adjacent
  have hentered := enter_of_unlinked hplaced hnew.live hunlinked
  have hself : g'.nodeAt? id = some { n with scope := some s } :=
    (nodeAt?_enter hentered id).trans (nodeAt?_place_self hnew.live)
  obtain ⟨-, -, hothers⟩ := spawn_others hbuildsUnlinked hspawn
  refine ⟨⟨fun {i slot} hslot => ?_, fun {x t} hx ht => ?_⟩, homeAt?_eq_some_iff.2 ⟨_, hself, rfl⟩, hothers⟩
  · obtain ⟨n', hn', hslot⟩ := Option.bind_eq_some_iff.1 hslot
    cases hself.symm.trans hn'
    exact hunlinked slot (List.mem_of_getElem? hslot)
  · rw [homeAt?, hothers x hx] at ht
    have hway := ((hg.ownersOnPath_home ht).addsNode hnew.toAddsNode)
    have hmoves : Moves always g₁ g' := enter_moves hentered hnew.live hnew.unscoped trivial
    refine hway.carry hmoves.changes.allKept fun y hy => ?_
    rw [(enter_views hentered hnew.live).2, if_neg hy]

/-- Only one node is new after a creation. If control can come to it, then it is as it was made. -/
theorem Reachable.fresh_of_creates (hr : Reachable g) (hg : Consistent g) {e : Edit} (he : e.creates = true)
    (h : g.perform e = .ok g') (hroot : g.rootScope = .ok root) (hnew : g.contains m = false)
    (hm : g'.homeAt? m = some root) (hhead : g'.flowIn? m = .ok (some head)) :
    Consistent g' ∧ UnlinkedAndEmpty g' m ∧ g'.rootScope = .ok root := by
  have hnone : g.nodeAt? m = none := by
    rw [← Option.not_isSome_iff_eq_none, ← contains_iff, hnew]
    exact Bool.false_ne_true
  obtain ⟨n', hn', hscope⟩ := homeAt?_eq_some_iff.1 hm
  rcases createsNode_of_creates he h with rfl | ⟨l, id, g₁, hbirth, hmade⟩
  · cases hnone.symm.trans hn'
  have hwellFormed₁ := hbirth.wellFormed hr.wellFormed
  obtain ⟨-, s, hspawn⟩ := hbirth
  have hbuildsUnlinked := buildsUnlinked_build l g.config.fanIn
  obtain ⟨hfresh, hhome, hothers⟩ := spawn_unlinkedAndEmpty hg hbuildsUnlinked hspawn
  have hself (hn : g₁.nodeAt? m ≠ none) : m = id := by
    by_contra hne
    exact hn ((hothers m hne).trans hnone)
  rcases hmade with rfl | ⟨hreference, hlinked⟩
  · obtain rfl : m = id := hself (by rw [hn']; exact Option.some_ne_none _)
    cases hhome.symm.trans hm
    obtain ⟨r, hr', hi⟩ := rootScope_eq_ok_iff.1 hroot
    obtain ⟨sc, hsc, -⟩ := hr.wellFormed.scopesOwned.internal hr' hi
    exact ⟨hg.spawn hbuildsUnlinked hspawn (scope_eq_ok_iff.2 hsc), hfresh,
      rootScope_spawn hbuildsUnlinked hspawn hroot⟩
  · have hsteps : Steps always g₁ g' := by
      rcases hlinked with ⟨a, b, l, hl, rfl⟩ | hdestroy
      · exact .single (.change (.link hl))
      · exact destroy_steps guards_always hwellFormed₁.toLinksScopesValid hdestroy
    obtain ⟨n₁, hn₁, hskeleton⟩ := hsteps.survivorsKept.node hn'
    obtain rfl : m = id := hself (by rw [hn₁]; exact Option.some_ne_none _)
    obtain ⟨-, -, n₂, hn₂, hkind⟩ := hr.wellFormed.toRecordsValid.spawn hbuildsUnlinked hspawn
    cases hn₁.symm.trans hn₂
    refine ((hr.edit e h).hasLayouts.not_reference_of_flowIn? hn' hhead ?_).elim
    exact (Node.of_skeleton hskeleton).1.trans (hkind.trans (l.kind_build.trans hreference))

/-- One after the other, the nodes are linked to the slot, and control goes on to it from each of them. -/
inductive JoinAll (head : SlotRef) : List NodeId → Graph → Graph → Prop
  | nil {g : Graph} : JoinAll head [] g g
  | cons {id : NodeId} {ids : List NodeId} {tail : SlotRef} {l : Link} {g g₁ g' : Graph} :
      g.flowOut? id = .ok (some tail) → g.connect tail head true = .ok (g₁, .ok l) → JoinAll head ids g₁ g' →
      JoinAll head (id :: ids) g g'

/-- The node is somewhere inside the root scope, and control does not go on from it yet. -/
structure HasFreeFlowOut (g : Graph) (root : ScopeId) (id : NodeId) : Prop where
  inside : ∃ s, g.homeAt? id = some s ∧ g.isAncestorOrSelf root s = .ok true
  free : ∃ r slot, g.flowOut? id = .ok (some r) ∧ g.slot? r = .ok (some slot) ∧ slot.adjacent = []

structure JunctionReady (g : Graph) (root : ScopeId) (head : SlotRef) (room : Nat) : Prop where
  editInvariant : EditInvariant True g
  fresh : UnlinkedAndEmpty g head.node
  home : g.homeAt? head.node = some root
  whole {sc : Scope} : g.scopeAt? root = some sc → sc.partitions = []
  slot : ∃ slot, g.slotAt? head = some slot ∧ slot.kind = .flow ∧ slot.isPrimary = false ∧ room ≤ slot.capacity

structure TailReady (g : Graph) (root : ScopeId) (m id : NodeId) : Prop where
  other : id ≠ m
  home : ∃ s, g.homeAt? id = some s ∧ Within g s root
  slot : ∃ slot, g.slotAt? (onward id) = some slot ∧ slot.kind = .flow ∧ slot.isPrimary = true ∧
    slot.isBranch = false ∧ slot.adjacent = []

structure TailsLinked (head : SlotRef) (done : List NodeId) (g g' : Graph) :
    Prop extends OthersStay head.node g g' where
  changes : Changes clear g g'
  entered : OnlyEntered g' head.node
  slot : ∃ slot, g'.slotAt? head = some slot ∧ slot.adjacent = done.map onward
  others {r : SlotRef} : r.node ≠ head.node → r.node ∉ done → g'.slotAt? r = g.slotAt? r

structure TailsJoined (head : SlotRef) (done : List NodeId) (g g' : Graph) :
    Prop extends TailsLinked head done g g' where
  landsIn : ∃ t, g'.homeAt? head.node = some t ∧ (done ≠ [] → LandsIn g (done.filterMap g.homeAt?) t)

theorem filterMap_homes_ne_nil (hready : ∀ id ∈ ids, TailReady g root m id) (hne : ids ≠ []) :
    ids.filterMap g.homeAt? ≠ [] := by
  obtain ⟨id, hid⟩ := List.exists_mem_of_ne_nil ids hne
  obtain ⟨-, ⟨s, hs, -⟩, -⟩ := hready id hid
  exact List.ne_nil_of_mem (List.mem_filterMap.2 ⟨id, hid, hs⟩)

section

variable (ha : JunctionReady g root head room) (hready : ∀ id ∈ ids, TailReady g root head.node id)

include ha hready

theorem JunctionReady.of_mem_homes (hs : s ∈ ids.filterMap g.homeAt?) : clear g head.node s ∧ Within g s root := by
  obtain ⟨id, hid, hs⟩ := List.mem_filterMap.1 hs
  obtain ⟨hother, ⟨s', hs', hwithin⟩, -⟩ := hready id hid
  cases hs.symm.trans hs'
  exact ⟨ha.fresh.outside hother hs, hwithin⟩

theorem JunctionReady.exists_landsIn (hne : ids ≠ []) :
    ∃ t, LandsIn g (ids.filterMap g.homeAt?) t ∧ clear g head.node t := by
  have hne' := filterMap_homes_ne_nil hready hne
  obtain ⟨t, hlands, hancestorOfAll⟩ :=
      ha.editInvariant.exists_landsIn hne' (fun s hs => (ha.of_mem_homes hready hs).1.live)
    (fun s hs => (ha.of_mem_homes hready hs).2) fun _ => ha.whole
  obtain ⟨s, hs⟩ := List.exists_mem_of_ne_nil _ hne'
  exact ⟨t, hlands, clear_of_within (ha.of_mem_homes hready hs).1 (hancestorOfAll s hs)⟩

end

theorem connect_eq_of_landsIn {a b : SlotRef} {l : Link} {tails : List SlotRef} (hl : g.validateLink a b = .ok (.ok l))
    (hflow : l.kind = .flow) (htails : (g.addLink l).predecessors l.head = .ok tails)
    (hafter : (g.addLink l).scopeAfter tails = .ok (some t))
    (hmoved : (g.addLink l).changeScope l.head.node t = .ok (g', .ok ()))
    (hplain : g'.isBranchSlot l.tail = .ok false) :
    g.connect a b true = .ok (g', .ok l) := by
  have heffect : (g.addLink l).onFlowConnected l = .ok g' := by
    simp only [onFlowConnected, htails, hafter, hmoved, hplain, ok_bind]
    split
    next => rw [if_neg Bool.false_ne_true, pure_eq_ok]
    next => rfl
  simp only [connect, hl, hflow, heffect, ok_bind]
  rfl

theorem TailReady.isBranchSlot_eq_false (h : TailReady g root m id) (hchanges : Changes clear g g') :
    g'.isBranchSlot (onward id) = .ok false := by
  obtain ⟨slot, hslot, -, -, hplain, -⟩ := h.slot
  obtain ⟨n, hn, -⟩ := Option.bind_eq_some_iff.1 hslot
  obtain ⟨n', hn', -⟩ := (Changes.allKept hchanges).node_of hn
  have hterminates : Terminates True (g'.isBranchSlot (onward id)) := terminates_isBranchSlot fun _ => ⟨n', hn'⟩
  obtain ⟨branches, hbranches⟩ := hterminates.exists_ok
  cases branches with
  | false => exact hbranches
  | true =>
    obtain ⟨slot', hslot', hbranch⟩ :=
        isBranchSlot_eq_true_iff.1 (isBranchSlot_of_shapesKept hchanges.shapesKept hbranches)
    cases hslot.symm.trans hslot'
    cases hplain.symm.trans hbranch

namespace TailsLinked

theorem headSlot (h : TailsLinked head done g g') (ha : JunctionReady g root head room) :
    ∃ slot, g'.slotAt? head = some slot ∧
    slot.kind = .flow ∧ slot.isPrimary = false ∧ room ≤ slot.capacity ∧ slot.adjacent = done.map onward := by
  obtain ⟨slot, hslot, hflow, hsecondary, hroom⟩ := ha.slot
  obtain ⟨slot', hslot', htails⟩ := h.slot
  obtain ⟨slot₁, hslot₁, hshape⟩ := h.changes.shapesKept.slot hslot'
  cases hslot.symm.trans hslot₁
  refine ⟨slot', hslot', (congrArg Slot.kind hshape).symm.trans hflow,
    (congrArg Slot.isPrimary hshape).symm.trans hsecondary, ?_, htails⟩
  have hcapacity : slot.shape.capacity = slot'.shape.capacity := congrArg Slot.capacity hshape
  exact hroom.trans_eq hcapacity

theorem validateLink_eq (h : TailsLinked head done g g') (ha : JunctionReady g root head room)
    (hid : TailReady g root head.node id) (hnew : id ∉ done) (hroom : done.length < room) :
    g'.validateLink (onward id) head = .ok (.ok ⟨onward id, head, .flow⟩) := by
  have ht : EditInvariant True g' := ha.editInvariant.changes h.changes
  obtain ⟨out, hout, hflow, hprimary, hplain, hfree⟩ := hid.slot
  have hout' : g'.slotAt? (onward id) = some out := (h.others hid.other hnew).trans hout
  have hone : out.capacity = 1 :=
    congrArg Slot.capacity (ht.hasLayouts.flowSlot_of_primary hout' hflow hprimary hplain).1
  obtain ⟨inp, hinp, hflow', hsecondary, hcapacity, htails⟩ := h.headSlot ha
  refine validateLink_eq_ok_iff.2 ⟨out, inp, hout', hinp, ⟨hid.other, hflow.trans hflow'.symm, ?_, ?_, ?_, ?_⟩, ?_⟩
  · rw [hprimary, hsecondary]
    exact Bool.false_ne_true.symm
  · rw [hfree]
    exact List.not_mem_nil
  · rw [(ht.wellFormed.linksMatch.roomKnown hout').2, hfree, hone]
    rfl
  · rw [(ht.wellFormed.linksMatch.roomKnown hinp).2, htails, List.length_map, decide_eq_true_eq]
    exact hroom.trans_le hcapacity
  · rw [Slot.linkTo, if_pos hprimary, hflow]

theorem addLink (h : TailsLinked head done g g') (ha : JunctionReady g root head room)
    (hid : TailReady g root head.node id) (hnew : id ∉ done) (hroom : done.length < room) :
    TailsLinked head (done ++ [id]) g (g'.addLink ⟨onward id, head, .flow⟩) := by
  have hne : onward id ≠ head := fun he => hid.other (congrArg SlotRef.node he)
  have hslots := slotAt?_addLink (g := g') (l := ⟨onward id, head, .flow⟩) hne
  have hchanges : Changes clear g (g'.addLink ⟨onward id, head, .flow⟩) :=
    h.changes.tail (.link (h.validateLink_eq ha hid hnew hroom))
  obtain ⟨inp, hinp, hflow, hsecondary, -, htails⟩ := h.headSlot ha
  have hinp₁ := (hslots head).trans (if_neg hne.symm)
  rw [if_pos rfl, hinp, Option.map_some] at hinp₁
  refine ⟨⟨Changes.allKept hchanges, fun hx => ?_⟩, hchanges, fun i slot hslot hlinked => ?_, ⟨_, hinp₁, ?_⟩,
    fun {r} hr hdone => ?_⟩
  · exact ((sameFrames_addLink g' _).homeAt? _).trans (h.homes hx)
  · by_cases hi : SlotRef.mk head.node i = head
    · rw [hi] at hslot
      cases hinp₁.symm.trans hslot
      exact ⟨hflow, hsecondary⟩
    · rw [hslots, if_neg fun he => hid.other (congrArg SlotRef.node he).symm, if_neg hi] at hslot
      exact h.entered i slot hslot hlinked
  · rw [Slot.attach, Slot.refresh, htails, List.map_append]
    rfl
  · rw [List.mem_append, List.mem_singleton, not_or] at hdone
    rw [hslots, if_neg fun he => hdone.2 (congrArg SlotRef.node he), if_neg fun he => hr (congrArg SlotRef.node he)]
    exact h.others hr hdone.1

theorem exists_landsIn (h : TailsLinked head done g g') (ha : JunctionReady g root head room)
    (hready : ∀ x ∈ done, TailReady g root head.node x) (hne : done ≠ []) :
    ∃ t, LandsIn g (done.filterMap g.homeAt?) t ∧
      clear g' head.node t ∧ g'.scopeAfter (done.map onward) = .ok (some t) := by
  obtain ⟨t, hlands, hclear⟩ := ha.exists_landsIn hready hne
  have ht' : EditInvariant True g' := ha.editInvariant.changes h.changes
  have hsame : (done.map onward).filterMap (fun r => g'.homeAt? r.node) = done.filterMap g.homeAt? := by
    rw [List.filterMap_map]
    exact List.filterMap_congr fun x hx => h.homes (hready x hx).other
  refine ⟨t, hlands, h.clear hclear, scopeAfter_eq_of_landsIn (by simpa using hne) ?_ ?_⟩
  · intro r hr
    obtain ⟨x, hx, rfl⟩ := List.mem_map.1 hr
    obtain ⟨s, hs, -⟩ := (hready x hx).home
    refine ⟨(hready x hx).isBranchSlot_eq_false h.changes, ?_⟩
    rw [onward, h.homes (hready x hx).other, hs]
    exact Option.some_ne_none s
  · rw [hsame]
    exact h.landsIn ha.editInvariant ht' (filterMap_homes_ne_nil hready hne)
      (fun s hs => (ha.of_mem_homes hready hs).1) hlands

theorem moves (h : TailsLinked head done g g') {g₁ : Graph} (hmoves : Moves clear g' g₁)
    (hhomes : ∀ x, x ≠ head.node → g₁.homeAt? x = g'.homeAt? x) : TailsLinked head done g g₁ := by
  have hchanges : Changes clear g g₁ := h.changes.trans hmoves.changes
  refine ⟨⟨Changes.allKept hchanges, fun hx => (hhomes _ hx).trans (h.homes hx)⟩, hchanges,
    fun i slot hslot => ?_, ?_, ?_⟩
  · exact h.entered i slot ((hmoves.slotAt? _).symm.trans hslot)
  · simpa only [hmoves.slotAt?] using h.slot
  · exact fun hr hdone => (hmoves.slotAt? _).trans (h.others hr hdone)

end TailsLinked

namespace TailsJoined

theorem refl (h : JunctionReady g root head room) : TailsJoined head [] g g := by
  obtain ⟨slot, hslot, -⟩ := h.slot
  refine ⟨⟨⟨.refl g, fun _ => rfl⟩, .refl, fun i slot' hslot' hlinked => ?_, ⟨slot, hslot, h.fresh.unlinked hslot⟩,
    fun _ _ => rfl⟩, root, h.home, fun hne => (hne rfl).elim⟩
  exact (hlinked (h.fresh.unlinked hslot')).elim

theorem next (h : TailsJoined head done g g') (ha : JunctionReady g root head room)
    (hready : ∀ x ∈ done ++ [id], TailReady g root head.node x) (hnew : id ∉ done) (hroom : done.length < room) :
    ∃ g₂, g'.connect (onward id) head true = .ok (g₂, .ok ⟨onward id, head, .flow⟩) ∧
      TailsJoined head (done ++ [id]) g g₂ := by
  have hid : TailReady g root head.node id := hready id (List.mem_append_right _ List.mem_cons_self)
  have hled := h.addLink ha hid hnew hroom
  obtain ⟨s, hs, -⟩ := h.landsIn
  obtain ⟨slot, hslot, htails⟩ := hled.slot
  obtain ⟨t, hlands, hclear, hafter⟩ := hled.exists_landsIn ha hready (by simp)
  obtain ⟨g₂, hmoved, hhomes⟩ := (ha.editInvariant.changes hled.changes).changeScope_alone
    (((sameFrames_addLink g' _).homeAt? _).trans hs) hclear hled.entered.not_companion
  have hled₂ : TailsLinked head (done ++ [id]) g g₂ :=
    hled.moves (changeScope_moves (guards_clear t) hmoved) fun x hx => (hhomes x).trans (if_neg hx)
  refine ⟨g₂, ?_, hled₂, t, (hhomes _).trans (if_pos rfl), fun _ => hlands⟩
  exact connect_eq_of_landsIn (h.validateLink_eq ha hid hnew hroom) rfl (predecessors_eq hslot) (htails ▸ hafter) hmoved
    (hid.isBranchSlot_eq_false hled₂.changes)

theorem run (h : TailsJoined head done g g') (ha : JunctionReady g root head room)
    (hready : ∀ x ∈ done ++ ids, TailReady g root head.node x) (hnodup : (done ++ ids).Nodup)
    (hroom : (done ++ ids).length ≤ room) :
    ∃ g₂, JoinAll head ids g' g₂ ∧ TailsJoined head (done ++ ids) g g₂ := by
  induction ids generalizing done g' with
  | nil => exact ⟨g', .nil, (List.append_nil done).symm ▸ h⟩
  | cons id ids ih =>
    rw [List.append_cons] at hready hnodup hroom ⊢
    have hnew : id ∉ done := fun hid =>
      (List.nodup_append.1 (List.nodup_append.1 hnodup).1).2.2 id hid id List.mem_cons_self rfl
    have hfits : done.length < room := by
      rw [List.length_append, List.length_append, List.length_singleton] at hroom
      omega
    have hready' (x : NodeId) (hx : x ∈ done ++ [id]) : TailReady g root head.node x :=
      hready x (List.mem_append_left _ hx)
    obtain ⟨g₁, hconnect, h₁⟩ := h.next ha hready' hnew hfits
    obtain ⟨g₂, hjoinAll, h₂⟩ := ih h₁ hready hnodup hroom
    refine ⟨g₂, .cons ?_ hconnect hjoinAll, h₂⟩
    obtain ⟨hother, -, slot, hslot, hflow, hprimary, hplain, -⟩ :=
        hready' id (List.mem_append_right _ List.mem_cons_self)
    have ht' : EditInvariant True g' := ha.editInvariant.changes h.changes
    exact ht'.hasLayouts.flowOut?_eq_some_iff.2 ⟨rfl, slot, (h.others hother hnew).trans hslot, hflow, hprimary, hplain⟩

end TailsJoined

theorem Reachable.partitions_rootScope (hr : Reachable g) (hroot : g.rootScope = .ok root) {sc : Scope}
    (hsc : g.scopeAt? root = some sc) : sc.partitions = [] := by
  obtain ⟨n, hn, hinternal⟩ := rootScope_eq_ok_iff.1 hroot
  have hkind : n.kind = .entryPoint := by
    obtain ⟨n', hn', hkind⟩ := hr.wellFormed.rootIsEntryPoint
    cases hn.symm.trans hn'
    exact hkind
  have hscopesOfKind := hr.nodesOrdered.hasScopesOfKind hn
  rw [HasScopesOfKind, hkind, hinternal, Option.bind_some, hsc] at hscopesOfKind
  exact List.length_eq_zero_iff.1 (Option.some.inj hscopesOfKind).symm

theorem HasFreeFlowOut.of_reads {r : SlotRef} {found : Option Slot} (hs : g.homeAt? id = some s)
    (hinside : g.isAncestorOrSelf root s = .ok true) (hr : g.flowOut? id = .ok (some r))
    (hfound : g.slot? r = .ok found) (hfree : found.any (·.adjacent.isEmpty) = true) : HasFreeFlowOut g root id := by
  obtain ⟨slot, rfl, hempty⟩ := (Option.any_eq_true _ _).1 hfree
  exact ⟨⟨s, hs, hinside⟩, r, slot, hr, hfound, List.isEmpty_iff.1 hempty⟩

theorem HasFreeFlowOut.tailReady (h : HasFreeFlowOut g root id) (ht : EditInvariant True g) (hother : id ≠ m) :
    TailReady g root m id := by
  obtain ⟨s, hs, hinside⟩ := h.inside
  obtain ⟨r, slot, hr, hslot, hfree⟩ := h.free
  obtain ⟨rfl, slot', hslot', hflow, hprimary, hplain⟩ := ht.hasLayouts.flowOut?_eq_some_iff.1 hr
  cases hslot'.symm.trans (slot?_eq_some_iff.1 hslot)
  have hlive := ((ht.consistent trivial).ownersOnPath_home hs).live
  exact ⟨hother, ⟨s, hs, (ht.isAncestorOrSelf_iff hlive).1 hinside⟩, slot, hslot', hflow, hprimary, hplain, hfree⟩

/-- Nodes that are inside the root scope can all go on to one that is new there, in any order. It ends up where they lead,
which does not depend on the order, and all others stay where they are. -/
theorem Reachable.joining_commutes (hr : Reachable g) (hg : Consistent g) {e : Edit} (he : e.creates = true)
    (h : g.perform e = .ok g') (hroot : g.rootScope = .ok root) (hnew : g.contains m = false)
    (hn : g'.node m = .ok n) (hscope : n.scope = some root) (hhead : g'.flowIn? m = .ok (some head))
    {slot : Slot} (hslot : g'.slot? head = .ok (some slot)) (hne : ids ≠ []) (hnodup : ids.Nodup)
    (hroom : ids.length ≤ slot.capacity) (hready : ∀ id ∈ ids, id ≠ m ∧ HasFreeFlowOut g' root id) :
    ∃ target, LandsIn g' (ids.filterMap g'.homeAt?) target ∧ ∀ order : List NodeId, order.Perm ids →
      ∃ g₂, JoinAll head order g' g₂ ∧ g₂.homeAt? m = some target ∧ ∀ x, x ≠ m → g₂.homeAt? x = g'.homeAt? x := by
  have hm : g'.homeAt? m = some root := homeAt?_eq_some_iff.2 ⟨n, node_eq_ok_iff.1 hn, hscope⟩
  obtain ⟨hg', hfresh, hroot'⟩ := hr.fresh_of_creates hg he h hroot hnew hm hhead
  have hr' : Reachable g' := .edit e hr h
  have ht' := hr'.editInvariant hg'
  obtain ⟨rfl, slot', hslot', hflow, hsecondary⟩ := ht'.hasLayouts.flowIn?_eq_some hhead
  cases hslot'.symm.trans (slot?_eq_some_iff.1 hslot)
  have ha : JunctionReady g' root ⟨m, ⟨0⟩⟩ ids.length :=
    ⟨ht', hfresh, hm, hr'.partitions_rootScope hroot', slot, hslot', hflow, hsecondary, hroom⟩
  have hready' (id : NodeId) (hid : id ∈ ids) : TailReady g' root m id :=
    (hready id hid).2.tailReady ht' (hready id hid).1
  obtain ⟨target, hlands, -⟩ := ha.exists_landsIn hready' hne
  refine ⟨target, hlands, fun order hperm => ?_⟩
  have hordered : ∀ id ∈ [] ++ order, TailReady g' root m id := fun id hid => hready' id (hperm.mem_iff.1 hid)
  obtain ⟨g₂, hjoinAll, htailsJoined⟩ :=
      (TailsJoined.refl ha).run ha hordered (hperm.nodup_iff.2 hnodup) hperm.length_eq.le
  obtain ⟨t, ht, hlands'⟩ := htailsJoined.landsIn
  have hlands'' : LandsIn g' (order.filterMap g'.homeAt?) target :=
    ht'.landsIn_congr (filterMap_homes_ne_nil hready' hne) (fun s hs => (ha.of_mem_homes hready' hs).1.live)
      (fun s => (hperm.filterMap _).mem_iff) hlands
  have hsome : order ≠ [] := by
    rintro rfl
    exact hne (List.nil_perm.1 hperm)
  rw [(hlands' hsome).unique hlands''] at ht
  exact ⟨g₂, hjoinAll, ht, fun x => htailsJoined.homes⟩

/-- An `if` with an instruction on either side: node 8 in the partition 5, and node 9 in the partition 6. -/
def bothSides : Except Fault Graph := do
  [.emptyInstruction ⟨5⟩, .emptyInstruction ⟨6⟩].foldlM perform (← wayBack)

theorem consistent_bothSides (h : bothSides = .ok g) : Reachable g ∧ Consistent g := by
  obtain ⟨g₀, hbase, hsides⟩ := bind_eq_ok.1 h
  obtain ⟨hr, hconsistent⟩ := consistent_wayBack hbase
  refine consistent_foldlM hsides hr hconsistent ?_
  simp only [List.forall_mem_cons]
  exact ⟨⟨rfl, rfl⟩, ⟨rfl, rfl⟩, by simp⟩

/-- Both sides can go on to a new node 10. They share the block 4, and that is split, so the node stays in the scope
around it. -/
theorem joining_commutes_bothSides : ∃ g g', bothSides = .ok g ∧ Reachable g ∧ Consistent g ∧
    g.perform (.emptyInstruction ⟨2⟩) = .ok g' ∧ g'.homeAt? ⟨8⟩ = some ⟨5⟩ ∧ g'.homeAt? ⟨9⟩ = some ⟨6⟩ ∧
    ∀ order : List NodeId, order.Perm [⟨8⟩, ⟨9⟩] → ∃ g₂, JoinAll ⟨⟨10⟩, ⟨0⟩⟩ order g' g₂ ∧
      g₂.homeAt? ⟨10⟩ = some ⟨2⟩ ∧ ∀ x, x ≠ ⟨10⟩ → g₂.homeAt? x = g'.homeAt? x := by
  obtain ⟨u, h⟩ := exists_of_isOk (x := do
    let g ← bothSides
    let root ← g.rootScope
    let g' ← g.perform (.emptyInstruction ⟨2⟩)
    let n ← g'.node ⟨10⟩
    let head ← g'.flowIn? ⟨10⟩
    let slot ← g'.slot? ⟨⟨10⟩, ⟨0⟩⟩
    let out ← g'.flowOut? ⟨8⟩
    let free ← g'.slot? ⟨⟨8⟩, ⟨1⟩⟩
    let inside ← g'.isAncestorOrSelf ⟨2⟩ ⟨5⟩
    let out' ← g'.flowOut? ⟨9⟩
    let free' ← g'.slot? ⟨⟨9⟩, ⟨1⟩⟩
    let inside' ← g'.isAncestorOrSelf ⟨2⟩ ⟨6⟩
    let c ← g'.lowestCommonAncestor [⟨5⟩, ⟨6⟩]
    let sc ← g'.scope ⟨4⟩
    let up ← g'.parentScope? ⟨4⟩
    if ¬(root = ⟨2⟩ ∧ g.contains ⟨10⟩ = false ∧ n.scope = some ⟨2⟩ ∧ head = some ⟨⟨10⟩, ⟨0⟩⟩ ∧
      slot.any (2 ≤ ·.capacity) ∧
        g'.homeAt? ⟨8⟩ = some ⟨5⟩ ∧ out = some ⟨⟨8⟩, ⟨1⟩⟩ ∧ free.any (·.adjacent.isEmpty) ∧ inside = true ∧
        g'.homeAt? ⟨9⟩ = some ⟨6⟩ ∧ out' = some ⟨⟨9⟩, ⟨1⟩⟩ ∧ free'.any (·.adjacent.isEmpty) ∧ inside' = true ∧
        c = some ⟨4⟩ ∧ sc.isPartitioned = true ∧ up = some ⟨2⟩) then throw .endless) (by decide +kernel)
  simp only [bind_eq_ok] at h
  obtain ⟨g, hg, root, hroot, g', hcreate, n, hn, head, hhead, slot, hslot, h⟩ := h
  obtain ⟨out, hout, free, hfree, inside, hinside, out', hout', free', hfree', inside', hinside', h⟩ := h
  obtain ⟨c, hc, sc, hsc, up, hup, h⟩ := h
  split at h
  next => cases h
  next heq =>
    obtain ⟨rfl, hnew, hscope, rfl, hroom, h8, rfl, hempty, rfl, h9, rfl, hempty', rfl, rfl, hsplit, rfl⟩ :=
        not_not.1 heq
    obtain ⟨hr, hconsistent⟩ := consistent_bothSides hg
    have hready : ∀ id ∈ [⟨8⟩, ⟨9⟩], id ≠ ⟨10⟩ ∧ HasFreeFlowOut g' ⟨2⟩ id :=
      List.forall_mem_cons.2 ⟨⟨by decide, .of_reads h8 hinside hout hfree hempty⟩,
        List.forall_mem_singleton.2 ⟨by decide, .of_reads h9 hinside' hout' hfree' hempty'⟩⟩
    obtain ⟨inp, hinp, hcapacity⟩ := (Option.any_eq_true _ _).1 hroom
    subst hinp
    have hfits : ([⟨8⟩, ⟨9⟩] : List NodeId).length ≤ inp.capacity := of_decide_eq_true hcapacity
    obtain ⟨target, hlands, horders⟩ := hr.joining_commutes hconsistent rfl hcreate hroot hnew hn hscope hhead hslot
      (List.cons_ne_nil _ _) (by decide) hfits hready
    have hhomes : [⟨8⟩, ⟨9⟩].filterMap g'.homeAt? = [⟨5⟩, ⟨6⟩] := by
      rw [List.filterMap_cons_some h8, List.filterMap_cons_some h9, List.filterMap_nil]
    rw [hhomes] at hlands
    obtain ⟨c, sc', hc', hsc', htarget⟩ := hlands.apart (by
      rintro ⟨s, hs⟩
      obtain ⟨h5, h6⟩ := List.forall_mem_cons.1 hs
      cases h5.trans (List.forall_mem_singleton.1 h6).symm)
    cases hc.symm.trans hc'
    cases hsc.symm.trans hsc'
    obtain ⟨-, hup'⟩ := htarget.resolve_right fun hwhole => by cases hsplit.symm.trans hwhole.1
    cases hup.symm.trans hup'
    exact ⟨g, g', hg, hr, hconsistent, hcreate, h8, h9, horders⟩

end FlowGraph.Graph
