import FlowGraph.Proofs.Threads

/-!
# Branch slots of scopes

Control enters a scope through one branch slot. Every scope has one, but for those that are split, and every branch
slot is that of one scope. What it leads to can be told from the links alone.
-/

namespace FlowGraph

namespace Node.Layout

variable {l : Layout} {fanIn : Nat} {id : NodeId} {i : Nat} {slot : Slot}

theorem branchSlot_of_isBranch (h : (l.build fanIn id).slots[i]? = some slot) (hbranch : slot.isBranch = true) :
    ∃ side, slot = branchSlot i side ∧
      (l.kind = .entryPoint ∧ i = 0 ∧ side = .onFalse ∨ l.kind.isConditional = true ∧ i = side.index + 2) := by
  have hmem := List.mem_of_getElem? h
  cases l with
  | entryPoint =>
    obtain rfl := List.mem_singleton.1 hmem
    obtain ⟨hi, -⟩ := List.getElem?_eq_some_iff.1 h
    obtain rfl : i = 0 := Nat.lt_one_iff.1 hi
    exact ⟨.onFalse, rfl, .inl ⟨rfl, rfl, rfl⟩⟩
  | conditional c =>
    have hkind : (conditional c).kind.isConditional = true := by cases c <;> rfl
    have hslots : slot = branchSlot 2 .onFalse ∧ i = 2 ∨ slot = branchSlot 3 .onTrue ∧ i = 3 := by
      cases c <;>
        simp only [build, Node.conditional, List.cons_append, List.nil_append] at h <;>
        rcases i with _ | _ | _ | _ | _ | _ | _ | i <;>
        simp only [List.getElem?_cons_zero, List.getElem?_cons_succ, List.getElem?_nil, Option.some.injEq,
          reduceCtorEq] at h <;>
        subst h <;> simp_all [flowInSlot, flowOutSlot, branchSlot, inputSlot]
    rcases hslots with ⟨rfl, rfl⟩ | ⟨rfl, rfl⟩
    · exact ⟨.onFalse, rfl, .inr ⟨hkind, rfl⟩⟩
    · exact ⟨.onTrue, rfl, .inr ⟨hkind, rfl⟩⟩
  | invokable kind signature _ =>
    have hplain : ∀ slot ∈ (Node.invokable kind signature fanIn id).slots, slot.isBranch = false := by
      simp [Node.invokable, flowInSlot, flowOutSlot, outputSlot, inputSlot]
    cases hbranch.symm.trans (hplain slot hmem)
  | plain | emptyInstruction | literal _ | declaration _ _ | reference _ _ =>
    simp only [build, Node.plain, Node.emptyInstruction, Node.literal, Node.declaration, Node.reference,
      List.mem_cons, List.not_mem_nil, or_false] at hmem
    rcases hmem with rfl | rfl | rfl | rfl <;> cases hbranch

end Node.Layout

namespace Graph

variable {g g' : Graph} {id x : NodeId} {n : Node} {s t : ScopeId} {r r' : SlotRef}

structure WellFormedLayout (g : Graph) : Prop extends WellFormed g, HasLayouts g, ConditionalsSplit g

theorem Reachable.wellFormedLayout (h : Reachable g) : WellFormedLayout g :=
  ⟨h.wellFormed, h.hasLayouts, h.rootFinitelyNested.toConditionalsSplit⟩

theorem WellFormedLayout.steps {may : Graph → NodeId → ScopeId → Prop} (h : WellFormedLayout g)
    (hsteps : Steps may g g') : WellFormedLayout g' :=
  ⟨h.toWellFormed.steps hsteps, h.toHasLayouts.steps hsteps, h.toConditionalsSplit.survivorsKept hsteps.survivorsKept⟩

theorem WellFormedLayout.changes {may : Graph → NodeId → ScopeId → Prop} (h : WellFormedLayout g)
    (hchanges : Changes may g g') :
    WellFormedLayout g' :=
  h.steps hchanges.steps

namespace HasLayouts

variable {i : Nat} {slot : Slot}

theorem branchSlot (h : HasLayouts g) (hn : g.nodeAt? id = some n) (hslot : n.slots[i]? = some slot)
    (hbranch : slot.isBranch = true) : ∃ side, slot.shape = Node.branchSlot i side ∧
      (n.kind = .entryPoint ∧ i = 0 ∧ side = .onFalse ∨ n.kind.isConditional = true ∧ i = side.index + 2) := by
  obtain ⟨l, built, hkind, hbuilt, heq⟩ := h.exists_built hn hslot
  have hbranch' : built.isBranch = true := (congrArg Slot.isBranch heq).trans hbranch
  obtain ⟨side, rfl, hcases⟩ := Node.Layout.branchSlot_of_isBranch hbuilt hbranch'
  rw [hkind]
  exact ⟨side, heq.symm, hcases⟩

theorem traits_of_branch (h : HasLayouts g) (hn : g.nodeAt? id = some n) (hslot : n.slots[i]? = some slot)
    (hbranch : slot.isBranch = true) : slot.kind = .flow ∧ slot.isPrimary = true ∧ slot.capacity = 1 := by
  obtain ⟨side, hshape, -⟩ := h.branchSlot hn hslot hbranch
  exact ⟨congrArg Slot.kind hshape, congrArg Slot.isPrimary hshape, congrArg Slot.capacity hshape⟩

theorem eq_of_position (h : HasLayouts g) (hn : g.nodeAt? id = some n) {j : Nat} {slot' : Slot}
    (hslot : n.slots[i]? = some slot) (hslot' : n.slots[j]? = some slot') (hbranch : slot.isBranch = true)
    (hbranch' : slot'.isBranch = true) (hposition : slot.position = slot'.position) : i = j := by
  obtain ⟨side, hshape, hcases⟩ := h.branchSlot hn hslot hbranch
  obtain ⟨side', hshape', hcases'⟩ := h.branchSlot hn hslot' hbranch'
  have hindex : side.index = side'.index :=
    (congrArg Slot.position hshape).symm.trans (hposition.trans (congrArg Slot.position hshape'))
  rcases hcases with ⟨hkind, rfl, -⟩ | ⟨hkind, rfl⟩
  · rcases hcases' with ⟨-, rfl, -⟩ | ⟨hkind', -⟩
    · rfl
    · rw [hkind] at hkind'
      cases hkind'
  · rcases hcases' with ⟨hkind', -⟩ | ⟨-, rfl⟩
    · rw [hkind'] at hkind
      cases hkind
    · rw [hindex]

theorem findSlotAt?_branchOut_iff (h : HasLayouts g) (hn : g.nodeAt? id = some n) {position : Nat} :
    n.findSlotAt? .branchOut position = some slot ↔
      ∃ i : Nat, n.slots[i]? = some slot ∧ slot.isBranch = true ∧ slot.position = position := by
  have hflags (slot : Slot) : slot.hasFlags .branchOut = true ↔
      slot.kind = .flow ∧ slot.isPrimary = true ∧ slot.isBranch = true := by
    simp [Slot.hasFlags, SlotFlags.contains, Slot.flags, SlotFlags.branchOut, and_assoc]
  have hfound {slot : Slot} (hfind : n.findSlotAt? .branchOut position = some slot) :
      ∃ i : Nat, n.slots[i]? = some slot ∧ slot.isBranch = true ∧ slot.position = position := by
    obtain ⟨hmem, hout⟩ := List.mem_filter.1 (List.mem_of_find?_eq_some hfind)
    obtain ⟨i, hi⟩ := List.getElem?_of_mem hmem
    exact ⟨i, hi, ((hflags slot).1 hout).2.2, by simpa using List.find?_some hfind⟩
  refine ⟨hfound, ?_⟩
  rintro ⟨i, hi, hbranch, hposition⟩
  obtain ⟨hkind, hprimary, -⟩ := h.traits_of_branch hn hi hbranch
  have hmem : slot ∈ n.filterSlots .branchOut :=
    List.mem_filter.2 ⟨List.mem_of_getElem? hi, (hflags slot).2 ⟨hkind, hprimary, hbranch⟩⟩
  cases hfind : n.findSlotAt? .branchOut position with
  | none => exact (List.find?_eq_none.1 hfind slot hmem (beq_iff_eq.2 hposition)).elim
  | some slot' =>
    obtain ⟨j, hj, hbranch', hposition'⟩ := hfound hfind
    obtain rfl := h.eq_of_position hn hi hj hbranch hbranch' (hposition.trans hposition'.symm)
    exact hj.symm.trans hi

end HasLayouts

def BranchSlotOf (g : Graph) (s : ScopeId) (r : SlotRef) : Prop :=
  ∃ sc slot, g.scopeAt? s = some sc ∧ sc.partitions = [] ∧ sc.owner = r.node ∧ g.slotAt? r = some slot ∧
    slot.isBranch = true ∧ slot.position = sc.partitionIndex?.getD 0

namespace BranchSlotOf

theorem unique (hl : HasLayouts g) (h : BranchSlotOf g s r) (h' : BranchSlotOf g s r') : r = r' := by
  obtain ⟨sc, slot, hsc, -, howner, hslot, hbranch, hposition⟩ := h
  obtain ⟨sc', slot', hsc', -, howner', hslot', hbranch', hposition'⟩ := h'
  cases hsc.symm.trans hsc'
  obtain ⟨x, ⟨i⟩⟩ := r
  obtain ⟨x', ⟨i'⟩⟩ := r'
  cases howner
  cases howner'
  obtain ⟨n, hn, hi⟩ := Option.bind_eq_some_iff.1 hslot
  obtain ⟨n', hn', hi'⟩ := Option.bind_eq_some_iff.1 hslot'
  cases hn.symm.trans hn'
  cases hl.eq_of_position hn hi hi' hbranch hbranch' (hposition.trans hposition'.symm)
  rfl

theorem congr (h : BranchSlotOf g s r)
    (hscope : ∀ sc, g.scopeAt? s = some sc → ∃ sc', g'.scopeAt? s = some sc' ∧ sc'.skeleton = sc.skeleton)
    (hslot : ∀ slot, g.slotAt? r = some slot → ∃ slot', g'.slotAt? r = some slot' ∧ slot'.shape = slot.shape) :
    BranchSlotOf g' s r := by
  obtain ⟨sc, slot, hsc, hwhole, howner, hr, hbranch, hposition⟩ := h
  obtain ⟨sc', hsc', hskeleton⟩ := hscope sc hsc
  obtain ⟨slot', hr', hshape⟩ := hslot slot hr
  obtain ⟨howner', hkind, hpartitions⟩ := Scope.of_skeleton hskeleton
  refine ⟨sc', slot', hsc', hpartitions.trans hwhole, howner'.trans howner, hr', ?_, ?_⟩
  · exact (congrArg Slot.isBranch hshape).trans hbranch
  · rw [Scope.partitionIndex?, hkind]
    exact (congrArg Slot.position hshape).trans hposition

end BranchSlotOf

theorem slot_of_shape {n' : Node} (h : n'.shape = n.shape) {i : SlotId} {slot : Slot} (hslot : n.slot? i = some slot) :
    ∃ slot', n'.slot? i = some slot' ∧ slot'.shape = slot.shape := by
  obtain ⟨-, -, -, -, hslots⟩ := Node.of_shape h
  have hi : (n'.slots.map Slot.shape)[i.index]? = some slot.shape := by
    rw [hslots, List.getElem?_map]
    exact congrArg (Option.map Slot.shape) hslot
  rwa [List.getElem?_map, Option.map_eq_some_iff] at hi

theorem ShapesKept.slot (hm : ShapesKept g g') {slot' : Slot} (h : g'.slotAt? r = some slot') :
    ∃ slot, g.slotAt? r = some slot ∧ slot.shape = slot'.shape := by
  obtain ⟨n', hn', hslot'⟩ := Option.bind_eq_some_iff.1 h
  obtain ⟨n, hn, hshape⟩ := hm _ n' hn'
  obtain ⟨slot, hslot, hsame⟩ := slot_of_shape hshape.symm hslot'
  exact ⟨slot, Option.bind_eq_some_iff.2 ⟨n, hn, hslot⟩, hsame⟩

theorem BranchSlotOf.of_survivorsKept (hl : SurvivorsKept g g') (hm : ShapesKept g g') (h : BranchSlotOf g' s r) :
    BranchSlotOf g s r := by
  refine h.congr (fun sc' hsc' => ?_) fun slot' hslot' => hm.slot hslot'
  obtain ⟨sc, hsc, hskeleton⟩ := hl.scope hsc'
  exact ⟨sc, hsc, hskeleton.symm⟩

theorem BranchSlotOf.allKept (hs : AllKept g g') (hm : ShapesKept g g') (h : BranchSlotOf g s r) :
    BranchSlotOf g' s r := by
  refine h.congr (fun sc hsc => hs.scope_of hsc) fun slot hslot => ?_
  obtain ⟨n, hn, hslot⟩ := Option.bind_eq_some_iff.1 hslot
  obtain ⟨n', hn', -⟩ := hs.node_of hn
  obtain ⟨m, hm, hshape⟩ := hm _ n' hn'
  cases hn.symm.trans hm
  obtain ⟨slot', hslot', hsame⟩ := slot_of_shape hshape hslot
  exact ⟨slot', Option.bind_eq_some_iff.2 ⟨n', hn', hslot'⟩, hsame⟩

theorem branchSlotOf_changes {may : Graph → NodeId → ScopeId → Prop} (h : Changes may g g') :
    BranchSlotOf g' s r ↔ BranchSlotOf g s r :=
  ⟨.of_survivorsKept h.allKept.toSurvivorsKept h.shapesKept, .allKept h.allKept h.shapesKept⟩

theorem isBranchSlot_eq_true_iff :
    g.isBranchSlot r = .ok true ↔ ∃ slot, g.slotAt? r = some slot ∧ slot.isBranch = true := by
  simp only [isBranchSlot, slot?, bind_eq_ok, pure_eq_ok]
  constructor
  · rintro ⟨_, ⟨found, hfound, rfl⟩, hany⟩
    cases found with
    | none => cases hany
    | some n =>
      rw [Option.bind_some] at hany
      cases hslot : n.slot? r.slot with
      | none =>
        rw [hslot] at hany
        cases hany
      | some slot =>
        rw [hslot] at hany
        exact ⟨slot, Option.bind_eq_some_iff.2 ⟨n, nodeAt?_of_node? hfound, hslot⟩, hany⟩
  · rintro ⟨slot, hslot, hbranch⟩
    obtain ⟨n, hn, hslot⟩ := Option.bind_eq_some_iff.1 hslot
    exact ⟨_, ⟨some n, node?_eq_some_iff.2 hn, rfl⟩, by rw [Option.bind_some, hslot, Option.any_some, hbranch]⟩

theorem branchScope_eq_some_iff : g.branchScope r = .ok (some s) ↔ ∃ slot n i si, g.slotAt? r = some slot ∧
    g.nodeAt? r.node = some n ∧ n.internalScope = some i ∧ g.scopeAt? i = some si ∧
      (si.partitions = [] ∧ s = i ∨ si.partitions[slot.position]? = some s) := by
  have hchoice (i : ScopeId) (si : Scope) (slot : Slot) :
      (if si.isPartitioned then si.partition? slot.position else some i) = some s ↔
        si.partitions = [] ∧ s = i ∨ si.partitions[slot.position]? = some s := by
    cases hpartitions : si.partitions with
    | nil => simp [Scope.isPartitioned, hpartitions, eq_comm]
    | cons p ps => simp [Scope.isPartitioned, Scope.partition?, hpartitions]
  simp only [branchScope, bind_eq_ok]
  constructor
  · rintro ⟨found, hfound, h⟩
    cases found with
    | none => cases h
    | some slot =>
      simp only [bind_eq_ok, node_eq_ok_iff] at h
      obtain ⟨n, hn, h⟩ := h
      cases hi : n.internalScope with
      | none =>
        rw [hi] at h
        cases h
      | some i =>
        simp only [hi, bind_eq_ok, scope_eq_ok_iff, pure_eq_ok] at h
        obtain ⟨si, hsi, h⟩ := h
        exact ⟨slot, n, i, si, slotAt?_of_slot? hfound, hn, hi, hsi, (hchoice i si slot).1 h⟩
  · rintro ⟨slot, n, i, si, hslot, hn, hi, hsi, h⟩
    refine ⟨some slot, ?_, ?_⟩
    · rw [slot?, node?_eq_some_iff.2 hn, ok_bind, ← hslot, slotAt?, hn]
      rfl
    · simp only [node_eq_ok_iff.2 hn, ok_bind, hi, scope_eq_ok_iff.2 hsi, (hchoice i si slot).2 h]
      rfl

/-- Every branch slot is that of the scope that is entered through it. -/
theorem branchSlotOf_iff (h : WellFormedLayout g) :
    BranchSlotOf g s r ↔ g.isBranchSlot r = .ok true ∧ g.branchScope r = .ok (some s) := by
  rw [isBranchSlot_eq_true_iff, branchScope_eq_some_iff]
  constructor
  · rintro ⟨sc, slot, hsc, hwhole, howner, hslot, hbranch, hposition⟩
    refine ⟨⟨slot, hslot, hbranch⟩, ?_⟩
    obtain ⟨n, i, si, hn, hi, hsi, hs⟩ := h.scopesOwned.home hsc
    refine ⟨slot, n, i, si, hslot, howner ▸ hn, hi, hsi, ?_⟩
    rcases hs with rfl | hs
    · cases hsc.symm.trans hsi
      exact .inl ⟨hwhole, rfl⟩
    · obtain ⟨j, hj⟩ := List.getElem?_of_mem hs
      obtain ⟨si', hsi', -, -, hparts⟩ := h.scopesOwned.internal hn hi
      cases hsi.symm.trans hsi'
      obtain ⟨sp, hsp, -, hkind⟩ := hparts j s hj
      cases hsc.symm.trans hsp
      rw [Scope.partitionIndex?, hkind] at hposition
      exact .inr (hposition ▸ hj)
  · rintro ⟨⟨slot, hslot, hbranch⟩, slot', n, i, si, hslot', hn, hi, hsi, hs⟩
    cases hslot.symm.trans hslot'
    obtain ⟨si', hsi', howner, hinternal, hparts⟩ := h.scopesOwned.internal hn hi
    cases hsi.symm.trans hsi'
    rcases hs with ⟨hwhole, rfl⟩ | hs
    · refine ⟨si, slot, hsi, hwhole, howner, hslot, hbranch, ?_⟩
      obtain ⟨m, hm, hindex⟩ := Option.bind_eq_some_iff.1 hslot
      cases hn.symm.trans hm
      obtain ⟨side, hshape, ⟨-, -, rfl⟩ | ⟨hkind, -⟩⟩ := h.toHasLayouts.branchSlot hn hindex hbranch
      · rw [Scope.partitionIndex?, hinternal]
        exact congrArg Slot.position hshape
      · exact (h.split hn hkind hi hsi hwhole).elim
    · obtain ⟨sp, hsp, howner', hkind⟩ := hparts _ s hs
      refine ⟨sp, slot, hsp, h.unsplit hsp hkind, howner', hslot, hbranch, ?_⟩
      rw [Scope.partitionIndex?, hkind]
      rfl

/-- The scope that a node is in. -/
def homeAt? (g : Graph) (x : NodeId) : Option ScopeId := (g.nodeAt? x).bind (·.scope)

def BranchLeadsTo (g : Graph) (s : ScopeId) (x : NodeId) : Prop :=
  ∃ l ∈ g.links .flow, BranchSlotOf g s l.tail ∧ l.head.node = x ∧ g.homeAt? x = some s

theorem adjacent_of_branchSlotOf {l : Link} (h : WellFormedLayout g) (hl : l ∈ g.links .flow)
    (hbranchSlotOf : BranchSlotOf g s l.tail) :
    ∃ slot, g.slotAt? l.tail = some slot ∧ slot.adjacent = [l.head] := by
  obtain ⟨-, slot, -, -, -, hslot, hbranch, -⟩ := hbranchSlotOf
  obtain ⟨n, hn, hindex⟩ := Option.bind_eq_some_iff.1 hslot
  obtain ⟨-, -, hcapacity⟩ := h.toHasLayouts.traits_of_branch hn hindex hbranch
  obtain ⟨-, -, t, -, ht, -, -, -, -, -, hhead, -⟩ := h.linksMatch.joined hl
  cases hslot.symm.trans ht
  obtain ⟨hroom, -⟩ := h.linksMatch.roomKnown hslot
  rw [hcapacity] at hroom
  refine ⟨slot, hslot, ?_⟩
  obtain ⟨r, hr⟩ := List.length_eq_one_iff.1 (Nat.le_antisymm hroom (List.length_pos_of_mem hhead))
  rw [hr] at hhead ⊢
  rw [List.mem_singleton.1 hhead]

theorem eq_of_branchSlotOf {l l' : Link} (h : WellFormedLayout g) (hl : l ∈ g.links .flow) (hl' : l' ∈ g.links .flow)
    (hbranchSlotOf : BranchSlotOf g s l.tail) (hbranchSlotOf' : BranchSlotOf g s l'.tail) : l = l' := by
  have htail := hbranchSlotOf.unique h.toHasLayouts hbranchSlotOf'
  obtain ⟨slot, hslot, hadjacent⟩ := adjacent_of_branchSlotOf h hl hbranchSlotOf
  obtain ⟨slot', hslot', hadjacent'⟩ := adjacent_of_branchSlotOf h hl' hbranchSlotOf'
  rw [← htail] at hslot'
  cases hslot.symm.trans hslot'
  exact h.linksMatch.eq_of_ends hl hl' htail (List.singleton_inj.1 (hadjacent.symm.trans hadjacent'))

theorem homeAt?_eq_some_iff : g.homeAt? x = some s ↔ ∃ n, g.nodeAt? x = some n ∧ n.scope = some s :=
  Option.bind_eq_some_iff

theorem headOf_eq_some_iff (h : WellFormedLayout g) : g.headOf s = .ok (some x) ↔ BranchLeadsTo g s x := by
  simp only [headOf, bind_eq_ok, scope_eq_ok_iff]
  constructor
  · rintro ⟨sc, hsc, hhead⟩
    split at hhead
    next => cases hhead
    next hwhole =>
      simp only [bind_eq_ok, node_eq_ok_iff] at hhead
      obtain ⟨n, hn, hhead⟩ := hhead
      split at hhead
      next => cases hhead
      next r hr =>
        simp only [bind_eq_ok, node_eq_ok_iff] at hhead
        obtain ⟨m, hm, hhead⟩ := hhead
        split at hhead
        next hscope =>
          cases hhead
          obtain ⟨slot, hfind, hfirst⟩ := Option.bind_eq_some_iff.1 hr
          obtain ⟨i, hi, hbranch, hposition⟩ := (h.toHasLayouts.findSlotAt?_branchOut_iff hn).1 hfind
          obtain ⟨hkind, hprimary, -⟩ := h.toHasLayouts.traits_of_branch hn hi hbranch
          have hslot : g.slotAt? ⟨sc.owner, ⟨i⟩⟩ = some slot := Option.bind_eq_some_iff.2 ⟨n, hn, hi⟩
          -- a branch slot is where links start, so its neighbour is where the link goes
          have hlink := h.linksMatch.registered hslot (List.mem_of_mem_head? hfirst)
          rw [Slot.linkTo, if_pos hprimary, hkind] at hlink
          refine ⟨_, hlink, ⟨sc, slot, hsc, ?_, rfl, hslot, hbranch, hposition⟩, rfl,
            homeAt?_eq_some_iff.2 ⟨m, hm, hscope⟩⟩
          simpa [Scope.isPartitioned] using hwhole
        next => cases hhead
  · rintro ⟨l, hl, hbranchSlot, rfl, hhome⟩
    obtain ⟨slot, hslot, hadjacent⟩ := adjacent_of_branchSlotOf h hl hbranchSlot
    obtain ⟨sc, slot', hsc, hwhole, howner, hslot', hbranch, hposition⟩ := hbranchSlot
    cases hslot.symm.trans hslot'
    obtain ⟨n, hn, hindex⟩ := Option.bind_eq_some_iff.1 hslot
    obtain ⟨m, hm, hscope⟩ := homeAt?_eq_some_iff.1 hhome
    have hfind : (n.findSlotAt? .branchOut (sc.partitionIndex?.getD 0)).bind Slot.first? = some l.head := by
      rw [(h.toHasLayouts.findSlotAt?_branchOut_iff hn).2 ⟨_, hindex, hbranch, hposition⟩,
        Option.bind_some, Slot.first?,
        hadjacent, List.head?_cons]
    have hsplit : ¬sc.isPartitioned = true := by simp [Scope.isPartitioned, hwhole]
    refine ⟨sc, hsc, ?_⟩
    rw [if_neg hsplit, howner, node_eq_ok_iff.2 hn, ok_bind, hfind]
    simp only [node_eq_ok_iff.2 hm, ok_bind, if_pos hscope]
    rfl

theorem exists_headOf {sc : Scope} (h : WellFormedLayout g) (hsc : g.scopeAt? s = some sc) :
    ∃ head, g.headOf s = .ok head := by
  simp only [headOf, scope_eq_ok_iff.2 hsc, ok_bind]
  split
  next => exact ⟨none, rfl⟩
  next =>
    obtain ⟨n, -, -, hn, -⟩ := h.scopesOwned.home hsc
    rw [node_eq_ok_iff.2 hn, ok_bind]
    split
    next => exact ⟨none, rfl⟩
    next r hr =>
      obtain ⟨slot, hfind, hfirst⟩ := Option.bind_eq_some_iff.1 hr
      obtain ⟨i, hi, -⟩ := (h.toHasLayouts.findSlotAt?_branchOut_iff hn).1 hfind
      obtain ⟨m, hm⟩ := node_of_slot h.linksMatch hn (List.mem_of_getElem? hi) (List.mem_of_mem_head? hfirst)
      exact ⟨_, bind_eq_ok.2 ⟨m, node_eq_ok_iff.2 hm, rfl⟩⟩

end Graph

end FlowGraph
