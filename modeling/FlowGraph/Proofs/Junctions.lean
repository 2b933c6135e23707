import FlowGraph.Proofs.Ancestors
import FlowGraph.Proofs.Inventory

/-!
# Where control comes together

A node that control comes to from several others belongs where all of those are or, if they are apart, in the nearest
scope around them. This depends on the scopes that they are in, and not on the order of the links. It is the same before
and after the node moves there, as long as none of them is inside of it.
-/

namespace FlowGraph

theorem filterMapM_eq_ok {ε α β : Type} {f : α → Except ε (Option β)} {f' : α → Option β} {as : List α}
    (h : ∀ a ∈ as, f a = .ok (f' a)) : as.filterMapM f = .ok (as.filterMap f') := by
  induction as with
  | nil => rfl
  | cons a as ih =>
    obtain ⟨ha, has⟩ := List.forall_mem_cons.1 h
    rw [List.filterMapM_cons, ha, ok_bind]
    cases hb : f' a with
    | none => exact (ih has).trans (congrArg Except.ok (List.filterMap_cons_none hb).symm)
    | some b =>
      rw [List.filterMap_cons_some hb]
      exact bind_eq_ok.2 ⟨_, ih has, rfl⟩

namespace Node.Layout

theorem flow_of_not_branch {l : Layout} {fanIn : Nat} {id : NodeId} {i : Nat} {slot : Slot}
    (h : (l.build fanIn id).slots[i]? = some slot) (hflow : slot.kind = .flow) (hplain : slot.isBranch = false) :
    slot = flowInSlot 0 fanIn ∧ i = 0 ∨ slot = flowOutSlot 1 ∧ i = 1 := by
  have hfront (rest : List Slot) (hrest : ∀ slot ∈ rest, slot.kind = .flow → slot.isBranch = true)
      (h : (flowInSlot 0 fanIn :: flowOutSlot 1 :: rest)[i]? = some slot) :
      slot = flowInSlot 0 fanIn ∧ i = 0 ∨ slot = flowOutSlot 1 ∧ i = 1 := by
    rcases i with _ | _ | i
    · exact .inl ⟨(Option.some.inj h).symm, rfl⟩
    · exact .inr ⟨(Option.some.inj h).symm, rfl⟩
    · cases hplain.symm.trans (hrest slot (List.mem_of_getElem? (i := i) h) hflow)
  have hmem : slot ∈ (l.build fanIn id).slots := List.mem_of_getElem? h
  have hnone (h : ∀ slot ∈ (l.build fanIn id).slots, slot.kind = .flow → slot.isBranch = true) : False := by
    cases hplain.symm.trans (h slot hmem hflow)
  cases l with
  | plain => exact hfront [outputSlot 2 fanIn] (by simp [outputSlot]) h
  | emptyInstruction => exact hfront [outputSlot 2 fanIn] (by simp [outputSlot]) h
  | declaration type name => exact hfront [inputSlot 2 0, outputSlot 3 fanIn] (by simp [inputSlot, outputSlot]) h
  | invokable kind signature callable =>
    refine hfront (outputSlot 2 fanIn :: (List.range signature.arity).map fun i => inputSlot (i + 3) (i + 1)) ?_ h
    simp [outputSlot, inputSlot]
  | conditional c =>
    cases c with
    | ifElse | whileLoop =>
      exact hfront [branchSlot 2 .onFalse, branchSlot 3 .onTrue, inputSlot 4 1] (by simp [branchSlot, inputSlot]) h
    | forLoop =>
      refine hfront ([branchSlot 2 .onFalse, branchSlot 3 .onTrue, inputSlot 4 1] ++ [inputSlot 5 2,
        inputSlot 6 3]) ?_ h
      simp [branchSlot, inputSlot]
  | entryPoint =>
    exact (hnone (by simp [build, Node.entryPoint, branchSlot])).elim
  | literal value =>
    exact (hnone (by simp [build, Node.literal, outputSlot])).elim
  | reference type name =>
    exact (hnone (by simp [build, Node.reference, outputSlot, inputSlot])).elim

end Node.Layout

namespace Graph

open Relation

variable {g g' : Graph} {id m x y : NodeId} {s t c : ScopeId} {n : Node} {r : SlotRef} {slot : Slot}
  {ss ss' : List ScopeId}

namespace HasLayouts

theorem flowSlot (h : HasLayouts g) (hslot : g.slotAt? r = some slot) (hflow : slot.kind = .flow)
    (hplain : slot.isBranch = false) :
    slot.shape = Node.flowInSlot 0 g.config.fanIn ∧ r.slot = ⟨0⟩ ∨ slot.shape = Node.flowOutSlot 1 ∧ r.slot = ⟨1⟩ := by
  obtain ⟨n, hn, hindex⟩ := Option.bind_eq_some_iff.1 hslot
  obtain ⟨l, built, -, hbuilt, heq⟩ := h.exists_built hn hindex
  rw [← heq]
  rcases Node.Layout.flow_of_not_branch hbuilt ((congrArg Slot.kind heq).trans hflow)
    ((congrArg Slot.isBranch heq).trans hplain) with ⟨rfl, hi⟩ | ⟨rfl, hi⟩
  · exact .inl ⟨rfl, congrArg SlotId.mk hi⟩
  · exact .inr ⟨rfl, congrArg SlotId.mk hi⟩

theorem flowSlot_of_primary (h : HasLayouts g) (hslot : g.slotAt? r = some slot) (hflow : slot.kind = .flow)
    (hprimary : slot.isPrimary = true) (hplain : slot.isBranch = false) :
    slot.shape = Node.flowOutSlot 1 ∧ r.slot = ⟨1⟩ := by
  refine (h.flowSlot hslot hflow hplain).resolve_left ?_
  rintro ⟨hshape, -⟩
  have hsecondary : slot.isPrimary = false := congrArg Slot.isPrimary hshape
  cases hprimary.symm.trans hsecondary

theorem flowSlot_of_secondary (h : HasLayouts g) (hslot : g.slotAt? r = some slot) (hflow : slot.kind = .flow)
    (hsecondary : slot.isPrimary = false) : slot.shape = Node.flowInSlot 0 g.config.fanIn ∧ r.slot = ⟨0⟩ := by
  have hplain : slot.isBranch = false := by
    obtain ⟨n, hn, hindex⟩ := Option.bind_eq_some_iff.1 hslot
    by_contra hbranch
    cases hsecondary.symm.trans (h.traits_of_branch hn hindex (Bool.not_eq_false _ ▸ hbranch)).2.1
  refine (h.flowSlot hslot hflow hplain).resolve_right ?_
  rintro ⟨hshape, -⟩
  have hprimary : slot.isPrimary = true := congrArg Slot.isPrimary hshape
  cases hsecondary.symm.trans hprimary

end HasLayouts

theorem findSlot?_eq_some_iff {find : Node → Option Slot} :
    g.findSlot? id find = .ok (some r) ↔ ∃ n slot, g.nodeAt? id = some n ∧ find n = some slot ∧ n.slotRef slot = r := by
  simp only [findSlot?, bind_eq_ok, pure_eq_ok, Option.bind_eq_some_iff, Option.map_eq_some_iff]
  constructor
  · rintro ⟨_, hfound, n, rfl, slot, hslot, hr⟩
    exact ⟨n, slot, nodeAt?_of_node? hfound, hslot, hr⟩
  · rintro ⟨n, slot, hn, hslot, hr⟩
    exact ⟨some n, node?_eq_some_iff.2 hn, n, rfl, slot, hslot, hr⟩

def onward (id : NodeId) : SlotRef := ⟨id, ⟨1⟩⟩

namespace HasLayouts

theorem flowOut?_eq_some_iff (h : HasLayouts g) : g.flowOut? id = .ok (some r) ↔ r = onward id ∧
    ∃ slot, g.slotAt? r = some slot ∧ slot.kind = .flow ∧ slot.isPrimary = true ∧ slot.isBranch = false := by
  have hfound (r : SlotRef) (hr : g.flowOut? id = .ok (some r)) : r = onward id ∧
      ∃ slot, g.slotAt? r = some slot ∧ slot.kind = .flow ∧ slot.isPrimary = true ∧ slot.isBranch = false := by
    obtain ⟨n, slot, hn, hfind, rfl⟩ := findSlot?_eq_some_iff.1 hr
    obtain ⟨hmem, hflags⟩ := List.mem_filter.1 (List.mem_of_find?_eq_some hfind)
    obtain ⟨hflow, hprimary⟩ := slot.hasFlags_flowOut_iff.1 hflags
    have hplain : slot.isBranch = false := by simpa using List.find?_some hfind
    obtain ⟨i, hi⟩ := List.getElem?_of_mem hmem
    have hslot : g.slotAt? ⟨id, ⟨i⟩⟩ = some slot := Option.bind_eq_some_iff.2 ⟨n, hn, hi⟩
    obtain ⟨hshape, hindex⟩ := h.flowSlot_of_primary hslot hflow hprimary hplain
    have href : n.slotRef slot = onward id := by
      rw [Node.slotRef, h.id_eq hn, show slot.id = ⟨1⟩ from congrArg Slot.id hshape, onward]
    cases hindex
    exact ⟨href, slot, href ▸ hslot, hflow, hprimary, hplain⟩
  refine ⟨hfound r, ?_⟩
  rintro ⟨rfl, slot, hslot, hflow, hprimary, hplain⟩
  obtain ⟨n, hn, hslot⟩ := Option.bind_eq_some_iff.1 hslot
  have hmem : slot ∈ n.filterSlots .flowOut :=
    List.mem_filter.2 ⟨List.mem_of_getElem? hslot, slot.hasFlags_flowOut_iff.2 ⟨hflow, hprimary⟩⟩
  obtain ⟨slot', hfind⟩ := Option.isSome_iff_exists.1
    (List.find?_isSome (p := fun slot => !slot.isBranch).2 ⟨slot, hmem, by rw [hplain]; rfl⟩)
  have hnext : g.flowOut? id = .ok (some (n.slotRef slot')) := findSlot?_eq_some_iff.2 ⟨n, slot', hn, hfind, rfl⟩
  rw [hnext, (hfound _ hnext).1]

theorem flowIn?_eq_some (h : HasLayouts g) (hr : g.flowIn? id = .ok (some r)) : r = ⟨id, ⟨0⟩⟩ ∧
    ∃ slot, g.slotAt? r = some slot ∧ slot.kind = .flow ∧ slot.isPrimary = false := by
  obtain ⟨n, slot, hn, hfind, rfl⟩ := findSlot?_eq_some_iff.1 hr
  obtain ⟨hmem, hflags⟩ := List.mem_filter.1 (List.mem_of_mem_head? hfind)
  obtain ⟨hflow, hsecondary⟩ := slot.hasFlags_flowIn_iff.1 hflags
  obtain ⟨i, hi⟩ := List.getElem?_of_mem hmem
  have hslot : g.slotAt? ⟨id, ⟨i⟩⟩ = some slot := Option.bind_eq_some_iff.2 ⟨n, hn, hi⟩
  obtain ⟨hshape, hindex⟩ := h.flowSlot_of_secondary hslot hflow hsecondary
  have href : n.slotRef slot = ⟨id, ⟨0⟩⟩ := by
    rw [Node.slotRef, h.id_eq hn, show slot.id = ⟨0⟩ from congrArg Slot.id hshape]
  cases hindex
  exact ⟨href, slot, href ▸ hslot, hflow, hsecondary⟩

theorem not_reference_of_flowIn? (h : HasLayouts g) (hn : g.nodeAt? id = some n) (hr : g.flowIn? id = .ok (some r)) :
    n.kind ≠ .variableRef := by
  intro hreference
  obtain ⟨rfl, slot, hslot, hflow, -⟩ := h.flowIn?_eq_some hr
  obtain ⟨n', hn', hindex⟩ := Option.bind_eq_some_iff.1 hslot
  cases hn.symm.trans hn'
  cases hflow.symm.trans (h.value_of_reference hn hreference slot (List.mem_of_getElem? hindex))

end HasLayouts

def OnlyEntered (g : Graph) (m : NodeId) : Prop := ∀ i slot, g.slotAt? ⟨m, i⟩ = some slot → slot.adjacent ≠ [] →
  slot.kind = .flow ∧ slot.isPrimary = false

theorem OnlyEntered.not_companion (h : OnlyEntered g m) (y : NodeId) : ¬Companion g m y := by
  have hslot {n : Node} (hn : g.nodeAt? m = some n) {slot : Slot} (hmem : slot ∈ n.slots) {r : SlotRef}
      (hr : r ∈ slot.adjacent) :
      slot.kind = .flow ∧ slot.isPrimary = false := by
    obtain ⟨i, hi⟩ := List.getElem?_of_mem hmem
    exact h ⟨i⟩ slot (Option.bind_eq_some_iff.2 ⟨n, hn, hi⟩) (List.ne_nil_of_mem hr)
  rintro ⟨n, hn, hsuccessor | ⟨hinput, -⟩⟩
  · obtain ⟨r, hr, -⟩ := Option.map_eq_some_iff.1 hsuccessor
    obtain ⟨slot, hnext, hfirst⟩ := Option.bind_eq_some_iff.1 hr
    obtain ⟨hmem, hflags⟩ := List.mem_filter.1 (List.mem_of_find?_eq_some hnext)
    cases (slot.hasFlags_flowOut_iff.1 hflags).2.symm.trans (hslot hn hmem (List.mem_of_mem_head? hfirst)).2
  · obtain ⟨slot, hslot', r, hr, -⟩ := Node.mem_inputs.1 hinput
    obtain ⟨hmem, hkind, -⟩ := Node.mem_filterSlots_input.1 hslot'
    cases hkind.symm.trans (hslot hn hmem hr).1

theorem EditInvariant.changeScope_alone (h : EditInvariant True g) (hm : g.homeAt? m = some s) (hclear : clear g m t)
    (halone : ∀ y, ¬Companion g m y) : ∃ g', g.changeScope m t = .ok (g', .ok ()) ∧
      ∀ x, g'.homeAt? x = if x = m then some t else g.homeAt? x := by
  obtain ⟨n, hn, hs⟩ := homeAt?_eq_some_iff.1 hm
  obtain ⟨sc, hsc⟩ := hclear.live
  obtain ⟨⟨g', r⟩, hchange⟩ := (h.changeScope hn fun _ => ⟨some sc, scope?_eq_some_iff.2 hsc⟩).exists_ok
  by_cases hst : s = t
  · subst hst
    obtain ⟨rfl, rfl⟩ := changeScope_same hm hchange
    refine ⟨g', hchange, fun x => ?_⟩
    split
    next hx => rw [hx, hm]
    next => rfl
  · obtain ⟨rfl, left, hcompanyMoved⟩ := changeScope_companyMoved h.wellFormed.scopesOwned hm hst hclear hchange
    refine ⟨g', hchange, fun x => ?_⟩
    split
    next hx =>
      rw [hx]
      exact hcompanyMoved.first
    next hx =>
      have hstays : ¬TravelsWith g g s m x := fun htravelsWith => by
        rcases htravelsWith.cases_head with rfl | ⟨y, hy, -⟩
        · exact hx rfl
        · exact halone y hy.1
      have hleft := hcompanyMoved.companyLeft.homeAt?_of_not_travelsWith hstays
      rcases hcompanyMoved.companyEntered.homes x with hsame | ⟨-, -, hadmittedWith⟩
      · exact hsame.trans hleft
      · rcases hadmittedWith.cases_head with rfl | ⟨y, hy, -⟩
        · exact (hx rfl).elim
        · exact (halone y (hcompanyMoved.companyLeft.sameLinkage.companion_iff.1 hy.1)).elim

structure OthersStay (m : NodeId) (g g' : Graph) : Prop where
  allKept : AllKept g g'
  homes {x : NodeId} : x ≠ m → g'.homeAt? x = g.homeAt? x

/-- Where nodes in these scopes lead that go on to the same one: to their scope if it is one, and otherwise to their
nearest common ancestor or, if that is split, to the scope around it. -/
structure LandsIn (g : Graph) (ss : List ScopeId) (t : ScopeId) : Prop where
  same {s : ScopeId} : (∀ s' ∈ ss, s' = s) → t = s
  apart : (¬∃ s, ∀ s' ∈ ss, s' = s) → ∃ c sc, g.lowestCommonAncestor ss = .ok (some c) ∧ g.scope c = .ok sc ∧
    (sc.isPartitioned = true ∧ g.parentScope? c = .ok (some t) ∨ sc.isPartitioned = false ∧ t = c)

theorem clear_of_within (hclear : clear g m s) (hwithin : Within g s t) : clear g m t := by
  induction hwithin with
  | refl => exact hclear
  | tail _ hup ih => exact OwnersOnPath.parent ih hup

namespace OthersStay

variable (h : OthersStay m g g')

include h

theorem clear (hclear : clear g m s) : clear g' m s := OwnersOnPath.carry hclear h.allKept fun _ => h.homes

theorem parentScope?_eq (hclear : Graph.clear g m s) : g'.parentScope? s = g.parentScope? s := by
  obtain ⟨sc, hsc⟩ := hclear.live
  obtain ⟨sc', hsc', hskeleton⟩ := h.allKept.scope_of hsc
  obtain ⟨howner, hkind', -⟩ := Scope.of_skeleton hskeleton
  cases hkind : sc.kind with
  | partition t i =>
    rw [parentScope?_eq_ok_iff.2 ⟨sc, hsc, .inl ⟨t, i, hkind, rfl⟩⟩]
    exact parentScope?_eq_ok_iff.2 ⟨sc', hsc', .inl ⟨t, i, hkind'.trans hkind, rfl⟩⟩
  | internal =>
    obtain ⟨n, hn⟩ := hclear.owner_live hsc hkind
    obtain ⟨n', hn', -⟩ := h.allKept.node_of hn
    have hhome := h.homes (hclear.owner hsc hkind)
    rw [homeAt?, homeAt?, hn', hn, Option.bind_some, Option.bind_some] at hhome
    rw [parentScope?_eq_ok_iff.2 ⟨sc, hsc, .inr ⟨hkind, n, hn, rfl⟩⟩]
    exact parentScope?_eq_ok_iff.2 ⟨sc', hsc', .inr ⟨hkind'.trans hkind, n', howner ▸ hn', hhome.symm⟩⟩

theorem within_iff (hclear : Graph.clear g m s) : Within g' s t ↔ Within g s t := by
  constructor
  · intro hwithin
    induction hwithin using ReflTransGen.head_induction_on with
    | refl => exact .refl
    | head hup _ ih =>
      rw [h.parentScope?_eq hclear] at hup
      exact .head hup (ih (hclear.parent hup))
  · intro hwithin
    induction hwithin using ReflTransGen.head_induction_on with
    | refl => exact .refl
    | head hup _ ih => exact .head ((h.parentScope?_eq hclear).trans hup) (ih (hclear.parent hup))

theorem lowestCommonAncestor_eq (ht : EditInvariant True g) (ht' : EditInvariant True g') (hne : ss ≠ [])
    (hss : ∀ s ∈ ss, Graph.clear g m s) : g'.lowestCommonAncestor ss = g.lowestCommonAncestor ss := by
  have hancestorOfAll (t : ScopeId) : AncestorOfAll g' ss t ↔ AncestorOfAll g ss t :=
    forall₂_congr fun s hs => h.within_iff (hss s hs)
  obtain ⟨first, hfirst⟩ := List.exists_mem_of_ne_nil ss hne
  have hlowestAncestor (c : ScopeId) : LowestAncestor g ss c ↔ LowestAncestor g' ss c := by
    have hbelow (hc : AncestorOfAll g ss c) (t : ScopeId) : Within g' c t ↔ Within g c t :=
      h.within_iff (clear_of_within (hss first hfirst) (hc first hfirst))
    constructor
    · exact fun hc => ⟨(hancestorOfAll c).2 hc.common,
        fun ht => (hbelow hc.common _).2 (hc.nearest ((hancestorOfAll _).1 ht))⟩
    · intro hc
      have hcommon := (hancestorOfAll c).1 hc.common
      exact ⟨hcommon, fun ht => (hbelow hcommon _).1 (hc.nearest ((hancestorOfAll _).2 ht))⟩
  obtain ⟨found, hfound, -⟩ := ht.exists_lowestCommonAncestor hne fun s hs => (hss s hs).live
  rw [hfound]
  refine (ht'.lowestCommonAncestor_eq_iff hne fun s hs => (h.clear (hss s hs)).live).2 fun c => ?_
  rw [← hlowestAncestor, (ht.lowestCommonAncestor_eq_iff hne fun s hs => (hss s hs).live).1 hfound c]

theorem landsIn (ht : EditInvariant True g) (ht' : EditInvariant True g') (hne : ss ≠ [])
    (hss : ∀ s ∈ ss, Graph.clear g m s) (hlands : LandsIn g ss t) : LandsIn g' ss t := by
  refine ⟨hlands.same, fun hapart => ?_⟩
  obtain ⟨c, sc, hc, hsc, htarget⟩ := hlands.apart hapart
  obtain ⟨sc', hsc', hskeleton⟩ := h.allKept.scope_of (scope_eq_ok_iff.1 hsc)
  obtain ⟨-, -, hpartitions⟩ := Scope.of_skeleton hskeleton
  obtain ⟨first, hfirst⟩ := List.exists_mem_of_ne_nil ss hne
  have hlowestAncestor := ((ht.lowestCommonAncestor_eq_iff hne fun s hs => (hss s hs).live).1 hc c).1 rfl
  have hclear := clear_of_within (hss first hfirst) (hlowestAncestor.common first hfirst)
  refine ⟨c, sc', (h.lowestCommonAncestor_eq ht ht' hne hss).trans hc, scope_eq_ok_iff.2 hsc', ?_⟩
  rwa [h.parentScope?_eq hclear, Scope.isPartitioned, hpartitions]

end OthersStay

theorem LandsIn.unique (h : LandsIn g ss s) (h' : LandsIn g ss t) : s = t := by
  by_cases hsame : ∃ u, ∀ s' ∈ ss, s' = u
  · obtain ⟨u, hu⟩ := hsame
    rw [h.same hu, h'.same hu]
  · obtain ⟨c, sc, hc, hsc, htarget⟩ := h.apart hsame
    obtain ⟨c', sc', hc', hsc', htarget'⟩ := h'.apart hsame
    cases hc.symm.trans hc'
    cases hsc.symm.trans hsc'
    rcases htarget with ⟨hsplit, hup⟩ | ⟨hwhole, rfl⟩
    · rcases htarget' with ⟨-, hup'⟩ | ⟨hwhole, -⟩
      · cases hup.symm.trans hup'
        rfl
      · cases hsplit.symm.trans hwhole
    · rcases htarget' with ⟨hsplit, -⟩ | ⟨-, rfl⟩
      · cases hsplit.symm.trans hwhole
      · rfl

namespace EditInvariant

variable (h : EditInvariant True g) (hne : ss ≠ []) (hlive : ∀ s ∈ ss, ∃ sc, g.scopeAt? s = some sc)

include h hne hlive

/-- It does not matter in which order, and how often, the scopes are named. -/
theorem landsIn_congr (hsame : ∀ s, s ∈ ss' ↔ s ∈ ss) (hlands : LandsIn g ss t) : LandsIn g ss' t := by
  have hall (s : ScopeId) : (∀ s' ∈ ss', s' = s) ↔ ∀ s' ∈ ss, s' = s := forall_congr' fun s' => by rw [hsame]
  refine ⟨fun hs => hlands.same ((hall _).1 hs), fun hapart => ?_⟩
  obtain ⟨first, hfirst⟩ := List.exists_mem_of_ne_nil ss hne
  obtain ⟨c, sc, hc, hsc, htarget⟩ := hlands.apart fun hs => hapart (hs.imp fun s => (hall s).2)
  refine ⟨c, sc, ?_, hsc, htarget⟩
  rw [← hc]
  exact h.lowestCommonAncestor_congr hne (List.ne_nil_of_mem ((hsame first).2 hfirst)) hlive
    (fun s hs => hlive s ((hsame s).1 hs)) fun t => forall_congr' fun s => by rw [hsame]

theorem exists_landsIn {root : ScopeId} (hroot : AncestorOfAll g ss root)
    (hwhole : ∀ sc, g.scopeAt? root = some sc → sc.partitions = []) :
    ∃ t, LandsIn g ss t ∧ AncestorOfAll g ss t := by
  by_cases hsame : ∃ s, ∀ s' ∈ ss, s' = s
  · obtain ⟨s, hs⟩ := hsame
    obtain ⟨first, hfirst⟩ := List.exists_mem_of_ne_nil ss hne
    obtain rfl := hs first hfirst
    refine ⟨first, ⟨fun hs' => hs' first hfirst, fun hapart => (hapart ⟨first, hs⟩).elim⟩, fun s' hs' => ?_⟩
    rw [hs s' hs']
  · obtain ⟨found, hfound, hnone, hsome⟩ := h.exists_lowestCommonAncestor hne hlive
    cases found with
    | none => exact (hnone rfl root hroot).elim
    | some c =>
      have hlowestAncestor := hsome c rfl
      obtain ⟨first, hfirst⟩ := List.exists_mem_of_ne_nil ss hne
      obtain ⟨sc, hsc⟩ := h.live_of_within (hlive first hfirst) (hlowestAncestor.common first hfirst)
      have hnotSame {t : ScopeId} {u : ScopeId} (hu : ∀ s' ∈ ss, s' = u) : t = u := (hsame ⟨u, hu⟩).elim
      cases hsplit : sc.isPartitioned with
      | false =>
        exact ⟨c, ⟨hnotSame, fun _ => ⟨c, sc, hfound, scope_eq_ok_iff.2 hsc, .inr ⟨hsplit, rfl⟩⟩⟩,
          hlowestAncestor.common⟩
      | true =>
        rcases (hlowestAncestor.nearest hroot).cases_head with rfl | ⟨t, hup, -⟩
        · rw [Scope.isPartitioned, hwhole sc hsc] at hsplit
          cases hsplit
        · exact ⟨t, ⟨hnotSame, fun _ => ⟨c, sc, hfound, scope_eq_ok_iff.2 hsc, .inl ⟨hsplit, hup⟩⟩⟩,
            fun s hs => (hlowestAncestor.common s hs).tail hup⟩

end EditInvariant

theorem scopeAfter_eq_of_landsIn {tails : List SlotRef} (hne : tails ≠ [])
    (htails : ∀ r ∈ tails, g.isBranchSlot r = .ok false ∧ g.homeAt? r.node ≠ none)
    (hlands : LandsIn g (tails.filterMap fun r => g.homeAt? r.node) t) : g.scopeAfter tails = .ok (some t) := by
  have hnode (r : SlotRef) (hr : r ∈ tails) :
      (do return (← g.node r.node).scope : Except Fault _) = .ok (g.homeAt? r.node) := by
    obtain ⟨s, hs⟩ := Option.ne_none_iff_exists'.1 (htails r hr).2
    obtain ⟨n, hn, hscope⟩ := homeAt?_eq_some_iff.1 hs
    rw [node_eq_ok_iff.2 hn, hs, ← hscope]
    rfl
  rcases tails with _ | ⟨a, _ | ⟨b, rest⟩⟩
  · exact (hne rfl).elim
  · obtain ⟨hplain, hhome⟩ := htails a List.mem_cons_self
    obtain ⟨s, hs⟩ := Option.ne_none_iff_exists'.1 hhome
    have hts : t = s := hlands.same (by simp [hs])
    rw [scopeAfter, hplain, ok_bind, if_neg Bool.false_ne_true, hnode a List.mem_cons_self, hs, hts]
  · obtain ⟨-, hhome⟩ := htails a List.mem_cons_self
    obtain ⟨first, hfirst⟩ := Option.ne_none_iff_exists'.1 hhome
    have hss : ((a :: b :: rest).filterMap fun r => g.homeAt? r.node) =
        first :: (b :: rest).filterMap fun r => g.homeAt? r.node :=
      List.filterMap_cons_some (f := fun r : SlotRef => g.homeAt? r.node) hfirst
    rw [hss] at hlands
    simp only [scopeAfter, filterMapM_eq_ok hnode, ok_bind, hss]
    generalize (b :: rest).filterMap (fun r => g.homeAt? r.node) = others at hlands
    split
    next hsame =>
      have hall : ∀ s ∈ first :: others, s = first :=
        List.forall_mem_cons.2 ⟨rfl, fun s hs => beq_iff_eq.1 (List.all_eq_true.1 hsame s hs)⟩
      rw [hlands.same hall, pure_eq_ok]
    next hother =>
      have hapart : ¬∃ s, ∀ s' ∈ first :: others, s' = s := by
        rintro ⟨s, hs⟩
        refine hother (List.all_eq_true.2 fun s' hs' => beq_iff_eq.2 ?_)
        rw [hs s' (List.mem_cons_of_mem _ hs'), hs first List.mem_cons_self]
      obtain ⟨c, sc, hc, hsc, htarget⟩ := hlands.apart hapart
      simp only [hc, ok_bind, hsc]
      rcases htarget with ⟨hsplit, hup⟩ | ⟨hwhole, rfl⟩
      · rw [if_pos hsplit, hup]
      · rw [if_neg (Bool.eq_false_iff.1 hwhole), pure_eq_ok]

end Graph

end FlowGraph
