import FlowGraph.Proofs.Literals

/-!
# Merging against linking

Where literals are merged, connecting has two paths. The one that links checks the link; the one that merges
looks for a literal that feeds nothing and for an input that takes values. It asks neither whether the output is
a slot of the literal nor whether the input has room, and an output that is not there is not missed before the
input is looked up. Apart from that the two paths agree.
-/

namespace FlowGraph.Graph

variable {g g' : Graph} {a b output input : SlotRef} {slotA slotB target : Slot} {source : Node}

/-- Connecting the two slots merges: the node is a literal that feeds nothing, and the input takes a value. -/
def Merges (g : Graph) (output input : SlotRef) : Prop :=
  ∃ source target p, g.node output.node = .ok source ∧ g.slot? input = .ok (some target) ∧
    mergeTarget? source target = some p

/-- What is merged could have been linked, and what cannot be linked is refused for the same reason, with
nothing changed. -/
structure MergeAgrees (g : Graph) (output input : SlotRef) : Prop where
  merged {g' : Graph} : g.connectOrMerge output input = .ok (g', .ok none) →
    ∃ linked l, g.connect output input true = .ok (linked, .ok l)
  refused {g' : Graph} {e : ConnectError} : g.connect output input true = .ok (g', .error e) →
    g.connectOrMerge output input = .ok (g, .error e)

/-- Merging passes over what linking checks: the output is not there or the input is full, or the input is
looked up, in vain, before the output is missed. -/
inductive MergeSkipsCheck (g : Graph) (output input : SlotRef) : Prop
  | unchecked {target : Slot} : g.Merges output input → g.slot? input = .ok (some target) →
      g.slot? output = .ok none ∨ target.isFull = true → MergeSkipsCheck g output input
  | unnamed : g.contains output.node = true → g.slot? output = .ok none → input ≠ output →
      (∀ target, g.slot? input ≠ .ok (some target)) → MergeSkipsCheck g output input

theorem lookupSlot_eq_unknown {r : SlotRef} (hlive : g.contains r.node = true) (hnone : g.slot? r = .ok none) :
    g.lookupSlot r = .ok (.error (.unknownSlot r)) := by
  obtain ⟨n, hn⟩ := Option.isSome_iff_exists.1 (contains_iff.1 hlive)
  simp only [lookupSlot, slot?, node?_eq_some_iff.2 hn, ok_bind, pure_eq_ok, Option.bind_some] at hnone ⊢
  rw [hnone]
  rfl

theorem eq_of_lookupSlot_unknown {r r' : SlotRef} (h : g.lookupSlot r = .ok (.error (.unknownSlot r'))) : r = r' := by
  simp only [lookupSlot, bind_eq_ok] at h
  obtain ⟨found, -, h⟩ := h
  cases found with
  | none => cases h
  | some n =>
    dsimp only at h
    split at h
    next =>
      cases h
      rfl
    next => cases h

theorem linkOf_full (h : slotB.isFull = true) : ∃ e, linkOf a b slotA slotB = .error e := by
  cases hresult : linkOf a b slotA slotB with
  | error e => exact ⟨e, rfl⟩
  | ok l =>
    have hroom := (linkOf_eq_ok_iff.1 hresult).1.room'
    rw [Slot.isFull, hroom] at h
    cases h

theorem mergeTarget?_eq_some_iff {p : Nat} : mergeTarget? source target = some p ↔
    (source.kind = .literal ∧ source.outputs = [] ∧ target.kind = .value ∧ target.isPrimary = false) ∧
      target.property = p := by
  rw [mergeTarget?, Option.ite_none_right_eq_some, Option.some.injEq]

theorem connect_eq_error_iff {e : ConnectError} :
    g.connect a b true = .ok (g', .error e) ↔ g' = g ∧ g.validateLink a b = .ok (.error e) := by
  constructor
  · intro h
    obtain ⟨result, hresult, hrest⟩ := bind_eq_ok.1 h
    cases result with
    | error e' =>
      cases hrest
      exact ⟨rfl, hresult⟩
    | ok l =>
      dsimp only at hrest
      split at hrest
      next => cases hrest
      next =>
        obtain ⟨linked, -, hrest⟩ := bind_eq_ok.1 hrest
        cases hrest
      next =>
        obtain ⟨linked, -, hrest⟩ := bind_eq_ok.1 hrest
        cases hrest
  · rintro ⟨rfl, h⟩
    exact bind_eq_ok.2 ⟨_, h, rfl⟩

theorem validateLink_eq_error_iff {e : ConnectError} : g.validateLink a b = .ok (.error e) ↔
    g.lookupSlot a = .ok (.error e) ∨ ∃ slotA, g.lookupSlot a = .ok (.ok slotA) ∧
      (g.lookupSlot b = .ok (.error e) ∨
        ∃ slotB, g.lookupSlot b = .ok (.ok slotB) ∧ linkOf a b slotA slotB = .error e) := by
  simp only [validateLink, bind_eq_ok]
  constructor
  · rintro ⟨foundA, hA, h⟩
    cases foundA with
    | error e' =>
      cases h
      exact .inl hA
    | ok slotA =>
      refine .inr ⟨slotA, hA, ?_⟩
      obtain ⟨foundB, hB, h⟩ := bind_eq_ok.1 h
      cases foundB with
      | error e' =>
        cases h
        exact .inl hB
      | ok slotB => exact .inr ⟨slotB, hB, pure_eq_ok.1 h⟩
  · rintro (hA | ⟨slotA, hA, hB | ⟨slotB, hB, h⟩⟩)
    · exact ⟨_, hA, rfl⟩
    · exact ⟨_, hA, bind_eq_ok.2 ⟨_, hB, rfl⟩⟩
    · exact ⟨_, hA, bind_eq_ok.2 ⟨_, hB, pure_eq_ok.2 h⟩⟩

section

variable (hmerge : g.config.mergeLiterals = true)

include hmerge

theorem connectOrMerge_of_missing (h : g.node? output.node = .ok none) :
    g.connectOrMerge output input = .ok (g, .error (.unknownNode output.node)) := by
  simp only [connectOrMerge, hmerge, h, ok_bind]
  rfl

variable (hsource : g.node output.node = .ok source)

include hsource

theorem connectOrMerge_of_unfound {e : ConnectError} (h : g.lookupSlot input = .ok (.error e)) :
    g.connectOrMerge output input = .ok (g, .error e) := by
  simp only [connectOrMerge, hmerge, node?_eq_some_iff.2 (node_eq_ok_iff.1 hsource), h, ok_bind]
  rfl

variable (htarget : g.lookupSlot input = .ok (.ok target))

include htarget

theorem connectOrMerge_of_link (h : mergeTarget? source target = none) :
    g.connectOrMerge output input = (do
      let (g, result) ← g.connect output input true
      return (g, result.map some)) := by
  simp only [connectOrMerge, hmerge, node?_eq_some_iff.2 (node_eq_ok_iff.1 hsource), htarget, ok_bind, h]
  rfl

theorem connectOrMerge_of_merge {p : Nat} (h : mergeTarget? source target = some p) :
    g.connectOrMerge output input = (do
      let merged ← (g.modifyNode input.node (·.modifyProperty p (·.setValue source.value))).destroy output.node true
      return (merged, .ok none)) := by
  simp only [connectOrMerge, hmerge, node?_eq_some_iff.2 (node_eq_ok_iff.1 hsource), htarget, ok_bind, h]
  rfl

end

/-- What connecting comes to where merging is on: the two paths, and what decides between them. -/
theorem connectOrMerge_eq_ok {r : Except ConnectError (Option Link)} (hmerge : g.config.mergeLiterals = true)
    (h : g.connectOrMerge output input = .ok (g', r)) :
    (∃ e, r = .error e) ∨ (∃ l, r = .ok (some l)) ∨ g.Merges output input ∧ r = .ok none := by
  simp only [connectOrMerge, hmerge] at h
  obtain ⟨found, hfound, h⟩ := bind_eq_ok.1 h
  cases found with
  | none =>
    cases h
    exact .inl ⟨_, rfl⟩
  | some source =>
    obtain ⟨looked, hlooked, h⟩ := bind_eq_ok.1 h
    cases looked with
    | error e =>
      cases h
      exact .inl ⟨_, rfl⟩
    | ok target =>
      dsimp only at h
      split at h
      next =>
        obtain ⟨⟨linked, result⟩, -, h⟩ := bind_eq_ok.1 h
        cases h
        cases result with
        | error e => exact .inl ⟨e, rfl⟩
        | ok l => exact .inr (.inl ⟨l, rfl⟩)
      next p hp =>
        obtain ⟨merged, -, h⟩ := bind_eq_ok.1 h
        cases h
        have hsource := node_eq_ok_iff.2 (node?_eq_some_iff.1 hfound)
        exact .inr (.inr ⟨⟨source, target, p, hsource, lookupSlot_eq_ok_iff.1 hlooked, hp⟩, rfl⟩)

theorem Merges.apart (hl : HasLayouts g) (h : g.Merges output input) : output.node ≠ input.node := by
  obtain ⟨source, target, p, hsource, htarget, hp⟩ := h
  obtain ⟨⟨hkind, -, -, hprimary⟩, -⟩ := mergeTarget?_eq_some_iff.1 hp
  intro hsame
  rw [node_eq_ok_iff] at hsource
  have honlyOutput := hl.onlyOutput_of_literal hsource hkind
  have hslot := slotAt?_of_slot? htarget
  rw [slotAt?, ← hsame, hsource, Option.bind_some] at hslot
  have hshape := congrArg Slot.isPrimary (honlyOutput.slot hslot).2
  cases hprimary.symm.trans hshape

theorem Merges.validateLink (hr : Reachable g) (h : g.Merges output input) (hA : g.slot? output = .ok (some slotA))
    (hB : g.slot? input = .ok (some slotB)) (hroom : slotB.isFull = false) :
    g.validateLink output input = .ok (.ok ⟨output, input, .value⟩) := by
  have hapart := h.apart hr.hasLayouts
  obtain ⟨source, target, p, hsource, htarget, hp⟩ := h
  obtain ⟨⟨hkind, hfree, hvalue, hprimary⟩, -⟩ := mergeTarget?_eq_some_iff.1 hp
  cases hB.symm.trans htarget
  rw [node_eq_ok_iff] at hsource
  have honlyOutput := hr.hasLayouts.onlyOutput_of_literal hsource hkind
  have hslotA := slotAt?_of_slot? hA
  have hslot := hslotA
  rw [slotAt?, hsource, Option.bind_some] at hslot
  obtain ⟨hslots, hshape⟩ := honlyOutput.slot hslot
  have hunlinked : slotA.adjacent = [] := honlyOutput.unlinked hfree slotA (hslots ▸ List.mem_singleton_self slotA)
  have hvalueA : slotA.kind = .value := congrArg Slot.kind hshape
  have hprimaryA : slotA.isPrimary = true := congrArg Slot.isPrimary hshape
  have hcapacity : slotA.capacity = g.config.fanIn := congrArg Slot.capacity hshape
  have hroomA : slotA.isFull = false := by
    rw [Slot.isFull, (hr.wellFormed.linksMatch.roomKnown hslotA).2, hunlinked, hcapacity, List.length_nil,
      decide_eq_true hr.wellFormed.fanIn, Bool.not_true]
  have hlink : linkOf output input slotA slotB = .ok ⟨output, input, .value⟩ := by
    rw [linkOf, if_neg hapart, if_neg (by rw [hvalueA, hvalue]; simp), if_neg (by rw [hprimaryA, hprimary]; simp),
      if_neg (by simp [Slot.isConnectedTo, hunlinked]), if_neg (by simp [hroomA]), if_neg (by simp [hroom]),
      if_pos hprimaryA, hvalueA]
  simp only [Graph.validateLink, lookupSlot_eq_ok_iff.2 hA, lookupSlot_eq_ok_iff.2 hB, ok_bind, hlink]
  rfl

theorem slot?_of_live {r : SlotRef} (h : g.contains r.node = true) : ∃ found, g.slot? r = .ok found := by
  obtain ⟨n, hn⟩ := Option.isSome_iff_exists.1 (contains_iff.1 h)
  exact ⟨n.slot? r.slot, bind_eq_ok.2 ⟨some n, node?_eq_some_iff.2 hn, rfl⟩⟩

theorem Merges.live (h : g.Merges output input) : g.contains output.node = true := by
  obtain ⟨source, -, -, hsource, -⟩ := h
  rw [contains_iff, node_eq_ok_iff.1 hsource]
  rfl

theorem Merges.not_refused (hmerge : g.config.mergeLiterals = true) (h : g.Merges output input) {e : ConnectError} :
    g.connectOrMerge output input ≠ .ok (g', .error e) := by
  obtain ⟨source, target, p, hsource, htarget, hp⟩ := h
  rw [connectOrMerge_of_merge hmerge hsource (lookupSlot_eq_ok_iff.2 htarget) hp]
  intro hrefused
  obtain ⟨merged, -, hrefused⟩ := bind_eq_ok.1 hrefused
  cases hrefused

theorem Merges.validateLink_eq_error (h : g.Merges output input) (htarget : g.slot? input = .ok (some target))
    (hmissed : g.slot? output = .ok none ∨ target.isFull = true) :
    ∃ e, g.validateLink output input = .ok (.error e) := by
  obtain ⟨found, hfound⟩ := slot?_of_live h.live
  cases found with
  | none => exact ⟨_, validateLink_eq_error_iff.2 (.inl (lookupSlot_eq_unknown h.live hfound))⟩
  | some slotA =>
    have hfull : target.isFull = true := hmissed.resolve_left fun hnone => by cases hfound.symm.trans hnone
    obtain ⟨e, he⟩ := @linkOf_full output input slotA _ hfull
    exact ⟨e, validateLink_eq_error_iff.2 (.inr ⟨slotA, lookupSlot_eq_ok_iff.2 hfound,
      .inr ⟨target, lookupSlot_eq_ok_iff.2 htarget, he⟩⟩)⟩

theorem MergeAgrees.not_mergeSkipsCheck (hmerge : g.config.mergeLiterals = true) (h : g.MergeAgrees output input) :
    ¬g.MergeSkipsCheck output input := by
  intro hmergeSkipsCheck
  cases hmergeSkipsCheck with
  | @unchecked target hmerges htarget hmissed =>
    have hrefused := hmerges.validateLink_eq_error htarget hmissed
    obtain ⟨e, he⟩ := hrefused
    exact hmerges.not_refused hmerge (h.refused (connect_eq_error_iff.2 ⟨rfl, he⟩))
  | unnamed hlive hnone hne hunfound =>
    have hlookup := lookupSlot_eq_unknown hlive hnone
    have hrefused := h.refused (connect_eq_error_iff.2 ⟨rfl, validateLink_eq_error_iff.2 (.inl hlookup)⟩)
    simp only [connectOrMerge, hmerge] at hrefused
    obtain ⟨found, -, hrefused⟩ := bind_eq_ok.1 hrefused
    cases found with
    | none => cases hrefused
    | some source =>
      obtain ⟨looked, hlooked, hrefused⟩ := bind_eq_ok.1 hrefused
      cases looked with
      | error e =>
        cases hrefused
        exact hne (eq_of_lookupSlot_unknown hlooked)
      | ok target => exact hunfound target (lookupSlot_eq_ok_iff.1 hlooked)

theorem lookupSlot_eq_error {r : SlotRef} {e : ConnectError} (h : g.lookupSlot r = .ok (.error e)) :
    g.node? r.node = .ok none ∧ e = .unknownNode r.node ∨ g.contains r.node = true ∧ g.slot? r = .ok none := by
  simp only [lookupSlot, bind_eq_ok] at h
  obtain ⟨found, hfound, h⟩ := h
  cases found with
  | none =>
    cases h
    exact .inl ⟨hfound, rfl⟩
  | some n =>
    dsimp only at h
    split at h
    next hnone =>
      refine .inr ⟨?_, bind_eq_ok.2 ⟨some n, hfound, pure_eq_ok.2 hnone⟩⟩
      rw [contains_iff, node?_eq_some_iff.1 hfound]
      rfl
    next => cases h

/-- Where no check is skipped, the two paths refuse the same. -/
theorem refused_of_not_mergeSkipsCheck (hr : Reachable g) (hmerge : g.config.mergeLiterals = true)
    (h : ¬g.MergeSkipsCheck output input) {e : ConnectError}
    (hrefused : g.connect output input true = .ok (g', .error e)) :
    g.connectOrMerge output input = .ok (g, .error e) := by
  obtain ⟨rfl, hvalidate⟩ := connect_eq_error_iff.1 hrefused
  have hlinks {source : Node} {target : Slot} (hsource : g'.node output.node = .ok source)
      (htarget : g'.slot? input = .ok (some target)) (hnot : ¬g'.Merges output input) :
      g'.connectOrMerge output input = .ok (g', .error e) := by
    cases hp : mergeTarget? source target with
    | some p => exact (hnot ⟨source, target, p, hsource, htarget, hp⟩).elim
    | none =>
      rw [connectOrMerge_of_link hmerge hsource (lookupSlot_eq_ok_iff.2 htarget) hp, hrefused]
      rfl
  have hlive (hcontains : g'.contains output.node = true) : ∃ source, g'.node output.node = .ok source := by
    obtain ⟨source, hsource⟩ := Option.isSome_iff_exists.1 (contains_iff.1 hcontains)
    exact ⟨source, node_eq_ok_iff.2 hsource⟩
  rcases validateLink_eq_error_iff.1 hvalidate with hA | ⟨slotA, hA, hB⟩
  · obtain ⟨hmissing, rfl⟩ | ⟨hcontains, hnone⟩ := lookupSlot_eq_error hA
    · exact connectOrMerge_of_missing hmerge hmissing
    · obtain ⟨source, hsource⟩ := hlive hcontains
      by_cases hsame : input = output
      · exact connectOrMerge_of_unfound hmerge hsource (hsame ▸ hA)
      · obtain ⟨target, htarget⟩ : ∃ target, g'.slot? input = .ok (some target) := by
          by_contra hunfound
          exact h (.unnamed hcontains hnone hsame fun target htarget => hunfound ⟨target, htarget⟩)
        exact hlinks hsource htarget fun hmerges => h (.unchecked hmerges htarget (.inl hnone))
  · rw [lookupSlot_eq_ok_iff] at hA
    have hcontains : g'.contains output.node = true := by
      obtain ⟨n, hn, -⟩ := Option.bind_eq_some_iff.1 (slotAt?_of_slot? hA)
      rw [contains_iff, hn]
      rfl
    obtain ⟨source, hsource⟩ := hlive hcontains
    rcases hB with hB | ⟨slotB, hB, hlink⟩
    · exact connectOrMerge_of_unfound hmerge hsource hB
    · rw [lookupSlot_eq_ok_iff] at hB
      refine hlinks hsource hB fun hmerges => ?_
      have hroom : slotB.isFull = false := by
        rw [Bool.eq_false_iff]
        exact fun hfull => h (.unchecked hmerges hB (.inr hfull))
      cases (hmerges.validateLink hr hA hB hroom).symm.trans hvalidate

theorem validateLink_of_not_mergeSkipsCheck (hr : Reachable g) (h : ¬g.MergeSkipsCheck output input)
    (hmerges : g.Merges output input) : g.validateLink output input = .ok (.ok ⟨output, input, .value⟩) := by
  have hsame := hmerges
  obtain ⟨source, target, p, -, htarget, -⟩ := hsame
  obtain ⟨found, hfound⟩ := slot?_of_live hmerges.live
  cases found with
  | none => exact (h (.unchecked hmerges htarget (.inl hfound))).elim
  | some slotA =>
    refine hmerges.validateLink hr hfound htarget (Bool.eq_false_iff.2 fun hfull => ?_)
    exact h (.unchecked hmerges htarget (.inr hfull))

theorem isVariable_of_literal (h : source.kind = .literal) : source.isVariable = false := by
  rw [Node.isVariable, h]
  rfl

theorem Consistent.parentsEnd_of_reader {head : Node} (hg : Consistent g) (ho : ScopesOwned g) {id : NodeId}
    (hhead : g.nodeAt? id = some head) {t : ScopeId} (ht : (head.internalScope <|> head.scope) = some t) :
    ParentsEnd g t := by
  cases hi : head.internalScope with
  | some i =>
    rw [hi] at ht
    cases ht
    obtain ⟨si, hsi, -⟩ := ho.internal hhead hi
    exact hg.parentsEnd (scope_eq_ok_iff.2 hsi)
  | none =>
    rw [hi] at ht
    obtain ⟨sc, hsc, -⟩ := hg.placed (node_eq_ok_iff.2 hhead) ht
    exact hg.parentsEnd hsc

theorem exists_onValueConnected {l : Link} {tail head : Node} (hr : Reachable g) (hg : Consistent g)
    (htail : g.nodeAt? l.tail.node = some tail) (hkind : tail.kind = .literal)
    (hhead : g.nodeAt? l.head.node = some head) : ∃ linked, g.onValueConnected l = .ok linked := by
  have honlyOutput := hr.hasLayouts.onlyOutput_of_literal htail hkind
  have hvar := isVariable_of_literal hkind
  have hid := hr.hasLayouts.id_eq htail
  have hfinish {moved : Graph} (hallKept : AllKept g moved) : ∃ linked, moved.retype l = .ok linked := by
    obtain ⟨tail', htail', -⟩ := hallKept.node_of htail
    obtain ⟨head', hhead', -⟩ := hallKept.node_of hhead
    simp only [retype, node_eq_ok_iff.2 htail', node_eq_ok_iff.2 hhead', ok_bind]
    split
    next => exact ⟨_, rfl⟩
    next =>
      split
      next => exact ⟨_, rfl⟩
      next => exact ⟨_, rfl⟩
  simp only [onValueConnected, node_eq_ok_iff.2 htail, node_eq_ok_iff.2 hhead, ok_bind,
    honlyOutput.hasFlowAdjacent_eq_false, hvar]
  cases htarget : (head.internalScope <|> head.scope) with
  | none => exact hfinish (.refl g)
  | some t =>
    have hlive (s : ScopeId) (hs : s ∈ tail.scope) : ∃ sc, g.scopeAt? s = some sc := by
      obtain ⟨sc, hsc, -⟩ := hg.placed (node_eq_ok_iff.2 htail) hs
      exact ⟨sc, scope_eq_ok_iff.1 hsc⟩
    obtain ⟨moved, r, hmoved⟩ :=
        exists_changeScope hr.wellFormed.scopesMatchNodes htail honlyOutput.noInputsNorSuccessor hvar hlive
      (hg.parentsEnd_of_reader hr.wellFormed.scopesOwned hhead htarget)
    obtain ⟨linked, hlinked⟩ := hfinish (changeScope_moves (guards_always t) hmoved).changes.allKept
    refine ⟨linked, ?_⟩
    rw [hid]
    exact bind_eq_ok.2 ⟨_, hmoved, hlinked⟩

/-- A literal that is linked to its first reader can go wherever the reader is. -/
theorem exists_connect (hr : Reachable g) (hg : Consistent g) (hmerges : g.Merges output input) :
    ∃ r, g.connect output input true = .ok r := by
  by_cases hmergeSkipsCheck : g.MergeSkipsCheck output input
  · have hlookup : ∃ e, g.validateLink output input = .ok (.error e) := by
      cases hmergeSkipsCheck with
      | unchecked hmerges htarget hmissed => exact hmerges.validateLink_eq_error htarget hmissed
      | unnamed hlive hnone => exact ⟨_, validateLink_eq_error_iff.2 (.inl (lookupSlot_eq_unknown hlive hnone))⟩
    obtain ⟨e, he⟩ := hlookup
    exact ⟨_, connect_eq_error_iff.2 ⟨rfl, he⟩⟩
  · have hvalidate := validateLink_of_not_mergeSkipsCheck hr hmergeSkipsCheck hmerges
    obtain ⟨t, h, hlinkable⟩ := linkable_of_validateLink hvalidate
    have hraw : g.connect output input false = .ok (g.addLink ⟨output, input, .value⟩, .ok ⟨output, input, .value⟩) :=
      bind_eq_ok.2 ⟨_, hvalidate, rfl⟩
    have hperform : g.perform (.connect output input false) = .ok (g.addLink ⟨output, input, .value⟩) :=
      bind_eq_ok.2 ⟨_, hraw, rfl⟩
    have hr' : Reachable (g.addLink ⟨output, input, .value⟩) := .edit _ hr hperform
    have hblockScopeLive : g.BlockScopeLive (.connect output input false) := by rintro _ ⟨⟩
    have hg' : Consistent (g.addLink ⟨output, input, .value⟩) := hg.perform rfl hblockScopeLive hperform
    have hsameFrames := sameFrames_addLink g ⟨output, input, .value⟩
    obtain ⟨source, target, p, hsource, -, hp⟩ := hmerges
    obtain ⟨⟨hkind, -⟩, -⟩ := mergeTarget?_eq_some_iff.1 hp
    obtain ⟨tail, htail, hframe⟩ := hsameFrames.node (node_eq_ok_iff.1 hsource)
    obtain ⟨reader, hreader, -⟩ := Option.bind_eq_some_iff.1 hlinkable.head
    obtain ⟨head, hhead, -⟩ := hsameFrames.node hreader
    obtain ⟨linked, hlinked⟩ := exists_onValueConnected (l := ⟨output, input, .value⟩) hr' hg' htail
      ((Node.of_frame hframe).2.1.trans hkind) hhead
    exact ⟨_, bind_eq_ok.2 ⟨_, hvalidate, bind_eq_ok.2 ⟨linked, hlinked, rfl⟩⟩⟩

/-- Merging and linking agree about what they accept, and about why they refuse, exactly if merging skips no check; in a
consistent graph, linking then goes through. -/
theorem mergeAgrees_iff_not_mergeSkipsCheck (hr : Reachable g) (hmerge : g.config.mergeLiterals = true) :
    (g.MergeAgrees output input ↔ ¬g.MergeSkipsCheck output input ∧
      ((∃ merged, g.connectOrMerge output input = .ok (merged, .ok none)) →
        ∃ r, g.connect output input true = .ok r)) ∧
    (Consistent g → g.Merges output input → ∃ r, g.connect output input true = .ok r) := by
  refine ⟨⟨fun h => ⟨h.not_mergeSkipsCheck hmerge, ?_⟩, ?_⟩, exists_connect hr⟩
  · rintro ⟨merged, hmerged⟩
    obtain ⟨linked, l, hlinked⟩ := h.merged hmerged
    exact ⟨_, hlinked⟩
  · rintro ⟨hnot, hreturns⟩
    refine ⟨fun {merged} hmerged => ?_, refused_of_not_mergeSkipsCheck hr hmerge hnot⟩
    obtain ⟨e, he⟩ | ⟨l, hl⟩ | ⟨hmerges, -⟩ := connectOrMerge_eq_ok hmerge hmerged
    · cases he
    · cases hl
    · obtain ⟨⟨linked, r⟩, hlinked⟩ := hreturns ⟨merged, hmerged⟩
      obtain ⟨-, e, rfl⟩ | ⟨l, rfl, -⟩ := connect_eq hlinked
      · have hvalidate := (connect_eq_error_iff.1 hlinked).2
        cases (validateLink_of_not_mergeSkipsCheck hr hnot hmerges).symm.trans hvalidate
      · exact ⟨linked, l, hlinked⟩

/-- Literals are merged. The variable 3 is initialized with the literal 4, and the variable 6 with nothing. The literal
5 feeds nothing. -/
def initialized : Except Fault Graph := do
  let g ← create {} {} default { mergeLiterals := true }
  let s ← g.rootScope
  [.declaration .int "x" s, .literal (.int 1) s, .literal (.int 2) s, .declaration .int "y" s,
    .connect ⟨⟨4⟩, ⟨0⟩⟩ ⟨⟨3⟩, ⟨2⟩⟩ true].foldlM perform g

theorem initialized_reachable (h : initialized = .ok g) : Reachable g := by
  simp only [initialized, bind_eq_ok] at h
  obtain ⟨g₀, hcreate, s, -, h⟩ := h
  exact (Reachable.create hcreate).edits h

/-- The literal 5 can be merged into the input of the variable 6, and could have been linked to it. -/
theorem mergeAgrees_initialized : ∃ g, initialized = .ok g ∧ Reachable g ∧ g.config.mergeLiterals = true ∧
    g.Merges ⟨⟨5⟩, ⟨0⟩⟩ ⟨⟨6⟩, ⟨2⟩⟩ ∧ g.MergeAgrees ⟨⟨5⟩, ⟨0⟩⟩ ⟨⟨6⟩, ⟨2⟩⟩ := by
  obtain ⟨g, hg⟩ := exists_of_isOk (x := initialized) (by decide +kernel)
  have hfacts := eq_ok_of_toOption_bind (fun g => do
    let source ← g.node ⟨5⟩
    let output ← g.slot? ⟨⟨5⟩, ⟨0⟩⟩
    let input ← g.slot? ⟨⟨6⟩, ⟨2⟩⟩
    let (_, result) ← g.connect ⟨⟨5⟩, ⟨0⟩⟩ ⟨⟨6⟩, ⟨2⟩⟩ true
    return (g.config.mergeLiterals, output.isSome, input.map Slot.isFull,
      input.bind (mergeTarget? source), result.isOk))
    hg (b := (true, true, some false, some 0, true)) (by decide +kernel)
  simp only [bind_eq_ok, pure_eq_ok, Prod.mk.injEq] at hfacts
  obtain ⟨source, hsource, output, houtput, input, hinput, ⟨linked, r⟩, hlinked, hmerge, hsome, hroom, hp, -⟩ := hfacts
  obtain ⟨target, rfl, hempty⟩ := Option.map_eq_some_iff.1 hroom
  have hmerges : g.Merges ⟨⟨5⟩, ⟨0⟩⟩ ⟨⟨6⟩, ⟨2⟩⟩ := ⟨source, target, 0, hsource, hinput, hp⟩
  have hnot : ¬g.MergeSkipsCheck ⟨⟨5⟩, ⟨0⟩⟩ ⟨⟨6⟩, ⟨2⟩⟩ := by
    intro hmergeSkipsCheck
    cases hmergeSkipsCheck with
    | unchecked _ htarget hmissed =>
      cases hinput.symm.trans htarget
      rcases hmissed with hnone | hfull
      · cases houtput.symm.trans hnone
        cases hsome
      · cases hempty.symm.trans hfull
    | unnamed _ hnone =>
      cases houtput.symm.trans hnone
      cases hsome
  exact ⟨g, hg, initialized_reachable hg, hmerge, hmerges,
    (mergeAgrees_iff_not_mergeSkipsCheck (initialized_reachable hg) hmerge).1.2 ⟨hnot, fun _ => ⟨_, hlinked⟩⟩⟩

/-- The literal 5 cannot be linked to the input of the variable 3, which is fed by the literal 4. It is merged into
that input all the same, and gone. -/
theorem not_mergeAgrees_initialized : ∃ g merged, initialized = .ok g ∧ Reachable g ∧ g.config.mergeLiterals = true ∧
    g.connect ⟨⟨5⟩, ⟨0⟩⟩ ⟨⟨3⟩, ⟨2⟩⟩ true = .ok (g, .error (.slotFull ⟨⟨3⟩, ⟨2⟩⟩)) ∧
    g.connectOrMerge ⟨⟨5⟩, ⟨0⟩⟩ ⟨⟨3⟩, ⟨2⟩⟩ = .ok (merged, .ok none) ∧ g.contains ⟨5⟩ = true ∧
    merged.contains ⟨5⟩ = false ∧ ¬g.MergeAgrees ⟨⟨5⟩, ⟨0⟩⟩ ⟨⟨3⟩, ⟨2⟩⟩ := by
  obtain ⟨g, hg⟩ := exists_of_isOk (x := initialized) (by decide +kernel)
  have hfacts := eq_ok_of_toOption_bind (fun g => do
    let (_, refused) ← g.connect ⟨⟨5⟩, ⟨0⟩⟩ ⟨⟨3⟩, ⟨2⟩⟩ true
    let (merged, result) ← g.connectOrMerge ⟨⟨5⟩, ⟨0⟩⟩ ⟨⟨3⟩, ⟨2⟩⟩
    return (g.config.mergeLiterals, refused, result, g.contains ⟨5⟩, merged.contains ⟨5⟩)) hg
    (b := (true, .error (.slotFull ⟨⟨3⟩, ⟨2⟩⟩), .ok none, true, false)) (by decide +kernel)
  simp only [bind_eq_ok, pure_eq_ok, Prod.mk.injEq] at hfacts
  obtain ⟨⟨same, _⟩, hrefused, ⟨merged, _⟩, hmerged, hmerge, rfl, rfl, hbefore, hafter⟩ := hfacts
  obtain rfl := eq_of_connect_error hrefused
  refine ⟨same, merged, hg, initialized_reachable hg, hmerge, hrefused, hmerged, hbefore, hafter, fun h => ?_⟩
  cases hmerged.symm.trans (h.refused hrefused)

end FlowGraph.Graph
