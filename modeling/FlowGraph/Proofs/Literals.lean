import FlowGraph.Proofs.Threads

/-!
# Literals

A literal has one slot, its output. Nothing feeds it and nothing comes after it, so it enters and leaves scopes
on its own, and what is left of the graph is as it was.
-/

namespace FlowGraph

namespace Node

structure NoInputsNorSuccessor (n : Node) : Prop where
  inputs : n.inputs = []
  successor : n.successor? = none

def OnlyOutput (fanIn : Nat) (n : Node) : Prop :=
  ∃ slot : Slot, n.slots = [slot] ∧ slot.shape = (outputSlot 0 fanIn).shape

namespace OnlyOutput

variable {fanIn : Nat} {n : Node}

theorem slot {r : SlotId} {slot : Slot} (h : n.OnlyOutput fanIn) (hslot : n.slot? r = some slot) :
    n.slots = [slot] ∧ slot.shape = (outputSlot 0 fanIn).shape := by
  obtain ⟨out, hout, hshape⟩ := h
  have hmem := List.mem_of_getElem? hslot
  rw [hout, List.mem_singleton] at hmem
  subst hmem
  exact ⟨hout, hshape⟩

theorem filterSlots_eq_nil {f : SlotFlags} (h : n.OnlyOutput fanIn) (hf : f.notFull = false)
    (hout : (outputSlot 0 fanIn).hasFlags f = false) : n.filterSlots f = [] := by
  obtain ⟨slot, hslots, hshape⟩ := h
  have hflags : slot.hasFlags f = false := by
    rw [← slot.hasFlags_shape hf, hshape, Slot.hasFlags_shape _ hf, hout]
  rw [filterSlots, hslots, List.filter_cons, hflags, if_neg Bool.false_ne_true, List.filter_nil]

theorem inputs_eq_nil (h : n.OnlyOutput fanIn) : n.inputs = [] := by
  rw [inputs, adjacentNodes, h.filterSlots_eq_nil rfl rfl]
  rfl

theorem prevSlot?_eq_none (h : n.OnlyOutput fanIn) : n.prevSlot? = none := by
  rw [prevSlot?, findSlot?, h.filterSlots_eq_nil rfl rfl]
  rfl

theorem nextSlot?_eq_none (h : n.OnlyOutput fanIn) : n.nextSlot? = none := by
  rw [nextSlot?, h.filterSlots_eq_nil rfl rfl]
  rfl

theorem noInputsNorSuccessor (h : n.OnlyOutput fanIn) : n.NoInputsNorSuccessor where
  inputs := h.inputs_eq_nil
  successor := by rw [successor?, h.nextSlot?_eq_none]; rfl

theorem hasFlowAdjacent_eq_false (h : n.OnlyOutput fanIn) : n.hasFlowAdjacent = false := by
  rw [hasFlowAdjacent, h.filterSlots_eq_nil rfl rfl]
  rfl

theorem outputs_eq (h : n.OnlyOutput fanIn) {slot : Slot} (hslots : n.slots = [slot]) :
    n.outputs = (slot.adjacent.map (·.node)).eraseDups := by
  have hslot : n.slot? ⟨0⟩ = some slot := by
    rw [slot?, hslots]
    rfl
  have hshape := (h.slot hslot).2
  have hflags : slot.hasFlags .output = true := by
    rw [← slot.hasFlags_shape rfl, hshape]
    rfl
  rw [outputs, adjacentNodes, filterSlots, hslots, List.filter_cons, hflags, if_pos rfl, List.filter_nil,
    List.flatMap_singleton]

theorem unlinked (h : n.OnlyOutput fanIn) (hfree : n.outputs = []) : ∀ slot ∈ n.slots, slot.adjacent = [] := by
  intro slot hslot
  have honlyOutput := h
  obtain ⟨out, hout, -⟩ := honlyOutput
  rw [hout, List.mem_singleton] at hslot
  subst hslot
  rw [h.outputs_eq hout] at hfree
  cases hadjacent : slot.adjacent with
  | nil => rfl
  | cons r rs =>
    rw [hadjacent, List.map_cons, List.eraseDups_cons] at hfree
    cases hfree

end OnlyOutput

end Node

namespace Graph

variable {g g' : Graph} {id : NodeId} {s t : ScopeId} {n : Node}

theorem HasLayouts.onlyOutput_of_literal (h : HasLayouts g) (hn : g.nodeAt? id = some n) (hkind : n.kind = .literal) :
    n.OnlyOutput g.config.fanIn := by
  obtain ⟨l, hshape⟩ := h.shaped hn
  obtain ⟨-, hkind', -, -, hslots⟩ := Node.of_shape hshape
  have hliteral : l.kind = .literal := by rw [← l.kind_build, ← hkind', hkind]
  have hbuild : (l.build g.config.fanIn id).slots = [Node.outputSlot 0 g.config.fanIn] := by
    cases l with
    | literal value => rfl
    | conditional c => cases c <;> cases hliteral
    | invokable kind signature callable =>
      obtain rfl : kind = .literal := hliteral
      cases callable
    | _ => cases hliteral
  rw [hbuild, List.map_singleton, List.map_eq_singleton_iff] at hslots
  exact hslots

theorem HasLayouts.signature_of_literal (h : HasLayouts g) (hn : g.nodeAt? id = some n) (hkind : n.kind = .literal) :
    n.signature = none := by
  obtain ⟨l, hshape⟩ := h.shaped hn
  obtain ⟨-, hkind', -, hsignature, -⟩ := Node.of_shape hshape
  have hliteral : l.kind = .literal := by rw [← l.kind_build, ← hkind', hkind]
  rw [hsignature]
  cases l with
  | literal value => rfl
  | conditional c => cases c <;> cases hliteral
  | invokable kind signature callable =>
    obtain rfl : kind = .literal := hliteral
    cases callable
  | _ => cases hliteral

theorem HasLayouts.internalScope_of_literal (h : HasLayouts g) (hn : g.nodeAt? id = some n)
    (hkind : n.kind = .literal) :
    n.internalScope = none := by
  cases hi : n.internalScope with
  | none => rfl
  | some i =>
    have hframed := h.framed hn hi
    rw [hkind] at hframed
    rcases hframed with hframed | hframed <;> cases hframed

theorem leave_eq_ok (hh : ScopesMatchNodes g) (hn : g.nodeAt? id = some n) (hvar : n.isVariable = false) {sc : Scope}
    (hsc : g.scopeAt? s = some sc) : g.leave id s = .ok ((g.displace id s).emit (.nodeScoped id none)) := by
  have hundeclared : sc.declared.contains id = false := by
    rw [List.contains_eq_mem, decide_eq_false_iff_not]
    intro hdeclared
    cases hvar.symm.trans (((hh.scopeMatchesNodes hsc).declared id hdeclared).2 n hn)
  simp only [leave, node_eq_ok_iff.2 hn, scope_eq_ok_iff.2 hsc, ok_bind, hundeclared]
  rfl

theorem enter_eq_ok (hn : g.nodeAt? id = some n) (hvar : n.isVariable = false) {sc : Scope}
    (hsc : g.scopeAt? s = some sc) : g.enter id s = .ok ((g.place id s).emit (.nodeScoped id (some s))) := by
  simp only [enter, node_eq_ok_iff.2 hn, scope_eq_ok_iff.2 hsc, ok_bind, hvar]
  rfl

theorem companions_of_noInputsNorSuccessor (hn : g.nodeAt? id = some n) (halone : n.NoInputsNorSuccessor) :
    g.companions id = .ok [] := by
  simp only [companions, node_eq_ok_iff.2 hn, ok_bind, halone.inputs, halone.successor]
  rfl

theorem detach_of_noInputsNorSuccessor (hh : ScopesMatchNodes g) (hn : g.nodeAt? id = some n)
    (halone : n.NoInputsNorSuccessor) (hvar : n.isVariable = false) {sc : Scope} (hsc : g.scopeAt? s = some sc) :
    g.detach id s = .ok ((g.displace id s).emit (.nodeScoped id none)) := by
  have hn' : ((g.displace id s).emit (.nodeScoped id none)).nodeAt? id = some { n with scope := none } :=
    nodeAt?_displace_self hn
  have hnone := companions_of_noInputsNorSuccessor hn' ⟨halone.inputs, halone.successor⟩
  simp only [detach, depthBound, detachWithin, leave_eq_ok hh hn hvar hsc, ok_bind, hnone]
  rfl

theorem insertIntoScope_of_noInputsNorSuccessor (hn : g.nodeAt? id = some n) (halone : n.NoInputsNorSuccessor)
    (hvar : n.isVariable = false) {sc : Scope} (hsc : g.scopeAt? s = some sc) :
    g.insertIntoScope id s = .ok ((g.place id s).emit (.nodeScoped id (some s))) := by
  have hn' : ((g.place id s).emit (.nodeScoped id (some s))).nodeAt? id = some { n with scope := some s } :=
    nodeAt?_place_self hn
  have hnone := companions_of_noInputsNorSuccessor hn' ⟨halone.inputs, halone.successor⟩
  simp only [insertIntoScope, depthBound, insertWithin, enter_eq_ok hn hvar hsc, ok_bind, hnone]
  rfl

def unscope (g : Graph) (id : NodeId) : Option ScopeId → Graph
  | none => g
  | some s => (g.displace id s).emit (.nodeScoped id none)

def rehome (g : Graph) (id : NodeId) (home : Option ScopeId) (t : ScopeId) : Graph :=
  ((g.unscope id home).place id t).emit (.nodeScoped id (some t))

theorem nodeAt?_unscope (home : Option ScopeId) (hn : g.nodeAt? id = some n) (hhome : n.scope = home) (x : NodeId) :
    (g.unscope id home).nodeAt? x = if x = id then some { n with scope := none } else g.nodeAt? x := by
  cases home with
  | none =>
    rw [unscope]
    split
    next hx => rw [hx, hn, ← hhome]
    next => rfl
  | some s =>
    rw [unscope, nodeAt?_emit, nodeAt?_displace]
    split
    next hx =>
      rw [hx, hn]
      rfl
    next => rfl

theorem scopeAt?_unscope (home : Option ScopeId) (t : ScopeId) :
    (g.unscope id home).scopeAt? t = if home = some t then (g.scopeAt? t).map (·.forget id) else g.scopeAt? t := by
  cases home with
  | none => rw [unscope, if_neg nofun]
  | some s =>
    have hiff : some s = some t ↔ t = s := ⟨fun h => (Option.some.inj h).symm, fun h => congrArg some h.symm⟩
    rw [unscope, if_congr hiff rfl rfl]
    exact scopeAt?_displace t

theorem live_of_detach (h : g.detach id s = .ok g') : ∃ sc, g.scopeAt? s = some sc := by
  simp only [detach, depthBound, detachWithin, bind_eq_ok] at h
  obtain ⟨left, hleft, -⟩ := h
  exact (leave_eq hleft).2

theorem exists_targetError (ht : ParentsEnd g t) (id : NodeId) : ∃ refused, g.targetError? id t = .ok refused := by
  have hfound : ∃ found, g.anyOnPath (fun t => do return (← g.scope t).owner == id) t = .ok found := by
    refine ht.search fun k s parent hparent habove => ?_
    obtain ⟨sc, hsc, -⟩ := parentScope?_eq_ok_iff.1 hparent
    simp only [anyOnPathWithin, hparent, scope_eq_ok_iff.2 hsc, ok_bind]
    cases hown : sc.owner == id with
    | true => exact ⟨true, rfl⟩
    | false =>
      cases parent with
      | none => exact ⟨false, rfl⟩
      | some t => exact habove t rfl
  obtain ⟨found, hfound⟩ := hfound
  obtain ⟨sc, hsc⟩ := (parentsEnd_iff.1 ht).live
  refine ⟨if found then some (.ownInternalScope id) else none, ?_⟩
  simp only [targetError?, scope?_eq_some_iff.2 hsc, hfound, ok_bind]
  cases found <;> rfl

section

variable {r : Except ScopeError Unit} (hh : ScopesMatchNodes g) (hn : g.nodeAt? id = some n)
  (halone : n.NoInputsNorSuccessor)
  (hvar : n.isVariable = false)

include hh hn halone hvar

theorem detach_home (hhome : n.scope = some s) {sc : Scope} (hsc : g.scopeAt? s = some sc) :
    g.detach id s = .ok (g.unscope id n.scope) := by
  rw [hhome]
  exact detach_of_noInputsNorSuccessor hh hn halone hvar hsc

omit hh in
theorem insertIntoScope_home {sc : Scope} (hsc : g.scopeAt? t = some sc) :
    (g.unscope id n.scope).insertIntoScope id t = .ok (g.rehome id n.scope t) := by
  have hn' : (g.unscope id n.scope).nodeAt? id = some { n with scope := none } := by
    rw [nodeAt?_unscope n.scope hn rfl, if_pos rfl]
  have hsc' : ∃ sc, (g.unscope id n.scope).scopeAt? t = some sc := by
    rw [scopeAt?_unscope, hsc]
    split
    next => exact ⟨_, rfl⟩
    next => exact ⟨_, rfl⟩
  obtain ⟨sc', hsc'⟩ := hsc'
  exact insertIntoScope_of_noInputsNorSuccessor hn' ⟨halone.inputs, halone.successor⟩ hvar hsc'

theorem changeScope_of_alone (h : g.changeScope id t = .ok (g', r)) : g' = g ∨ g' = g.rehome id n.scope t := by
  simp only [changeScope, node_eq_ok_iff.2 hn, ok_bind] at h
  split at h
  next =>
    cases h
    exact .inl rfl
  next =>
    obtain ⟨refused, hrefused, h⟩ := bind_eq_ok.1 h
    cases refused with
    | some e =>
      cases h
      exact .inl rfl
    | none =>
      obtain ⟨sc, hsc⟩ := (clear_of_check hrefused).live
      have hinsert := insertIntoScope_home hn halone hvar hsc
      cases hhome : n.scope with
      | none =>
        rw [hhome] at hinsert
        simp only [hhome, pure_eq_ok, bind_eq_ok] at h
        obtain ⟨_, rfl, inserted, hinserted, h⟩ := h
        cases h
        exact .inr (Except.ok.inj (hinserted.symm.trans hinsert))
      | some s =>
        simp only [hhome, bind_eq_ok] at h
        obtain ⟨left, hleft, inserted, hinserted, h⟩ := h
        cases h
        obtain ⟨sc', hsc'⟩ := live_of_detach hleft
        cases hleft.symm.trans (detach_home hh hn halone hvar hhome hsc')
        rw [← hhome]
        exact .inr (Except.ok.inj (hinserted.symm.trans hinsert))

theorem exists_changeScope (hlive : ∀ s ∈ n.scope, ∃ sc, g.scopeAt? s = some sc) (ht : ParentsEnd g t) :
    ∃ moved r, g.changeScope id t = .ok (moved, r) := by
  obtain ⟨refused, hrefused⟩ := exists_targetError ht id
  by_cases hthere : n.scope = some t
  · exact ⟨g, .ok (), by simp only [changeScope, node_eq_ok_iff.2 hn, ok_bind, if_pos hthere]; rfl⟩
  cases refused with
  | some e =>
    exact ⟨g, .error e, by simp only [changeScope, node_eq_ok_iff.2 hn, ok_bind, if_neg hthere, hrefused]; rfl⟩
  | none =>
    obtain ⟨sc, hsc⟩ := (parentsEnd_iff.1 ht).live
    have hinsert := insertIntoScope_home hn halone hvar hsc
    refine ⟨g.rehome id n.scope t, .ok (), ?_⟩
    simp only [changeScope, node_eq_ok_iff.2 hn, ok_bind, if_neg hthere, hrefused]
    cases hhome : n.scope with
    | none =>
      rw [hhome] at hinsert
      exact bind_eq_ok.2 ⟨g, rfl, bind_eq_ok.2 ⟨_, hinsert, rfl⟩⟩
    | some s =>
      obtain ⟨sc', hsc'⟩ := hlive s hhome
      rw [hhome] at hinsert
      have hdetach := detach_home hh hn halone hvar hhome hsc'
      rw [hhome] at hdetach
      exact bind_eq_ok.2 ⟨_, hdetach, bind_eq_ok.2 ⟨_, hinsert, rfl⟩⟩

end

def erase (g : Graph) (id : NodeId) : Graph :=
  { g with nodes := g.nodes.filter (· != id), arena := g.arena.erase id.raw }.emit (.nodeRemoved id)

theorem LinksMatch.not_involves (hw : LinksMatch g) (hn : g.nodeAt? id = some n)
    (hfree : ∀ slot ∈ n.slots, slot.adjacent = []) {k : SlotKind} {l : Link} (hl : l ∈ g.links k) :
    l.involves id = false := by
  obtain ⟨-, -, out, inp, hout, hinp, -, -, -, -, hhead, htail⟩ := hw.joined hl
  have hother {r r' : SlotRef} {slot : Slot} (hslot : g.slotAt? r = some slot) (hr' : r' ∈ slot.adjacent) :
      r.node ≠ id := by
    rintro rfl
    obtain ⟨m, hm, hslot⟩ := Option.bind_eq_some_iff.1 hslot
    cases hn.symm.trans hm
    rw [hfree slot (List.mem_of_getElem? hslot)] at hr'
    cases hr'
  simp [Link.involves, hother hout hhead, hother hinp htail]

theorem LinksMatch.links_of_onlyOutput {fanIn : Nat} (hw : LinksMatch g) (hn : g.nodeAt? id = some n)
    (honlyOutput : n.OnlyOutput fanIn) (hfree : n.outputs = []) :
    (g.valueLinks ++ g.flowLinks).filter (·.involves id) = [] := by
  rw [List.filter_eq_nil_iff]
  intro l hl
  rw [Bool.not_eq_true]
  rcases List.mem_append.1 hl with hl | hl
  · exact hw.not_involves hn (honlyOutput.unlinked hfree) (k := .value) hl
  · exact hw.not_involves hn (honlyOutput.unlinked hfree) (k := .flow) hl

theorem destroy_of_onlyOutput {fanIn : Nat} (h : g.destroy id true = .ok g') (hw : LinksMatch g)
    (hh : ScopesMatchNodes g) (hroot : id ≠ g.root) (hn : g.nodeAt? id = some n) (honlyOutput : n.OnlyOutput fanIn)
    (hvar : n.isVariable = false) (hinternal : n.internalScope = none) (hfree : n.outputs = []) :
    g' = (g.unscope id n.scope).erase id := by
  obtain ⟨k, h⟩ := destroyWithin_of_destroy h
  obtain ⟨hgone | hgone, -⟩ | ⟨n', inner, -, hn', hinner, hstages⟩ := destroyWithin_eq h
  · exact (hroot hgone).elim
  · cases hn.symm.trans hgone
  cases hn.symm.trans hn'
  obtain rfl : inner = [] := (innerScopes_eq_nil_iff hinner hn).2 hinternal
  cases hstages with
  | deep hinputs hg₁ hcontent hg₂ hremove hrelink =>
    have hnone : g.privateInputs n = .ok [] := by
      rw [privateInputs, honlyOutput.inputs_eq_nil]
      rfl
    cases hnone.symm.trans hinputs
    cases hg₁
    cases hcontent
    cases hg₂
    have hbypass : bypass n = none := by
      rw [bypass, honlyOutput.prevSlot?_eq_none]
      rfl
    rw [hbypass] at hrelink
    cases hrelink
    simp only [remove, hw.links_of_onlyOutput hn honlyOutput hfree, bind_eq_ok] at hremove
    obtain ⟨_, ⟨⟩, m, hm, hremove⟩ := hremove
    cases hn.symm.trans (node_eq_ok_iff.1 hm)
    cases hhome : n.scope with
    | none =>
      simp only [hhome] at hremove
      cases hremove
      rfl
    | some s =>
      simp only [hhome, bind_eq_ok] at hremove
      obtain ⟨left, hleft, _, ⟨⟩, hremove⟩ := hremove
      cases hremove
      obtain ⟨sc, hsc⟩ := live_of_detach hleft
      cases hleft.symm.trans (detach_of_noInputsNorSuccessor hh hn honlyOutput.noInputsNorSuccessor hvar hsc)
      rfl

theorem exists_destroy_of_onlyOutput {fanIn : Nat} (hw : LinksMatch g) (hh : ScopesMatchNodes g)
    (hn : g.nodeAt? id = some n) (honlyOutput : n.OnlyOutput fanIn) (hvar : n.isVariable = false)
    (hinternal : n.internalScope = none) (hfree : n.outputs = [])
    (hlive : ∀ s ∈ n.scope, ∃ sc, g.scopeAt? s = some sc) : ∃ g', g.destroy id true = .ok g' := by
  have hremove : ∃ g', g.remove id [] = .ok g' := by
    simp only [remove, hw.links_of_onlyOutput hn honlyOutput hfree, List.foldlM_nil, pure_bind, node_eq_ok_iff.2 hn,
      ok_bind]
    cases hhome : n.scope with
    | none => exact ⟨_, rfl⟩
    | some s =>
      obtain ⟨sc, hsc⟩ := hlive s hhome
      exact ⟨_, bind_eq_ok.2 ⟨_, detach_of_noInputsNorSuccessor hh hn honlyOutput.noInputsNorSuccessor hvar hsc, rfl⟩⟩
  obtain ⟨removed, hremoved⟩ := hremove
  have hbound : g.destroyBound = g.destroyBound - 1 + 1 :=
    (Nat.succ_pred_eq_of_pos (Nat.mul_pos (Nat.succ_pos _) (Nat.succ_pos _))).symm
  have hcontains : g.contains id = true := contains_iff.2 (Option.isSome_of_mem hn)
  have hinner : g.innerScopes id = .ok [] := innerScopes_eq_ok_iff.2 ⟨n, hn, .inl ⟨hinternal, rfl⟩⟩
  have hprivate : g.privateInputs n = .ok [] := by
    rw [privateInputs, honlyOutput.inputs_eq_nil]
    rfl
  have hbypass : bypass n = none := by
    rw [bypass, honlyOutput.prevSlot?_eq_none]
    rfl
  rw [destroy, hbound, destroyWithin, hcontains, hinner, node_eq_ok_iff.2 hn]
  split
  next => exact ⟨g, rfl⟩
  next =>
    simp only [Bool.not_true, Bool.false_eq_true, if_false, if_true, ok_bind, hprivate, List.foldlM_nil, List.mapM_nil,
      List.flatten_nil, pure_bind, hremoved, hbypass]
    exact ⟨removed, rfl⟩

end Graph

end FlowGraph
