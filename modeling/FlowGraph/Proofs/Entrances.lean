import FlowGraph.Proofs.Guidance

/-!
# Entrances

What leads a scope has been entered through a branch once. The link may be gone and the head still be there, but
no node loses its slots: control can come to every head.
-/

namespace FlowGraph.Graph

variable {may : Graph → NodeId → ScopeId → Prop} {g g' : Graph} {id x : NodeId} {s : ScopeId} {n : Node}

def HasFlowIn (g : Graph) (x : NodeId) : Prop :=
  ∃ n, g.nodeAt? x = some n ∧ ∃ slot ∈ n.slots, slot.kind = .flow ∧ slot.isPrimary = false

def HeadsHaveFlowIn (g : Graph) : Prop := ∀ s x, g.headAt? s = some x → g.HasFlowIn x

theorem LinksMatch.hasFlowIn (hw : LinksMatch g) (h : g.HasFlowPredecessor x) : g.HasFlowIn x := by
  obtain ⟨r, out, hout, hkind, hprimary, r', hr', rfl⟩ := h
  have hlink := hw.registered hout hr'
  rw [Slot.linkTo, if_pos hprimary] at hlink
  obtain ⟨-, -, -, slot, -, hslot, -, hslotKind, -, hsecondary, -⟩ := hw.joined hlink
  obtain ⟨n, hn, hslot⟩ := Option.bind_eq_some_iff.1 hslot
  exact ⟨n, hn, slot, List.mem_of_getElem? hslot, hslotKind.trans hkind, hsecondary⟩

theorem HasFlowIn.of_shape {n' : Node} (h : g.HasFlowIn x) (hn : g.nodeAt? x = some n) (hn' : g'.nodeAt? x = some n')
    (hshape : n'.shape = n.shape) : g'.HasFlowIn x := by
  obtain ⟨m, hm, slot, hslot, hkind, hprimary⟩ := h
  cases hn.symm.trans hm
  have hmem : slot.shape ∈ n'.slots.map Slot.shape := (Node.of_shape hshape).2.2.2.2 ▸ List.mem_map_of_mem hslot
  obtain ⟨slot', hslot', heq⟩ := List.mem_map.1 hmem
  refine ⟨n', hn', slot', hslot', ?_, ?_⟩
  · exact (congrArg Slot.kind heq).trans hkind
  · exact (congrArg Slot.isPrimary heq).trans hprimary

theorem HasFlowIn.change (h : g.HasFlowIn x) (hchange : Change may g g') : g'.HasFlowIn x := by
  have hlive := h
  obtain ⟨n, hn, -⟩ := hlive
  obtain ⟨n', hn', -⟩ := hchange.allKept.node_of hn
  obtain ⟨m, hm, hshape⟩ := hchange.shapesKept x n' hn'
  cases hn.symm.trans hm
  exact h.of_shape hn hn' hshape

theorem headAt?_of_write {t : ScopeId} {f : Scope → Scope}
    (hview : g'.scopeAt? s = if s = t then (g.scopeAt? s).map f else g.scopeAt? s)
    (hf : ∀ sc, (f sc).head = some x → sc.head = some x) (hx : g'.headAt? s = some x) : g.headAt? s = some x := by
  obtain ⟨sc', hsc', hhead⟩ := Option.bind_eq_some_iff.1 hx
  rw [hview] at hsc'
  split at hsc'
  next =>
    obtain ⟨sc, hsc, rfl⟩ := Option.map_eq_some_iff.1 hsc'
    exact Option.bind_eq_some_iff.2 ⟨sc, hsc, hf sc hhead⟩
  next => exact Option.bind_eq_some_iff.2 ⟨sc', hsc', hhead⟩

theorem Move.of_headAt? (h : Move may g g') (hx : g'.headAt? s = some x) :
    g.headAt? s = some x ∨ g.HasFlowPredecessor x := by
  cases h with
  | note => exact .inl hx
  | enter => exact .inl (headAt?_of_write (scopeAt?_place s) (fun _ hhead => hhead) hx)
  | leave =>
    refine .inl (headAt?_of_write (scopeAt?_displace s) (fun sc hhead => ?_) hx)
    simp only [Scope.forget] at hhead
    split at hhead
    next => cases hhead
    next => exact hhead
  | @declare v => exact .inl (headAt?_of_write (scopeAt?_modifyScope (·.declare v) s) (fun _ hhead => hhead) hx)
  | @lead t sc head hsc hhead =>
    rw [headAt?_lead, hsc] at hx
    split at hx
    next => exact .inr (hhead x hx).2
    next => exact .inl hx

theorem HeadsHaveFlowIn.step (h : HeadsHaveFlowIn g) (hg : RecordsValid g) (hstep : Step may g g') :
    HeadsHaveFlowIn g' := by
  intro s x hx
  cases hstep with
  | change hchange =>
    refine HasFlowIn.change ?_ hchange
    have hsameFrames {b : Graph} (hsameFrames : SameFrames g b) (hx : b.headAt? s = some x) : g.HasFlowIn x :=
      h s x ((hsameFrames.headAt? s).symm.trans hx)
    rcases hchange.move_or_sameFrames with hmove | hsame
    · rcases hmove.of_headAt? hx with hx | hentered
      · exact h s x hx
      · exact hg.linksMatch.hasFlowIn hentered
    · exact hsameFrames hsame hx
  | discard _ hn hnone _ _ hs =>
    rw [hs.headAt?] at hx
    split at hx
    next => cases hx
    next =>
      obtain ⟨sc, hsc, hhead⟩ := Option.bind_eq_some_iff.1 hx
      obtain ⟨m, hm, hscope⟩ :=
          (hg.scopesMatchNodes.scopeMatchesNodes hsc).child x ((hg.scopesMatchNodes.scopeMatchesNodes hsc).head x hhead)
      have hm' : g'.nodeAt? x = some m := by
        rw [hs.nodeAt?, if_neg, hm]
        rintro rfl
        cases hn.symm.trans hm
        cases hnone.symm.trans hscope
      exact (h s x hx).of_shape hm hm' rfl

theorem HeadsHaveFlowIn.steps (h : HeadsHaveFlowIn g) (hg : RecordsValid g) (hsteps : Steps may g g') :
    HeadsHaveFlowIn g' := by
  induction hsteps with
  | refl => exact h
  | tail hsteps hstep ih => exact ih.step (hg.steps hsteps) hstep

theorem HeadsHaveFlowIn.spawn {build : NodeId → Node} {partitions : Option Nat} {t : Option ScopeId}
    (h : HeadsHaveFlowIn g) (hg : RecordsValid g) (hbuildsUnlinked : BuildsUnlinked g.config.fanIn build)
    (hspawn : g.spawn build partitions t = .ok (id, g')) :
    HeadsHaveFlowIn g' := by
  obtain ⟨n, ps, g₁, hnew, -, heditMoves⟩ := spawn_editMoves hbuildsUnlinked hspawn
  have haddsNode := hnew.toAddsNode
  have hheadsHaveFlowIn : HeadsHaveFlowIn g₁ := by
    intro s x hx
    have hold := h s x ((haddsNode.headAt? s).symm.trans hx)
    have hlive := hold
    obtain ⟨m, hm, -⟩ := hlive
    refine hold.of_shape hm ?_ rfl
    rw [haddsNode.nodeAt?, if_neg, hm]
    rintro rfl
    cases haddsNode.fresh.symm.trans hm
  have hrecordsValid := hg.addsNode haddsNode hnew.unscoped fun slot hslot =>
    ⟨(hnew.unused slot hslot).adjacent, (hnew.unused slot hslot).roomKnown hg.fanIn⟩
  exact hheadsHaveFlowIn.steps hrecordsValid heditMoves.moves.changes.steps

theorem HoldsNothing.headsHaveFlowIn (h : HoldsNothing g) (hfanIn : 0 < g.config.fanIn)
    (hspawn : g.spawnEntryPoint = .ok g') :
    HeadsHaveFlowIn g' := by
  simp only [spawnEntryPoint, bind_eq_ok, pure_eq_ok] at hspawn
  obtain ⟨⟨id, g₁⟩, hg₁, rfl⟩ := hspawn
  have hheadsHaveFlowIn : HeadsHaveFlowIn g := by
    intro s x hx
    rw [headAt?, h.scopeAt?] at hx
    cases hx
  have hheadsHaveFlowIn₁ : HeadsHaveFlowIn g₁ :=
    hheadsHaveFlowIn.spawn (h.recordsValid hfanIn) (Node.buildsUnlinked_entryPoint _) hg₁
  exact hheadsHaveFlowIn₁

theorem HeadsHaveFlowIn.perform {e : Edit} (h : HeadsHaveFlowIn g) (hg : WellFormed g)
    (hperform : g.perform e = .ok g') : HeadsHaveFlowIn g' := by
  cases perform_effect guards_always hperform with
  | changes _ hchanges => exact h.steps hg.toRecordsValid hchanges.steps
  | create _ hbuildsUnlinked hspawn hchanges =>
    exact (h.spawn hg.toRecordsValid hbuildsUnlinked hspawn).steps
      (hg.spawn hbuildsUnlinked hspawn).toRecordsValid hchanges.steps
  | block _ hbuildsUnlinked hspawn => exact h.spawn hg.toRecordsValid hbuildsUnlinked hspawn
  | undo hbuildsUnlinked hspawn hdestroy =>
    have hg₁ := hg.spawn hbuildsUnlinked hspawn
    exact (h.spawn hg.toRecordsValid hbuildsUnlinked hspawn).steps hg₁.toRecordsValid
      (destroy_steps guards_always hg₁.toLinksScopesValid hdestroy)
  | destroy _ hchanges hdestroy =>
    have hg₁ := hg.changes hchanges
    exact (h.steps hg.toRecordsValid hchanges.steps).steps hg₁.toRecordsValid
      (destroy_steps guards_always hg₁.toLinksScopesValid hdestroy)
  | reset hreset =>
    obtain ⟨g₀, hholdsNothing, hconfig, -, hspawn⟩ := reset_eq hg.nodesListed hreset
    exact hholdsNothing.headsHaveFlowIn (hconfig ▸ hg.fanIn) hspawn
  | drain => exact h

theorem Reachable.headsHaveFlowIn (h : Reachable g) : HeadsHaveFlowIn g := by
  induction h with
  | create hcreate =>
    obtain ⟨g₀, hholdsNothing, hfanIn, -, hspawn⟩ := create_eq hcreate
    exact hholdsNothing.headsHaveFlowIn hfanIn hspawn
  | edit e hreachable hperform ih => exact ih.perform hreachable.wellFormed hperform
  | issued _ _ ih => exact ih

theorem hasFlowIn_of_flowOutputs (hw : LinksMatch g) (hn : g.nodeAt? id = some n) (hx : x ∈ n.flowOutputs) :
    g.HasFlowIn x := by
  simp only [Node.flowOutputs, Node.adjacentNodes, List.mem_eraseDups, List.mem_flatMap, List.mem_map] at hx
  obtain ⟨out, hout, r, hr, rfl⟩ := hx
  obtain ⟨hout, hflags⟩ := List.mem_filter.1 hout
  obtain ⟨i, hi⟩ := List.getElem?_of_mem hout
  have htraits : out.kind = .flow ∧ out.isPrimary = true := by
    simpa [Slot.hasFlags, SlotFlags.contains, Slot.flags, SlotFlags.flowOut] using hflags
  exact hw.hasFlowIn ⟨⟨id, ⟨i⟩⟩, out, Option.bind_eq_some_iff.2 ⟨n, hn, hi⟩, htraits.1, htraits.2, r, hr, rfl⟩

theorem threadFrom_hasFlowIn {leaves : ScopeId → Except Fault (List NodeId)} {k : Nat} {before : List NodeId}
    {thread : Thread} (hw : LinksMatch g) (h : g.threadFrom leaves s k before id = .ok thread) (hid : g.HasFlowIn id) :
    ∀ x ∈ thread.path, g.HasFlowIn x := by
  induction k generalizing before id thread with
  | zero => cases h
  | succ k ih =>
    obtain ⟨n, inner, after, hn, -, hafter, h⟩ := threadFrom_eq_ok_iff.1 h
    obtain ⟨found, hfound, h⟩ := bind_eq_ok.1 h
    cases found with
    | none =>
      cases h
      exact List.forall_mem_singleton.2 hid
    | some next =>
      obtain ⟨rest, hrest, h⟩ := bind_eq_ok.1 h
      cases h
      refine List.forall_mem_cons.2 ⟨hid, ih hrest ?_⟩
      rcases List.mem_append.1 (of_findM?_eq_some hfound).1 with hnext | hnext
      · exact hasFlowIn_of_flowOutputs hw hn hnext
      · obtain ⟨outputs, houtputs, hnext⟩ := List.mem_flatten.1 hnext
        obtain ⟨leaf, -, hleaf⟩ := of_mem_mapM hafter houtputs
        simp only [bind_eq_ok, node_eq_ok_iff, pure_eq_ok] at hleaf
        obtain ⟨m, hm, rfl⟩ := hleaf
        exact hasFlowIn_of_flowOutputs hw hm hnext

/-- Control can come to whatever is on a backbone. -/
theorem HeadsHaveFlowIn.backbone (h : HeadsHaveFlowIn g) (hw : LinksMatch g) {path : List NodeId}
    (hpath : g.backbone s = .ok path) :
    ∀ x ∈ path, g.HasFlowIn x := by
  rcases of_backbone hpath with rfl | ⟨sc, head, thread, hsc, hhead, hthread, rfl⟩
  · exact nofun
  · exact threadFrom_hasFlowIn hw hthread (h s head (Option.bind_eq_some_iff.2 ⟨sc, hsc, hhead⟩))

end FlowGraph.Graph
