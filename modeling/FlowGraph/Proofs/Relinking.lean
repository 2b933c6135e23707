import FlowGraph.Proofs.Rescue

/-!
# Linking around a node

The two neighbours of a node that has gone are linked, and the second one moves to where it belongs from now on. What is
read on the way there is in the graph, so linking around a node terminates.
-/

namespace FlowGraph.Graph

variable {g g' : Graph} {well : Prop} {x : NodeId} {s t : ScopeId} {r : SlotRef} {n : Node} {k : Nat}

theorem terminates_slot? (hr : well → ∃ n, g.nodeAt? r.node = some n) : Terminates well (g.slot? r) :=
  .bind (terminates_node? hr) fun _ _ => .pure _

theorem terminates_isBranchSlot (hr : well → ∃ n, g.nodeAt? r.node = some n) : Terminates well (g.isBranchSlot r) :=
  .bind (terminates_slot? hr) fun _ _ => .pure _

theorem terminates_lookupSlot (hr : well → ∃ n, g.nodeAt? r.node = some n) : Terminates well (g.lookupSlot r) := by
  refine .bind (terminates_node? hr) fun found _ => ?_
  cases found with
  | none => exact .pure _
  | some n =>
    simp only
    split
    next => exact .pure _
    next => exact .pure _

theorem terminates_validateLink {a b : SlotRef} (ha : well → ∃ n, g.nodeAt? a.node = some n)
    (hb : well → ∃ n, g.nodeAt? b.node = some n) : Terminates well (g.validateLink a b) := by
  refine .bind (terminates_lookupSlot ha) fun slotA _ => ?_
  cases slotA with
  | error e => exact .pure _
  | ok slotA =>
    refine .bind (terminates_lookupSlot hb) fun slotB _ => ?_
    cases slotB with
    | error e => exact .pure _
    | ok slotB => exact .pure _

structure FindsLiveScope (well : Prop) (g : Graph) (x : Except Fault (Option ScopeId)) : Prop where
  terminates : Terminates well x
  live {s : ScopeId} : x = .ok (some s) → well → ∃ sc, g.scopeAt? s = some sc

namespace FindsLiveScope

theorem none : FindsLiveScope well g (pure .none) := ⟨.pure _, by rintro s ⟨⟩⟩

theorem some (hs : well → ∃ sc, g.scopeAt? s = .some sc) : FindsLiveScope well g (pure (.some s)) := by
  refine ⟨.pure _, ?_⟩
  rintro _ ⟨⟩
  exact hs

theorem bind {α : Type} {y : Except Fault α} {f : α → Except Fault (Option ScopeId)} (hy : Terminates well y)
    (hf : ∀ a, y = .ok a → FindsLiveScope well g (f a)) : FindsLiveScope well g (y >>= f) := by
  refine ⟨.bind hy fun a ha => (hf a ha).terminates, fun hfound => ?_⟩
  obtain ⟨a, ha, hfound⟩ := bind_eq_ok.1 hfound
  exact (hf a ha).live hfound

end FindsLiveScope

theorem mem_commonPrefix {α : Type} [DecidableEq α] {as bs : List α} {a : α} (h : a ∈ commonPrefix as bs) : a ∈ as := by
  induction as generalizing bs with
  | nil => cases bs <;> exact h
  | cons c as ih =>
    cases bs with
    | nil => cases h
    | cons b bs =>
      rw [commonPrefix] at h
      split at h
      next =>
        rcases List.mem_cons.1 h with rfl | h
        · exact List.mem_cons_self
        · exact List.mem_cons_of_mem _ (ih h)
      next => cases h

namespace EditInvariant

theorem findsLiveScope_parentScope? (h : EditInvariant well g) (hs : well → ∃ sc, g.scopeAt? s = some sc) :
    FindsLiveScope well g (g.parentScope? s) :=
  ⟨h.parentScope? hs, fun hparent hw => h.live_of_parent hw hparent⟩

theorem findsLiveScope_home (h : EditInvariant well g) (hn : g.nodeAt? x = some n) :
    FindsLiveScope well g (pure n.scope) := by
  cases hs : n.scope with
  | none => exact .none
  | some s => exact .some fun hw => h.live_of_home hw (homeAt?_eq_some_iff.2 ⟨n, hn, hs⟩)

theorem findsLiveScope_branchScope (h : EditInvariant well g) (hr : ∃ n, g.nodeAt? r.node = some n) :
    FindsLiveScope well g (g.branchScope r) := by
  obtain ⟨n, hn⟩ := hr
  refine ⟨.bind (terminates_slot? fun _ => ⟨n, hn⟩) fun found _ => ?_, fun hfound _ => ?_⟩
  · cases found with
    | none => exact .pure _
    | some slot =>
      simp only [node_eq_ok_iff.2 hn, ok_bind]
      cases hi : n.internalScope with
      | none => exact .pure _
      | some i =>
        obtain ⟨si, hsi, -⟩ := h.wellFormed.scopesOwned.internal hn hi
        exact .bind (.of_ok (scope_eq_ok_iff.2 hsi)) fun _ _ => .pure _
  · obtain ⟨slot, m, i, si, -, hm, hi, hsi, ⟨-, rfl⟩ | hpart⟩ := branchScope_eq_some_iff.1 hfound
    · exact ⟨si, hsi⟩
    · obtain ⟨si', hsi', -, -, hparts⟩ := h.wellFormed.scopesOwned.internal hm hi
      cases hsi.symm.trans hsi'
      obtain ⟨sp, hsp, -⟩ := hparts _ _ hpart
      exact ⟨sp, hsp⟩

theorem live_of_path (h : EditInvariant well g) (hw : well) {above : List ScopeId} (hs : ∃ sc, g.scopeAt? s = some sc)
    (hpath : g.path s = .ok above) (ht : t ∈ above) : ∃ sc, g.scopeAt? t = some sc := by
  rw [Graph.path] at hpath
  generalize g.walkBound = k at hpath
  induction k generalizing s above with
  | zero => cases hpath
  | succ k ih =>
    obtain ⟨parent, hparent, hpath⟩ := bind_eq_ok.1 hpath
    cases parent with
    | none =>
      cases hpath
      rwa [List.mem_singleton.1 ht]
    | some u =>
      obtain ⟨rest, hrest, ⟨⟩⟩ := bind_eq_ok.1 hpath
      rcases List.mem_cons.1 ht with rfl | ht
      · exact hs
      · exact ih (h.live_of_parent hw hparent) ht hrest

theorem findsLiveScope_lowestCommonAncestor (h : EditInvariant well g) {ss : List ScopeId}
    (hss : well → ∀ s ∈ ss, ∃ sc, g.scopeAt? s = some sc) : FindsLiveScope well g (g.lowestCommonAncestor ss) := by
  cases ss with
  | nil => exact .none
  | cons first rest =>
    refine ⟨?_, fun hcommon hw => ?_⟩
    · refine .bind (h.path fun hw => hss hw first List.mem_cons_self) fun start _ => .bind ?_ fun _ _ => .pure _
      refine .foldlM (P := fun _ => True) trivial fun common s hs _ => ⟨?_, fun _ _ => trivial⟩
      exact .bind (h.path fun hw => hss hw s (List.mem_cons_of_mem _ hs)) fun _ _ => .pure _
    · obtain ⟨start, hstart, hcommon⟩ := bind_eq_ok.1 hcommon
      obtain ⟨shared, hshared, hcommon⟩ := bind_eq_ok.1 hcommon
      have hsub : shared ⊆ start.reverse := by
        refine foldlM_induction (P := (· ⊆ start.reverse)) hshared (List.Subset.refl _) fun l s _ l' hl hnarrow => ?_
        obtain ⟨above, -, ⟨⟩⟩ := bind_eq_ok.1 hnarrow
        exact fun t ht => hl (mem_commonPrefix ht)
      have hmem := hsub (List.mem_of_getLast? (pure_eq_ok.1 hcommon))
      exact h.live_of_path hw (hss hw first List.mem_cons_self) hstart (List.mem_reverse.1 hmem)

theorem live_of_homes (h : EditInvariant well g) {tails : List SlotRef} {ss : List ScopeId}
    (hss : tails.filterMapM (fun r => do return (← g.node r.node).scope) = .ok ss) (hw : well) (hs : s ∈ ss) :
    ∃ sc, g.scopeAt? s = some sc := by
  obtain ⟨r, -, hscope⟩ := of_mem_filterMapM hss hs
  obtain ⟨n, hn, hscope⟩ := bind_eq_ok.1 hscope
  exact h.live_of_home hw (homeAt?_eq_some_iff.2 ⟨n, node_eq_ok_iff.1 hn, pure_eq_ok.1 hscope⟩)

theorem findsLiveScope_scopeAfter (h : EditInvariant well g) (tails : List SlotRef)
    (htails : ∀ r ∈ tails, ∃ n, g.nodeAt? r.node = some n) :
    FindsLiveScope well g (g.scopeAfter tails) := by
  rcases tails with _ | ⟨a, _ | ⟨b, rest⟩⟩
  · obtain ⟨s, sc, hs, hsc⟩ := h.rootScope
    refine .bind (.of_ok hs) fun s' hs' => .some fun _ => ?_
    cases hs.symm.trans hs'
    exact ⟨sc, hsc⟩
  · obtain ⟨n, hn⟩ := htails a List.mem_cons_self
    refine .bind (terminates_isBranchSlot fun _ => ⟨n, hn⟩) fun branch _ => ?_
    cases branch with
    | true => exact h.findsLiveScope_branchScope ⟨n, hn⟩
    | false => exact .bind (.of_ok (node_eq_ok_iff.2 hn)) fun m hm => h.findsLiveScope_home (node_eq_ok_iff.1 hm)
  · refine .bind (.filterMapM fun r hr => ?_) fun ss hss => ?_
    · obtain ⟨n, hn⟩ := htails r hr
      exact .bind (.of_ok (node_eq_ok_iff.2 hn)) fun _ _ => .pure _
    have hlive (hw : well) (s : ScopeId) (hs : s ∈ ss) : ∃ sc, g.scopeAt? s = some sc := h.live_of_homes hss hw hs
    cases ss with
    | nil => exact .none
    | cons first others =>
      have hancestor := h.findsLiveScope_lowestCommonAncestor hlive
      dsimp only
      split
      next => exact .some fun hw => hlive hw first List.mem_cons_self
      next =>
        refine .bind hancestor.terminates fun common hfound => ?_
        cases common with
        | none => exact .none
        | some common =>
          have hcommon := hancestor.live hfound
          refine .bind (terminates_scope hcommon) fun sc _ => ?_
          split
          next => exact h.findsLiveScope_parentScope? hcommon
          next => exact .some hcommon

theorem resetHead (h : EditInvariant well g) (hs : well → ∃ sc, g.scopeAt? s = some sc) :
    Terminates well (g.resetHead s) := by
  refine .bind (.bind (terminates_scope hs) fun sc hsc => ?_) fun _ _ => .pure _
  split
  next => exact .pure _
  next =>
    obtain ⟨n, -, -, hn, -⟩ := h.wellFormed.scopesOwned.home (scope_eq_ok_iff.1 hsc)
    simp only [node_eq_ok_iff.2 hn, ok_bind]
    split
    next => exact .pure _
    next r hfirst =>
      obtain ⟨slot, hfind, hr⟩ := Option.bind_eq_some_iff.1 hfirst
      have hslot : slot ∈ n.slots := (List.mem_filter.1 (List.mem_of_find?_eq_some hfind)).1
      obtain ⟨m, hm⟩ := node_of_slot h.wellFormed.linksMatch hn hslot (List.mem_of_mem_head? hr)
      exact .bind (.of_ok (node_eq_ok_iff.2 hm)) fun _ _ => .pure _

theorem onFlowConnected (h : EditInvariant well g) {l : Link} (hl : l ∈ g.links l.kind) :
    Terminates well (g.onFlowConnected l) := by
  obtain ⟨-, -, t, slot, htail, hhead, -⟩ := h.wellFormed.linksMatch.joined hl
  obtain ⟨tail, htail, -⟩ := Option.bind_eq_some_iff.1 htail
  obtain ⟨head, hn, hslot⟩ := Option.bind_eq_some_iff.1 hhead
  have hpredecessors := predecessors_eq hhead
  refine .bind (.of_ok hpredecessors) fun tails htails => ?_
  obtain rfl := Except.ok.inj (hpredecessors.symm.trans htails)
  have hafter := h.findsLiveScope_scopeAfter slot.adjacent fun r hr => node_of_slot h.wellFormed.linksMatch hn
      (List.mem_of_getElem? hslot) hr
  refine .bind hafter.terminates fun target htarget => ?_
  cases target with
  | none => exact .pure _
  | some target =>
    have hthere (hw : well) : ∃ found, g.scope? target = .ok found := by
      obtain ⟨sc, hsc⟩ := hafter.live htarget hw
      exact ⟨some sc, scope?_eq_some_iff.2 hsc⟩
    refine .bind (h.changeScope hn hthere) fun moved hmoved => ?_
    obtain ⟨g₁, r⟩ := moved
    cases r with
    | error e => exact .pure _
    | ok _ =>
      have hmoves := changeScope_moves (guards_clear target) hmoved
      have hallKept := hmoves.changes.allKept
      simp only
      split
      next =>
        obtain ⟨tail₁, htail₁, -⟩ := hallKept.node_of htail
        refine .bind (terminates_isBranchSlot fun _ => ⟨tail₁, htail₁⟩) fun branch _ => ?_
        cases branch with
        | false => exact .pure _
        | true =>
          refine (h.moves hmoves).resetHead fun hw => ?_
          obtain ⟨sc, hsc⟩ := hafter.live htarget hw
          obtain ⟨sc₁, hsc₁, -⟩ := hallKept.scope_of hsc
          exact ⟨sc₁, hsc₁⟩
      next => exact .pure _

theorem relink (h : EditInvariant well g) {slots : Option (SlotRef × SlotRef)} (hbypassFlows : g.BypassFlows slots) :
    Terminates well (g.relink slots) := by
  rcases slots with _ | ⟨a, b⟩
  · exact .pure _
  rw [Graph.relink]
  split
  next hboth =>
    obtain ⟨ha, hb⟩ := Bool.and_eq_true_iff.1 hboth
    have hlive {x : NodeId} (hx : g.contains x = true) : ∃ n, g.nodeAt? x = some n :=
      Option.isSome_iff_exists.1 (contains_iff.1 hx)
    refine .bind (.bind (terminates_validateLink (fun _ => hlive ha) fun _ => hlive hb) fun result hresult => ?_)
      fun _ _ => .pure _
    cases result with
    | error e => exact .pure _
    | ok l =>
      have hkind : l.kind = .flow := by
        obtain ⟨slot, -, hslot, -, -, rfl⟩ := validateLink_eq_ok_iff.1 hresult
        exact (slot.kind_linkTo a b).trans (hbypassFlows a b rfl slot hslot).1
      have hlinked : EditInvariant well (g.addLink l) := h.changes (.single (.link hresult))
      simp only [hkind]
      exact .bind (hlinked.onFlowConnected (mem_addLink l)) fun _ _ => .pure _
  next => exact .pure _

end EditInvariant

end FlowGraph.Graph
