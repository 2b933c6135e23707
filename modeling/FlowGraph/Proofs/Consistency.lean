import FlowGraph.Proofs.Ascent
import FlowGraph.Proofs.Edits

/-!
# Consistent membership

Nodes and scopes agree about who is where, and scopes nest. Edits that remove nothing keep that, with one
exception: a conditional goes into whatever scope has the handle that it is given, and that can be one of the
scopes it brings along.
-/

namespace FlowGraph.Graph

inductive ParentsEnd (g : Graph) : ScopeId → Prop
  | top {s : ScopeId} : g.parentScope? s = .ok none → ParentsEnd g s
  | up {s t : ScopeId} : g.parentScope? s = .ok (some t) → ParentsEnd g t → ParentsEnd g s

structure Consistent (g : Graph) : Prop where
  placed {id : NodeId} {n : Node} {s : ScopeId} : g.node id = .ok n → n.scope = some s →
    ∃ sc, g.scope s = .ok sc ∧ sc.children.count id = 1
  child {s : ScopeId} {sc : Scope} {c : NodeId} : g.scope s = .ok sc → c ∈ sc.children →
    ∃ n, g.node c = .ok n ∧ n.scope = some s
  declared {s : ScopeId} {sc : Scope} {v : NodeId} : g.scope s = .ok sc → v ∈ sc.declared →
    v ∈ sc.children ∧ ∃ n, g.node v = .ok n ∧ n.isVariable = true
  declared_nodup {s : ScopeId} {sc : Scope} : g.scope s = .ok sc → sc.declared.Nodup
  names {s : ScopeId} {sc : Scope} {v w : NodeId} {n m : Node} : g.scope s = .ok sc → v ∈ sc.declared →
    w ∈ sc.declared → g.node v = .ok n → g.node w = .ok m → n.name = m.name → v = w
  head {s : ScopeId} {sc : Scope} {id : NodeId} : g.scope s = .ok sc → sc.head = some id → id ∈ sc.children
  parentsEnd {s : ScopeId} {sc : Scope} : g.scope s = .ok sc → ParentsEnd g s

variable {g g' : Graph} {id : NodeId} {s : ScopeId} {n : Node}

theorem parentsEnd_iff : ParentsEnd g s ↔ OwnersOnPath g (fun _ => True) s := by
  constructor
  · intro h
    induction h with
    | top hparent =>
      obtain ⟨sc, hsc, ⟨t, i, hkind, ⟨⟩⟩ | ⟨hkind, n, hn, hnone⟩⟩ := parentScope?_eq_ok_iff.1 hparent
      exact .out hsc hkind hn trivial hnone.symm
    | up hparent _ ih =>
      obtain ⟨sc, hsc, ⟨t, i, hkind, ⟨⟩⟩ | ⟨hkind, n, hn, ht⟩⟩ := parentScope?_eq_ok_iff.1 hparent
      · exact .part hsc hkind ih
      · exact .through hsc hkind hn trivial ht.symm ih
  · intro h
    induction h with
    | part hsc hkind _ ih => exact .up (parentScope?_eq_ok_iff.2 ⟨_, hsc, .inl ⟨_, _, hkind, rfl⟩⟩) ih
    | out hsc hkind hn _ hnone => exact .top (parentScope?_eq_ok_iff.2 ⟨_, hsc, .inr ⟨hkind, _, hn, hnone.symm⟩⟩)
    | through hsc hkind hn _ ht _ ih =>
      exact .up (parentScope?_eq_ok_iff.2 ⟨_, hsc, .inr ⟨hkind, _, hn, ht.symm⟩⟩) ih

theorem consistent_iff : Consistent g ↔ ScopesMatchNodes g ∧ ScopePathsEnd g := by
  constructor
  · intro h
    refine ⟨⟨?_, ?_⟩, ⟨?_, ?_⟩⟩
    · intro s sc hsc
      have hsc' := scope_eq_ok_iff.2 hsc
      refine ⟨?_, ?_, ?_, h.declared_nodup hsc', ?_, fun id hid => h.head hsc' hid⟩
      · intro c hc
        obtain ⟨n, hn, hs⟩ := h.child hsc' hc
        exact ⟨n, node_eq_ok_iff.1 hn, hs⟩
      · rw [List.nodup_iff_count_le_one]
        intro c
        by_cases hc : c ∈ sc.children
        · obtain ⟨n, hn, hs⟩ := h.child hsc' hc
          obtain ⟨sc₁, hsc₁, hcount⟩ := h.placed hn hs
          obtain rfl := Option.some.inj (hsc.symm.trans (scope_eq_ok_iff.1 hsc₁))
          exact Nat.le_of_eq hcount
        · rw [List.count_eq_zero_of_not_mem hc]
          exact Nat.zero_le 1
      · intro v hv
        obtain ⟨hchild, n, hn, hvar⟩ := h.declared hsc' hv
        refine ⟨hchild, fun n' hn' => ?_⟩
        obtain rfl := Option.some.inj ((node_eq_ok_iff.1 hn).symm.trans hn')
        exact hvar
      · intro v hv w hw n m hn hm
        exact h.names hsc' hv hw (node_eq_ok_iff.2 hn) (node_eq_ok_iff.2 hm)
    · intro id n s sc hn hs hsc
      obtain ⟨sc₁, hsc₁, hcount⟩ := h.placed (node_eq_ok_iff.2 hn) hs
      obtain rfl := Option.some.inj (hsc.symm.trans (scope_eq_ok_iff.1 hsc₁))
      exact List.count_pos_iff.1 (by omega)
    · intro id n s hn hs
      obtain ⟨sc, hsc, -⟩ := h.placed (node_eq_ok_iff.2 hn) hs
      exact ⟨sc, scope_eq_ok_iff.1 hsc⟩
    · intro s sc hsc
      exact parentsEnd_iff.1 (h.parentsEnd (scope_eq_ok_iff.2 hsc))
  · rintro ⟨hscopesMatchNodes, hscopePathsEnd⟩
    refine ⟨?_, ?_, ?_, ?_, ?_, ?_, ?_⟩ <;> simp only [node_eq_ok_iff, scope_eq_ok_iff]
    · intro id n s hn hs
      obtain ⟨sc, hsc⟩ := hscopePathsEnd.home hn hs
      exact ⟨sc, hsc, List.count_eq_one_of_mem (hscopesMatchNodes.scopeMatchesNodes hsc).children_nodup
        (hscopesMatchNodes.listed hn hs hsc)⟩
    · intro s sc c hsc hc
      exact (hscopesMatchNodes.scopeMatchesNodes hsc).child c hc
    · intro s sc v hsc hv
      obtain ⟨hchild, hvar⟩ := (hscopesMatchNodes.scopeMatchesNodes hsc).declared v hv
      obtain ⟨n, hn, -⟩ := (hscopesMatchNodes.scopeMatchesNodes hsc).child v hchild
      exact ⟨hchild, n, hn, hvar n hn⟩
    · intro s sc hsc
      exact (hscopesMatchNodes.scopeMatchesNodes hsc).declared_nodup
    · intro s sc v w n m hsc hv hw hn hm
      exact (hscopesMatchNodes.scopeMatchesNodes hsc).names v hv w hw n m hn hm
    · intro s sc id hsc hid
      exact (hscopesMatchNodes.scopeMatchesNodes hsc).head id hid
    · intro s sc hsc
      exact parentsEnd_iff.2 (hscopePathsEnd.ownersOnPath hsc)

theorem Consistent.changes (h : Consistent g) (hchanges : Changes clear g g') : Consistent g' := by
  rw [consistent_iff] at h ⊢
  exact ⟨h.1.changes hchanges, h.2.changes hchanges⟩

section Sprouting

variable {ps : List ScopeId} (h : ScopePathsEnd g) (hs : AddsNode g id n ps g')

include hs

theorem AddsNode.scope_of {t : ScopeId} {sc : Scope} (hsc : g.scopeAt? t = some sc) : g'.scopeAt? t = some sc := by
  have hnew (hin : n.internalScope = some t ∨ t ∈ ps) : False := by
    cases (hs.fresh_scope t hin).1.symm.trans hsc
  rw [hs.others t (fun hi => hnew (.inl hi)) fun hp => hnew (.inr hp), hsc]

theorem OwnersOnPath.addsNode {p : NodeId → Prop} {t : ScopeId} (hownersOnPath : OwnersOnPath g p t) :
    OwnersOnPath g' (· ≠ id) t := by
  refine hownersOnPath.transport (fun t sc hsc => ⟨sc, hs.scope_of hsc, rfl⟩) fun x m hm _ => ?_
  have hx : x ≠ id := by
    rintro rfl
    cases hs.fresh.symm.trans hm
  exact ⟨hx, m, by rw [hs.nodeAt?, if_neg hx, hm], .inl rfl⟩

include h

theorem ScopePathsEnd.addsNode (hnone : n.scope = none) : ScopePathsEnd g' := by
  have hself : g'.nodeAt? id = some n := by rw [hs.nodeAt?, if_pos rfl]
  refine ⟨?_, ?_⟩
  · intro x m t hm ht
    rw [hs.nodeAt?] at hm
    split at hm
    next =>
      cases hm
      cases hnone.symm.trans ht
    next =>
      obtain ⟨sc, hsc⟩ := h.home hm ht
      exact ⟨sc, hs.scope_of hsc⟩
  · intro t sc hsc
    have hinternal {i : ScopeId} (hi : n.internalScope = some i) : OwnersOnPath g' (fun _ => True) i :=
      .out (hs.internal i hi) rfl hself trivial hnone
    by_cases ht : n.internalScope = some t
    · exact hinternal ht
    by_cases hpartition : t ∈ ps
    · obtain ⟨j, hj⟩ := List.getElem?_of_mem hpartition
      cases hblock : n.internalScope with
      | none =>
        rw [hs.unsplit hblock] at hpartition
        cases hpartition
      | some i => exact .part (hs.partition i hblock j t hj) rfl (hinternal hblock)
    rw [hs.others t ht hpartition] at hsc
    exact ((h.ownersOnPath hsc).addsNode hs).mono fun _ _ => trivial

end Sprouting

theorem Consistent.addsNode {ps : List ScopeId} (h : Consistent g) (hs : AddsNode g id n ps g')
    (hnone : n.scope = none) : Consistent g' := by
  rw [consistent_iff] at h ⊢
  obtain ⟨hscopesMatch, hscopePathsEnd⟩ := h
  refine ⟨hscopesMatch.addsNode hs hnone fun x m t hm ht => ?_, hscopePathsEnd.addsNode hs hnone⟩
  obtain ⟨sc, hsc⟩ := hscopePathsEnd.home hm ht
  have hnew (hin : n.internalScope = some t ∨ t ∈ ps) : False := by
    cases (hs.fresh_scope t hin).1.symm.trans hsc
  exact ⟨fun hi => hnew (.inl hi), fun hp => hnew (.inr hp)⟩

theorem insertIntoScope_live (h : g.insertIntoScope id s = .ok g') : ∃ sc, g.scopeAt? s = some sc := by
  simp only [insertIntoScope, depthBound, insertWithin, bind_eq_ok] at h
  obtain ⟨entered, hentered, -⟩ := h
  exact (enter_eq hentered).2

theorem nodeAt?_enter (h : g.enter id s = .ok g') (x : NodeId) : g'.nodeAt? x = (g.place id s).nodeAt? x :=
  (enter_eq h).1.nodeAt? x

theorem companions_of_unlinked (hn : g.nodeAt? id = some n) (hslots : ∀ slot ∈ n.slots, slot.adjacent = []) :
    g.companions id = .ok [] := by
  have hinputs : n.inputs = [] := by
    have : (n.filterSlots .input).flatMap (fun slot => slot.adjacent.map (·.node)) = [] := by
      rw [List.flatMap_eq_nil_iff]
      intro slot hslot
      rw [hslots slot (List.mem_filter.1 hslot).1, List.map_nil]
    rw [Node.inputs, Node.adjacentNodes, this]
    rfl
  have hsuccessor : n.successor? = none := by
    rw [Node.successor?, Option.map_eq_none_iff, Option.bind_eq_none_iff]
    intro slot hslot
    have hmem := (List.mem_filter.1 (List.mem_of_find?_eq_some hslot)).1
    rw [Slot.first?, hslots slot hmem, List.head?_nil]
  rw [companions, node_eq_ok_iff.2 hn]
  show (do
    let feeding ← n.inputs.filterM fun i => do return !(← g.node i).isVariable
    return n.successor?.toList ++ feeding) = _
  rw [hinputs, hsuccessor]
  rfl

theorem enter_of_unlinked (h : g.insertIntoScope id s = .ok g') (hn : g.nodeAt? id = some n)
    (hslots : ∀ slot ∈ n.slots, slot.adjacent = []) : g.enter id s = .ok g' := by
  simp only [insertIntoScope, depthBound, insertWithin, bind_eq_ok] at h
  obtain ⟨entered, hentered, next, hnext, h⟩ := h
  have hn' : entered.nodeAt? id = some { n with scope := some s } :=
    (nodeAt?_enter hentered id).trans (nodeAt?_place_self hn)
  rw [companions_of_unlinked hn' hslots] at hnext
  cases hnext
  cases h
  exact hentered

variable {build : NodeId → Node} {partitions : Option Nat}

theorem spawn_others (hbuildsUnlinked : BuildsUnlinked g.config.fanIn build)
    (hspawn : g.spawn build partitions (some s) = .ok (id, g')) :
    g.nodeAt? id = none ∧ g'.root = g.root ∧ ∀ x, x ≠ id → g'.nodeAt? x = g.nodeAt? x := by
  obtain ⟨n, ps, g₁, hnew, -, ⟨⟨⟩, -⟩ | ⟨_, ⟨⟩, hplaced⟩⟩ := spawn_addsUnplaced hbuildsUnlinked hspawn
  have hentered := enter_of_unlinked hplaced hnew.live fun slot hslot => (hnew.unused slot hslot).adjacent
  have hmoves : Moves always g₁ g' := enter_moves hentered hnew.live hnew.unscoped trivial
  refine ⟨hnew.fresh, hmoves.changes.allKept.root.trans hnew.root, fun x hx => ?_⟩
  rw [nodeAt?_enter hentered, nodeAt?_place, if_neg hx, hnew.nodeAt?, if_neg hx]

/-- A new node may enter any scope that was there before it. -/
theorem Consistent.spawn (h : Consistent g) (hbuildsUnlinked : BuildsUnlinked g.config.fanIn build)
    (hspawn : g.spawn build partitions (some s) = .ok (id, g')) {sc : Scope} (hsc : g.scope s = .ok sc) :
    Consistent g' := by
  obtain ⟨n, ps, g₁, hnew, -, ⟨⟨⟩, -⟩ | ⟨_, ⟨⟩, hplaced⟩⟩ := spawn_addsUnplaced hbuildsUnlinked hspawn
  have hclear : clear g₁ id s := (parentsEnd_iff.1 (h.parentsEnd hsc)).addsNode hnew.toAddsNode
  exact (h.addsNode hnew.toAddsNode hnew.unscoped).changes
    (insertIntoScope_moves (guards_clear _) hplaced hnew.live hnew.unscoped hclear).changes

theorem live_of_spawn (hbuildsUnlinked : BuildsUnlinked g.config.fanIn build)
    (hspawn : g.spawn build none (some s) = .ok (id, g')) : ∃ sc, g.scope s = .ok sc := by
  obtain ⟨n, ps, g₁, hnew, hplain, ⟨⟨⟩, -⟩ | ⟨_, ⟨⟩, hplaced⟩⟩ := spawn_addsUnplaced hbuildsUnlinked hspawn
  obtain ⟨sc, hsc⟩ := insertIntoScope_live hplaced
  have hinternal := Option.map_eq_none_iff.1 hplain.symm
  refine ⟨sc, scope_eq_ok_iff.2 ?_⟩
  rw [← hnew.others s, hsc]
  · rw [hinternal]
    exact nofun
  · rw [hnew.unsplit hinternal]
    exact List.not_mem_nil

/-- A node that is created in a scope that was not there is in one of its own. -/
theorem not_consistent_of_spawn (hbuildsUnlinked : BuildsUnlinked g.config.fanIn build)
    (hspawn : g.spawn build partitions (some s) = .ok (id, g')) (hdead : ∀ sc, g.scope s ≠ .ok sc) :
    ¬Consistent g' := by
  obtain ⟨n, ps, g₁, hnew, -, ⟨⟨⟩, -⟩ | ⟨_, ⟨⟩, hplaced⟩⟩ := spawn_addsUnplaced hbuildsUnlinked hspawn
  have hs := hnew.toAddsNode
  obtain ⟨sc₁, hsc₁⟩ := insertIntoScope_live hplaced
  have hentered := enter_of_unlinked hplaced hnew.live fun slot hslot => (hnew.unused slot hslot).adjacent
  have hmoves : Moves always g₁ g' := enter_moves hentered hnew.live hnew.unscoped trivial
  have hallKept := hmoves.changes.allKept
  have hself' : g'.nodeAt? id = some { n with scope := some s } :=
    (nodeAt?_enter hentered id).trans (nodeAt?_place_self hnew.live)
  let T (t : ScopeId) : Prop := n.internalScope = some t ∨ t ∈ ps
  have hT : T s := by
    by_contra hout
    obtain ⟨hinternal, hpartition⟩ := not_or.1 hout
    rw [hs.others s hinternal hpartition] at hsc₁
    exact hdead sc₁ (scope_eq_ok_iff.2 hsc₁)
  have hclosed (t : ScopeId) (ht : T t) : ∃ sc, g'.scopeAt? t = some sc ∧
      ((∃ t' i, sc.kind = .partition t' i ∧ T t') ∨
        sc.kind = .internal ∧ ∃ m t', g'.nodeAt? sc.owner = some m ∧ m.scope = some t' ∧ T t') := by
    rcases ht with ht | ht
    · obtain ⟨sc, hsc, hskeleton⟩ := hallKept.scope_of (hs.internal t ht)
      obtain ⟨howner, hkind, -⟩ := Scope.of_skeleton hskeleton
      have howns : g'.nodeAt? sc.owner = some { n with scope := some s } := by
        rw [howner]
        exact hself'
      exact ⟨sc, hsc, .inr ⟨hkind, _, s, howns, rfl, hT⟩⟩
    · obtain ⟨j, hj⟩ := List.getElem?_of_mem ht
      cases hblock : n.internalScope with
      | none =>
        rw [hs.unsplit hblock] at ht
        cases ht
      | some i =>
        obtain ⟨sc, hsc, hskeleton⟩ := hallKept.scope_of (hs.partition i hblock j t hj)
        obtain ⟨-, hkind, -⟩ := Scope.of_skeleton hskeleton
        exact ⟨sc, hsc, .inl ⟨i, j, hkind, .inl hblock⟩⟩
  intro h
  obtain ⟨sc, hsc, -⟩ := hallKept.scope_of hsc₁
  exact OwnersOnPath.false_of_closed hclosed (parentsEnd_iff.1 (h.parentsEnd (scope_eq_ok_iff.2 hsc))) hT

theorem destroy_scopeless (h : g.destroy id false = .ok g') (hn : g.nodeAt? id = some n)
    (hinternal : n.internalScope = none) : id = g.root ∧ g' = g ∨ g.remove id [] = .ok g' := by
  obtain ⟨k, h⟩ := destroyWithin_of_destroy h
  obtain ⟨hroot | hgone, rfl⟩ | ⟨n', inner, -, -, hinner, hstages⟩ := destroyWithin_eq h
  · exact .inl ⟨hroot, rfl⟩
  · cases hn.symm.trans hgone
  obtain rfl : inner = [] := (innerScopes_eq_nil_iff hinner hn).2 hinternal
  cases hstages with
  | plain _ hremove => exact .inr hremove
  | raw _ hrescue hremove =>
    cases hrescue
    exact .inr hremove

theorem Consistent.remove (h : Consistent g) (hid : OwnsNoScope g id) (hremove : g.remove id [] = .ok g') :
    Consistent g' := by
  obtain ⟨unlinked, left, s, n, hunlinked, hexits, hn, hnone, hremovesNode⟩ := remove_eq hremove
  have hchanges : Changes clear g left := (dropLinks_changes hunlinked).trans hexits.moves.of_never.changes
  have hleft := consistent_iff.1 (h.changes hchanges)
  exact consistent_iff.2 ⟨hleft.1.removesNode hremovesNode hn hnone,
    hleft.2.removesNode hremovesNode (hid.allKept hchanges.allKept)⟩

theorem spawn_ownsNoScope (h : Consistent g) (hbuildsUnlinked : BuildsUnlinked g.config.fanIn build)
    (hspawn : g.spawn build none (some s) = .ok (id, g')) :
    OwnsNoScope g' id ∧ ∃ n, g'.nodeAt? id = some n ∧ n.internalScope = none := by
  obtain ⟨n, ps, g₁, hnew, hplain, heditMoves⟩ := spawn_editMoves hbuildsUnlinked hspawn
  have hallKept := heditMoves.moves.changes.allKept
  have hinternal := Option.map_eq_none_iff.1 hplain.symm
  obtain ⟨n', hn', hskeleton⟩ := hallKept.node_of hnew.live
  refine ⟨OwnsNoScope.allKept ?_ hallKept, n', hn', (Node.of_skeleton hskeleton).2.2.trans hinternal⟩
  rintro t sc hsc hkind rfl
  rw [hnew.others t (hinternal ▸ nofun) (hnew.unsplit hinternal ▸ List.not_mem_nil)] at hsc
  obtain ⟨m, hm⟩ := (parentsEnd_iff.1 (h.parentsEnd (scope_eq_ok_iff.2 hsc))).owner_live hsc hkind
  cases hnew.fresh.symm.trans hm

theorem Consistent.unspawn {g₁ : Graph} (h : Consistent g) (hbuildsUnlinked : BuildsUnlinked g.config.fanIn build)
    (hspawn : g.spawn build none (some s) = .ok (id, g₁)) (hdestroy : g₁.destroy id false = .ok g') :
    Consistent g' := by
  obtain ⟨sc, hsc⟩ := live_of_spawn hbuildsUnlinked hspawn
  have h₁ := h.spawn hbuildsUnlinked hspawn hsc
  obtain ⟨hownsNoScope, n, hn, hinternal⟩ := spawn_ownsNoScope h hbuildsUnlinked hspawn
  rcases destroy_scopeless hdestroy hn hinternal with ⟨-, rfl⟩ | hremove
  · exact h₁
  · exact h₁.remove hownsNoScope hremove

theorem Consistent.sameFrames (h : Consistent g) (hsameFrames : SameFrames g g') : Consistent g' := by
  rw [consistent_iff] at h ⊢
  exact ⟨h.1.sameFrames hsameFrames, h.2.sameFrames hsameFrames⟩

/-- The scope that a conditional is created in is there. -/
def BlockScopeLive (g : Graph) (e : Edit) : Prop := ∀ s, e.block? = some s → ∃ sc, g.scope s = .ok sc

theorem Consistent.perform {e : Edit} (h : Consistent g) (hdestroys : e.destroys = false)
    (hblockScopeLive : g.BlockScopeLive e) (hperform : g.perform e = .ok g') : Consistent g' := by
  cases perform_effect guards_clear hperform with
  | changes _ hchanges => exact h.changes hchanges
  | create _ hbuildsUnlinked hspawn hchanges =>
    obtain ⟨sc, hsc⟩ := live_of_spawn hbuildsUnlinked hspawn
    exact (h.spawn hbuildsUnlinked hspawn hsc).changes hchanges
  | block hblock hbuildsUnlinked hspawn =>
    obtain ⟨sc, hsc⟩ := hblockScopeLive _ hblock
    exact h.spawn hbuildsUnlinked hspawn hsc
  | undo hbuildsUnlinked hspawn hdestroy => exact h.unspawn hbuildsUnlinked hspawn hdestroy
  | destroy hdestroy => cases hdestroys.symm.trans hdestroy
  | reset => cases hdestroys
  | drain => exact h.sameFrames ⟨fun _ => rfl, fun _ => rfl⟩

/-- Edits that destroy nothing keep a graph consistent, as long as conditionals are created in scopes that are
there. Otherwise they do not. -/
theorem consistent_perform_iff {e : Edit} (h : Consistent g) (hdestroys : e.destroys = false)
    (hperform : g.perform e = .ok g') : Consistent g' ↔ g.BlockScopeLive e := by
  refine ⟨fun h' s hs => ?_, fun hblockScopeLive => h.perform hdestroys hblockScopeLive hperform⟩
  by_contra hdead
  cases perform_effect guards_clear hperform with
  | block hblock hbuildsUnlinked hspawn =>
    obtain rfl := Option.some.inj (hblock.symm.trans hs)
    exact not_consistent_of_spawn hbuildsUnlinked hspawn (fun sc hsc => hdead ⟨sc, hsc⟩) h'
  | changes hblock => cases hblock.symm.trans hs
  | create hblock => cases hblock.symm.trans hs
  | destroy hdestroy => cases hdestroys.symm.trans hdestroy
  | undo | reset | drain => cases hs

theorem consistent_of_empty (hnodes : ∀ x, g.nodeAt? x = none) (hscopes : ∀ t, g.scopeAt? t = none) :
    Consistent g := by
  refine consistent_iff.2 ⟨⟨?_, ?_⟩, ⟨?_, ?_⟩⟩ <;> simp [hnodes, hscopes]

theorem consistent_create {ids : IdSupply} {library : Library} {config : Config}
    (h : create {} ids library config = .ok g) : Consistent g := by
  unfold create at h
  split at h
  next => cases h
  next =>
    simp only [spawnEntryPoint, bind_eq_ok, pure_eq_ok] at h
    obtain ⟨⟨id, g₁⟩, hspawn, rfl⟩ := h
    have hempty : Consistent { arena := {}, ids, library, config } := by
      refine consistent_of_empty ?_ ?_
      · exact fun x => Arena.item?_eq_none_of_fresh Std.ExtTreeMap.not_mem_empty
      · exact fun t => Arena.item?_eq_none_of_fresh Std.ExtTreeMap.not_mem_empty
    obtain ⟨n, ps, g₂, hnew, -, ⟨-, rfl⟩ | ⟨_, ⟨⟩, -⟩⟩ := spawn_addsUnplaced (Node.buildsUnlinked_entryPoint _) hspawn
    exact (hempty.addsNode hnew.toAddsNode hnew.unscoped).sameFrames ⟨fun _ => rfl, fun _ => rfl⟩

def ConsistentEdit (g g' : Graph) : Prop := ∃ e : Edit, e.destroys = false ∧ g.BlockScopeLive e ∧ g.perform e = .ok g'

theorem Consistent.edits (h : Consistent g) (hedits : Relation.ReflTransGen ConsistentEdit g g') :
    Consistent g' := by
  induction hedits with
  | refl => exact h
  | tail _ hstep ih =>
    obtain ⟨e, hdestroys, hlive, hperform⟩ := hstep
    exact ih.perform hdestroys hlive hperform

theorem consistent_ifElse_in_root : ∃ g s g', create {} {} default {} = .ok g ∧ g.rootScope = .ok s ∧
    g.perform (.conditional .ifElse s) = .ok g' ∧ Consistent g' := by
  obtain ⟨g', h⟩ := exists_of_isOk (x := do
    let g ← create {} {} default {}
    let s ← g.rootScope
    let _ ← g.scope s
    g.perform (.conditional .ifElse s)) (by decide +kernel)
  simp only [bind_eq_ok] at h
  obtain ⟨g, hcreate, s, hs, sc, hsc, hperform⟩ := h
  refine ⟨g, s, g', hcreate, hs, hperform, (consistent_perform_iff (consistent_create hcreate) rfl hperform).2 ?_⟩
  rintro _ ⟨⟩
  exact ⟨sc, hsc⟩

/-- The conditional is node 3, and 4 is its internal scope. -/
theorem not_consistent_ifElse_in_itself : ∃ g g', create {} {} default {} = .ok g ∧ Consistent g ∧
    g.perform (.conditional .ifElse ⟨4⟩) = .ok g' ∧ ¬Consistent g' := by
  obtain ⟨g', h⟩ := exists_of_isOk (x := do
    let g ← create {} {} default {}
    if (g.scope ⟨4⟩).isOk then throw .endless
    g.perform (.conditional .ifElse ⟨4⟩)) (by decide +kernel)
  obtain ⟨g, hcreate, h⟩ := bind_eq_ok.1 h
  split at h
  next => cases h
  next hdead =>
    have hperform : g.perform (.conditional .ifElse ⟨4⟩) = .ok g' := h
    obtain ⟨⟨id, g₁⟩, hspawn, ⟨⟩⟩ := bind_eq_ok.1 hperform
    refine ⟨g, g₁, hcreate, consistent_create hcreate, hperform, ?_⟩
    refine not_consistent_of_spawn (Node.buildsUnlinked_conditional _ .ifElse) hspawn fun sc hsc => hdead ?_
    rw [hsc]
    rfl

end FlowGraph.Graph
