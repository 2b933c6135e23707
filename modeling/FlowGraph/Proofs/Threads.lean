import FlowGraph.Graph.Backbone
import FlowGraph.Proofs.Descent

/-!
# Backbones that end

A thread visits no node twice, and the walk to the leaves of a scope goes down from scope to scope. Both end where
there are only so many scopes around.
-/

namespace FlowGraph.Graph

variable {g : Graph} {id : NodeId} {s t : ScopeId} {sc : Scope} {n : Node}

def AllLive (g : Graph) (ids : List NodeId) : Prop := ∀ x ∈ ids, ∃ m, g.nodeAt? x = some m

theorem node_of_slot {slot : Slot} {r : SlotRef} (hw : LinksMatch g) (hn : g.nodeAt? id = some n)
    (hslot : slot ∈ n.slots) (hr : r ∈ slot.adjacent) : ∃ m, g.nodeAt? r.node = some m := by
  obtain ⟨i, hi⟩ := List.getElem?_of_mem hslot
  have hlink := hw.registered (r := ⟨id, ⟨i⟩⟩) (Option.bind_eq_some_iff.2 ⟨n, hn, hi⟩) hr
  obtain ⟨-, -, out, inp, hout, hinp, -⟩ := hw.joined hlink
  unfold Slot.linkTo at hout hinp
  split at hout
  next hprimary =>
    rw [if_pos hprimary] at hinp
    obtain ⟨m, hm, -⟩ := Option.bind_eq_some_iff.1 hinp
    exact ⟨m, hm⟩
  next =>
    obtain ⟨m, hm, -⟩ := Option.bind_eq_some_iff.1 hout
    exact ⟨m, hm⟩

theorem node_of_flowOutputs {x : NodeId} (hw : LinksMatch g) (hn : g.nodeAt? id = some n) (hx : x ∈ n.flowOutputs) :
    ∃ m, g.nodeAt? x = some m := by
  simp only [Node.flowOutputs, Node.adjacentNodes, List.mem_eraseDups, List.mem_flatMap, List.mem_map] at hx
  obtain ⟨slot, hslot, r, hr, rfl⟩ := hx
  exact node_of_slot hw hn (List.mem_filter.1 hslot).1 hr

theorem length_lt_depthBound {ids : List NodeId} (hnodup : ids.Nodup)
    (hlive : AllLive g ids) : ids.length < g.depthBound :=
  Nat.lt_succ_of_le (Arena.length_le_of_live hnodup hlive)

theorem length_lt_walkBound {ss : List ScopeId} (hnodup : ss.Nodup) (hlive : ∀ s ∈ ss, ∃ sc, g.scopeAt? s = some sc) :
    ss.length < g.walkBound :=
  Nat.lt_succ_of_le (Arena.length_le_of_live hnodup hlive)

/-- A search goes no further than the way up does, and the way up passes no scope twice. -/
theorem ParentsEnd.search {α : Type} {look : Nat → ScopeId → Except Fault α} (h : ParentsEnd g s)
    (hlook : ∀ k s parent, g.parentScope? s = .ok parent → (∀ t ∈ parent, ∃ a, look k t = .ok a) →
      ∃ a, look (k + 1) s = .ok a) : ∃ a, look g.walkBound s = .ok a := by
  have hway : ∃ above : List ScopeId, (s :: above).IsChain (fun t u => g.parentScope? t = .ok (some u)) ∧
      (∀ t ∈ s :: above, ∃ st, g.scopeAt? t = some st) ∧ ∀ k, above.length < k → ∃ a, look k s = .ok a := by
    induction h with
    | @top s hparent =>
      obtain ⟨sc, hsc, -⟩ := parentScope?_eq_ok_iff.1 hparent
      refine ⟨[], List.isChain_singleton s, List.forall_mem_singleton.2 ⟨sc, hsc⟩, fun k hk => ?_⟩
      obtain ⟨k, rfl⟩ := Nat.exists_eq_succ_of_ne_zero (Nat.ne_of_gt hk)
      exact hlook k s none hparent nofun
    | @up s t hparent _ ih =>
      obtain ⟨sc, hsc, -⟩ := parentScope?_eq_ok_iff.1 hparent
      obtain ⟨above, hway, hlive, hsearch⟩ := ih
      refine ⟨t :: above, List.isChain_cons_cons.2 ⟨hparent, hway⟩, List.forall_mem_cons.2 ⟨⟨sc, hsc⟩, hlive⟩, ?_⟩
      intro k hk
      rw [List.length_cons] at hk
      obtain ⟨k, rfl⟩ := Nat.exists_eq_succ_of_ne_zero (Nat.ne_zero_of_lt hk)
      refine hlook k s (some t) hparent fun u hu => ?_
      cases hu
      exact hsearch k (Nat.lt_of_succ_lt_succ hk)
  obtain ⟨above, hway, hlive, hsearch⟩ := hway
  have hlt := length_lt_walkBound (nodup_of_isChain hway h.finitelyNested) hlive
  rw [List.length_cons] at hlt
  exact hsearch g.walkBound (by omega)

theorem exists_isNext {before : List NodeId} {c : NodeId} (hc : ∃ m, g.nodeAt? c = some m) :
    ∃ b, g.isNext s id before c = .ok b := by
  obtain ⟨m, hm⟩ := hc
  by_cases hvisited : c = id ∨ c ∈ before
  · exact ⟨false, if_pos hvisited⟩
  · exact ⟨decide (m.scope = some s), (if_neg hvisited).trans (bind_eq_ok.2 ⟨m, node_eq_ok_iff.2 hm, rfl⟩)⟩

theorem of_isNext {before : List NodeId} {c : NodeId} (h : g.isNext s id before c = .ok true) :
    ¬(c = id ∨ c ∈ before) ∧ ∃ m, g.nodeAt? c = some m ∧ m.scope = some s := by
  by_cases hvisited : c = id ∨ c ∈ before
  · cases (if_pos hvisited).symm.trans h
  obtain ⟨m, hm, hscope⟩ := bind_eq_ok.1 ((if_neg hvisited).symm.trans h)
  exact ⟨hvisited, m, node_eq_ok_iff.1 hm, of_decide_eq_true (pure_eq_ok.1 hscope)⟩

section

variable {leaves : ScopeId → Except Fault (List NodeId)} {k : Nat} {before : List NodeId} {thread : Thread}

def threadVia (g : Graph) (leaves : ScopeId → Except Fault (List NodeId)) (s : ScopeId) (k : Nat)
    (before : List NodeId) (id : NodeId) (nodes ends : List NodeId) : Except Fault Thread := do
  match ← nodes.findM? (g.isNext s id before) with
  | some next =>
    let rest ← g.threadFrom leaves s k (id :: before) next
    return { rest with path := id :: rest.path }
  | none => return ⟨[id], ends⟩

theorem threadFrom_eq_ok_iff : g.threadFrom leaves s (k + 1) before id = .ok thread ↔ ∃ n inner after,
    g.nodeAt? id = some n ∧ n.internalScope.elim (.ok []) leaves = .ok inner ∧
    (inner.mapM fun leaf => do return (← g.node leaf).flowOutputs) = .ok after ∧
    g.threadVia leaves s k before id (n.flowOutputs ++ after.flatten) (if inner.isEmpty then [id] else inner) =
      .ok thread := by
  simp only [threadFrom, bind_eq_ok, node_eq_ok_iff]
  constructor
  · rintro ⟨n, hn, h⟩
    cases hi : n.internalScope
    all_goals
      simp only [hi, bind_eq_ok] at h
      obtain ⟨inner, hinner, after, hafter, h⟩ := h
      exact ⟨n, inner, after, hn, by rwa [hi], hafter, bind_eq_ok.2 h⟩
  · rintro ⟨n, inner, after, hn, hinner, hafter, h⟩
    refine ⟨n, hn, ?_⟩
    cases hi : n.internalScope
    all_goals
      rw [hi] at hinner
      simp only [bind_eq_ok]
      exact ⟨inner, hinner, after, hafter, bind_eq_ok.1 h⟩

theorem of_threadFrom (h : g.threadFrom leaves s (k + 1) before id = .ok thread) :
    thread.path = [id] ∨ ∃ next rest, g.isNext s id before next = .ok true ∧
      g.threadFrom leaves s k (id :: before) next = .ok rest ∧ thread.path = id :: rest.path := by
  obtain ⟨n, inner, after, -, -, -, h⟩ := threadFrom_eq_ok_iff.1 h
  obtain ⟨found, hfound, h⟩ := bind_eq_ok.1 h
  cases found with
  | none =>
    cases h
    exact .inl rfl
  | some next =>
    obtain ⟨rest, hrest, h⟩ := bind_eq_ok.1 h
    cases h
    exact .inr ⟨next, rest, (of_findM?_eq_some hfound).2, hrest, rfl⟩

theorem threadFrom_scope (h : g.threadFrom leaves s k before id = .ok thread) (hn : g.nodeAt? id = some n)
    (hs : n.scope = some s) : ∀ x ∈ thread.path, ∃ m, g.nodeAt? x = some m ∧ m.scope = some s := by
  induction k generalizing before id n thread with
  | zero => cases h
  | succ k ih =>
    rcases of_threadFrom h with hpath | ⟨next, rest, hnext, hrest, hpath⟩
    · rw [hpath]
      exact List.forall_mem_cons.2 ⟨⟨n, hn, hs⟩, nofun⟩
    · rw [hpath]
      obtain ⟨-, m, hm, hscope⟩ := of_isNext hnext
      exact List.forall_mem_cons.2 ⟨⟨n, hn, hs⟩, ih hrest hm hscope⟩

theorem threadFrom_nodup (h : g.threadFrom leaves s k before id = .ok thread) (hid : id ∉ before) :
    thread.path.Nodup ∧ ∀ x ∈ thread.path, x ∉ before := by
  induction k generalizing before id thread with
  | zero => cases h
  | succ k ih =>
    rcases of_threadFrom h with hpath | ⟨next, rest, hnext, hrest, hpath⟩
    · rw [hpath]
      exact ⟨List.nodup_singleton id, List.forall_mem_cons.2 ⟨hid, nofun⟩⟩
    · rw [hpath]
      obtain ⟨hnew, -⟩ := of_isNext hnext
      obtain ⟨hnodup, hfree⟩ := ih hrest (by rwa [List.mem_cons])
      refine ⟨List.nodup_cons.2 ⟨fun hmem => hfree id hmem List.mem_cons_self, hnodup⟩, ?_⟩
      exact List.forall_mem_cons.2 ⟨hid, fun x hx hbefore => hfree x hx (List.mem_cons_of_mem _ hbefore)⟩

end

theorem of_backbone {path : List NodeId} (h : g.backbone s = .ok path) : path = [] ∨ ∃ sc head thread,
    g.scopeAt? s = some sc ∧ sc.head = some head ∧ g.threadFrom g.leaves s g.depthBound [] head = .ok thread ∧
      path = thread.path := by
  simp only [backbone, threadWith, bind_eq_ok, scope_eq_ok_iff, pure_eq_ok] at h
  obtain ⟨thread, ⟨sc, hsc, hthread⟩, rfl⟩ := h
  cases hhead : sc.head with
  | none =>
    rw [hhead] at hthread
    cases hthread
    exact .inl rfl
  | some head =>
    rw [hhead] at hthread
    exact .inr ⟨sc, head, thread, hsc, hhead, hthread, rfl⟩

theorem head?_backbone {path : List NodeId} (hsc : g.scopeAt? s = some sc) (h : g.backbone s = .ok path) :
    path.head? = sc.head := by
  simp only [backbone, threadWith, scope_eq_ok_iff.2 hsc, ok_bind, bind_eq_ok, pure_eq_ok] at h
  obtain ⟨thread, hthread, rfl⟩ := h
  cases hhead : sc.head with
  | none =>
    rw [hhead] at hthread
    cases hthread
    rfl
  | some head =>
    rw [hhead] at hthread
    rcases of_threadFrom hthread with hpath | ⟨next, rest, -, -, hpath⟩
    · rw [hpath, List.head?_cons]
    · rw [hpath, List.head?_cons]

theorem backbone_scope {path : List NodeId} (hh : ScopesMatchNodes g) (h : g.backbone s = .ok path) :
    ∀ x ∈ path, ∃ m, g.nodeAt? x = some m ∧ m.scope = some s := by
  rcases of_backbone h with rfl | ⟨sc, head, thread, hsc, hhead, hthread, rfl⟩
  · exact nofun
  · have hscopeMatches := hh.scopeMatchesNodes hsc
    obtain ⟨m, hm, hs⟩ := hscopeMatches.child head (hscopeMatches.head head hhead)
    exact threadFrom_scope hthread hm hs

theorem backbone_nodup {path : List NodeId} (h : g.backbone s = .ok path) : path.Nodup := by
  rcases of_backbone h with rfl | ⟨sc, head, thread, -, -, hthread, rfl⟩
  · exact List.nodup_nil
  · exact (threadFrom_nodup hthread List.not_mem_nil).1

def FindsLive (g : Graph) (x : Except Fault (List NodeId)) : Prop := ∃ ids, x = .ok ids ∧ AllLive g ids

theorem exists_after {inner : List NodeId} (hw : LinksMatch g) (hn : g.nodeAt? id = some n) (hends : AllLive g inner) :
    ∃ after, (inner.mapM fun leaf => do return (← g.node leaf).flowOutputs) = .ok after ∧
      AllLive g (n.flowOutputs ++ after.flatten) := by
  obtain ⟨after, hafter⟩ := exists_mapM (f := fun leaf => do return (← g.node leaf).flowOutputs)
    fun leaf (hleaf : leaf ∈ inner) => by
      obtain ⟨m, hm⟩ := hends leaf hleaf
      exact ⟨m.flowOutputs, bind_eq_ok.2 ⟨m, node_eq_ok_iff.2 hm, rfl⟩⟩
  refine ⟨after, hafter, fun c hc => ?_⟩
  rcases List.mem_append.1 hc with hc | hc
  · exact node_of_flowOutputs hw hn hc
  · obtain ⟨outputs, houtputs, hc⟩ := List.mem_flatten.1 hc
    obtain ⟨leaf, -, hleaf⟩ := of_mem_mapM hafter houtputs
    simp only [bind_eq_ok, node_eq_ok_iff, pure_eq_ok] at hleaf
    obtain ⟨m, hm, rfl⟩ := hleaf
    exact node_of_flowOutputs hw hm hc

section

variable (leaves : ScopeId → Except Fault (List NodeId)) (hw : LinksMatch g)
variable
  (hleaves : ∀ x m i, g.nodeAt? x = some m → m.scope = some s → m.internalScope = some i → FindsLive g (leaves i))

include hw hleaves

/-- A thread visits no node twice, so it ends. -/
theorem exists_threadFrom {k : Nat} {before : List NodeId} (hn : g.nodeAt? id = some n) (hs : n.scope = some s)
    (hk : g.depthBound ≤ before.length + k) (hnodup : (id :: before).Nodup) (hbefore : AllLive g before) :
    ∃ thread, g.threadFrom leaves s k before id = .ok thread ∧ AllLive g thread.ends := by
  have hlive : AllLive g (id :: before) := List.forall_mem_cons.2 ⟨⟨n, hn⟩, hbefore⟩
  induction k generalizing before id n with
  | zero =>
    have hlt := length_lt_depthBound hnodup hlive
    rw [List.length_cons] at hlt
    omega
  | succ k ih =>
    have hinner : FindsLive g (n.internalScope.elim (.ok []) leaves) := by
      cases hi : n.internalScope with
      | none => exact ⟨[], rfl, nofun⟩
      | some i => exact hleaves id n i hn hs hi
    obtain ⟨inner, hinner, hends⟩ := hinner
    obtain ⟨after, hafter, hnext⟩ := exists_after hw hn hends
    obtain ⟨found, hfound⟩ := exists_findM? (p := g.isNext s id before) fun c hc => exists_isNext (hnext c hc)
    simp only [threadFrom_eq_ok_iff]
    cases found with
    | none =>
      refine ⟨_, ⟨n, inner, after, hn, hinner, hafter, bind_eq_ok.2 ⟨none, hfound, rfl⟩⟩, ?_⟩
      show AllLive g (if inner.isEmpty then [id] else inner)
      split
      · exact List.forall_mem_cons.2 ⟨⟨n, hn⟩, nofun⟩
      · exact hends
    | some next =>
      obtain ⟨hvisited, m, hm, hscope⟩ := of_isNext (of_findM?_eq_some hfound).2
      have hnodup : (next :: id :: before).Nodup := by
        refine List.nodup_cons.2 ⟨?_, hnodup⟩
        rwa [List.mem_cons]
      have hk : g.depthBound ≤ (id :: before).length + k := by
        rw [List.length_cons]
        omega
      obtain ⟨rest, hrest, hlast⟩ := ih hm hscope hk hnodup hlive (List.forall_mem_cons.2 ⟨⟨m, hm⟩, hlive⟩)
      refine ⟨{ rest with path := id :: rest.path }, ⟨n, inner, after, hn, hinner, hafter, ?_⟩, hlast⟩
      exact bind_eq_ok.2 ⟨some next, hfound, bind_eq_ok.2 ⟨rest, hrest, rfl⟩⟩

theorem exists_threadWith (hh : ScopesMatchNodes g) (hsc : g.scopeAt? s = some sc) :
    ∃ thread, g.threadWith leaves s = .ok thread ∧ AllLive g thread.ends := by
  simp only [threadWith, scope_eq_ok_iff.2 hsc, ok_bind]
  cases hhead : sc.head with
  | none => exact ⟨{}, rfl, nofun⟩
  | some head =>
    obtain ⟨m, hm, hscope⟩ := (hh.scopeMatchesNodes hsc).child head ((hh.scopeMatchesNodes hsc).head head hhead)
    exact exists_threadFrom leaves hw hleaves hm hscope (Nat.le_add_left _ _) (List.nodup_singleton head) nofun

end

theorem RootFinitelyNested.part_of_mem (ht : RootFinitelyNested g) (ho : ScopesOwned g) (hsc : g.scopeAt? s = some sc)
    {p : ScopeId} (hp : p ∈ sc.partitions) : ∃ sp j, g.scopeAt? p = some sp ∧ sp.kind = .partition s j := by
  obtain ⟨n, i, si, hn, hi, hsi, hs⟩ := ho.home hsc
  obtain ⟨si', hsi', -, -, hparts⟩ := ho.internal hn hi
  cases hsi.symm.trans hsi'
  rcases hs with rfl | hs
  · cases hsc.symm.trans hsi
    obtain ⟨j, hj⟩ := List.getElem?_of_mem hp
    obtain ⟨sp, hsp, -, hkind⟩ := hparts j p hj
    exact ⟨sp, j, hsp, hkind⟩
  · obtain ⟨j, hj⟩ := List.getElem?_of_mem hs
    obtain ⟨sp, hsp, -, hkind⟩ := hparts j s hj
    cases hsc.symm.trans hsp
    rw [ht.unsplit hsc hkind] at hp
    cases hp

theorem RootFinitelyNested.parent_of_partition (ht : RootFinitelyNested g) (ho : ScopesOwned g)
    (hsc : g.scopeAt? s = some sc) {p : ScopeId} (hp : p ∈ sc.partitions) :
    ∃ sp, g.scopeAt? p = some sp ∧ g.parentScope? p = .ok (some s) := by
  obtain ⟨sp, j, hsp, hkind⟩ := ht.part_of_mem ho hsc hp
  exact ⟨sp, hsp, parentScope?_eq_ok_iff.2 ⟨sp, hsp, .inl ⟨s, j, hkind, rfl⟩⟩⟩

theorem ScopesOwned.parent_of_internal {i : ScopeId} (ho : ScopesOwned g) (hn : g.nodeAt? id = some n)
    (hi : n.internalScope = some i) : ∃ si, g.scopeAt? i = some si ∧ g.parentScope? i = .ok n.scope := by
  obtain ⟨si, hsi, rfl, hkind, -⟩ := ho.internal hn hi
  exact ⟨si, hsi, parentScope?_eq_ok_iff.2 ⟨si, hsi, .inr ⟨hkind, n, hn, rfl⟩⟩⟩

theorem exists_leavesWithin {k : Nat} {above : List ScopeId} (hg : WellFormed g) (ht : RootFinitelyNested g)
    (hway : (s :: above).IsChain fun t u => g.parentScope? t = .ok (some u)) (hfinitelyNested : FinitelyNested g s)
    (hsc : g.scopeAt? s = some sc) (habove : ∀ t ∈ above, ∃ st, g.scopeAt? t = some st)
    (hk : g.walkBound ≤ above.length + k) : FindsLive g (g.leavesWithin k s) := by
  -- the walk down from a scope has come the way up from there, which no scope is on twice
  have hlive : ∀ t ∈ s :: above, ∃ st, g.scopeAt? t = some st := List.forall_mem_cons.2 ⟨⟨sc, hsc⟩, habove⟩
  induction k generalizing s sc above with
  | zero =>
    have hlt := length_lt_walkBound (nodup_of_isChain hway hfinitelyNested) hlive
    rw [List.length_cons] at hlt
    omega
  | succ k ih =>
    have hdown {t : ScopeId} {st : Scope} (hst : g.scopeAt? t = some st) (hup : g.parentScope? t = .ok (some s)) :
        FindsLive g (g.leavesWithin k t) := by
      refine ih (List.isChain_cons_cons.2 ⟨hup, hway⟩) (hfinitelyNested.below hup) hst hlive ?_
        (List.forall_mem_cons.2 ⟨⟨st, hst⟩, hlive⟩)
      rw [List.length_cons]
      omega
    simp only [leavesWithin, FindsLive, bind_eq_ok, scope_eq_ok_iff]
    by_cases hpartitioned : sc.isPartitioned = true
    · obtain ⟨inner, hinner⟩ := exists_mapM (f := g.leavesWithin k) fun p (hp : p ∈ sc.partitions) => by
        obtain ⟨sp, hsp, hup⟩ := ht.parent_of_partition hg.scopesOwned hsc hp
        exact (hdown hsp hup).imp fun _ => And.left
      refine ⟨inner.flatten, ⟨sc, hsc, (if_pos hpartitioned).trans (bind_eq_ok.2 ⟨inner, hinner, rfl⟩)⟩, ?_⟩
      intro x hx
      obtain ⟨leaves, hleaves, hx⟩ := List.mem_flatten.1 hx
      obtain ⟨p, hp, hwalk⟩ := of_mem_mapM hinner hleaves
      obtain ⟨sp, hsp, hup⟩ := ht.parent_of_partition hg.scopesOwned hsc hp
      obtain ⟨_, hwalk', hlive⟩ := hdown hsp hup
      cases hwalk.symm.trans hwalk'
      exact hlive x hx
    · obtain ⟨thread, hthread, hends⟩ := exists_threadWith (g.leavesWithin k) hg.linksMatch
        (fun x m i hm hscope hi => by
          obtain ⟨si, hsi, hup⟩ := hg.scopesOwned.parent_of_internal hm hi
          exact hdown hsi (hup.trans (congrArg _ hscope))) hg.scopesMatchNodes hsc
      exact ⟨thread.ends, ⟨sc, hsc, (if_neg hpartitioned).trans (bind_eq_ok.2 ⟨thread, hthread, rfl⟩)⟩, hends⟩

theorem exists_leaves (hg : WellFormed g) (ht : RootFinitelyNested g) (hfinitelyNested : FinitelyNested g s)
    (hsc : g.scopeAt? s = some sc) :
    FindsLive g (g.leaves s) :=
  exists_leavesWithin hg ht (List.isChain_singleton s) hfinitelyNested hsc nofun (Nat.le_add_left _ _)

theorem exists_backbone (hg : WellFormed g) (ht : RootFinitelyNested g) (hfinitelyNested : FinitelyNested g s)
    (hsc : g.scopeAt? s = some sc) :
    ∃ path, g.backbone s = .ok path := by
  obtain ⟨thread, hthread, -⟩ := exists_threadWith g.leaves hg.linksMatch
    (fun x m i hm hscope hi => by
      obtain ⟨si, hsi, hup⟩ := hg.scopesOwned.parent_of_internal hm hi
      exact exists_leaves hg ht (hfinitelyNested.below (hup.trans (congrArg _ hscope))) hsi) hg.scopesMatchNodes hsc
  exact ⟨thread.path, bind_eq_ok.2 ⟨thread, hthread, rfl⟩⟩

end FlowGraph.Graph
