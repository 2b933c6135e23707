import FlowGraph.Proofs.Stranding

/-!
# Backbones as paths

From a node, the backbone of its scope goes on along a flow link of that node or of a node control leaves its inner
scope from. It goes on as long as that leads to a node of the scope that it has not come to yet.
-/

namespace FlowGraph.Graph

def FlowsTo (g : Graph) (x y : NodeId) : Prop := ∃ l ∈ g.flowLinks, l.tail.node = x ∧ l.head.node = y

inductive ContinuesTo (g : Graph) (x : NodeId) : NodeId → Prop
  | next {y : NodeId} : FlowsTo g x y → ContinuesTo g x y
  | beyond {y z : NodeId} {n : Node} {i : ScopeId} {ends : List NodeId} : g.node x = .ok n → n.internalScope = some i →
      g.leaves i = .ok ends → z ∈ ends → FlowsTo g z y → ContinuesTo g x y

/-- A path from the head of a scope through nodes of the scope, each of them once, that cannot go on. -/
structure MaximalPath (g : Graph) (s : ScopeId) (head : Option NodeId) (path : List NodeId) : Prop where
  nodup : path.Nodup
  within : ∀ x ∈ path, g.homeAt? x = some s
  nil : path = [] ↔ head = none
  start : path.head? = head
  steps : path.IsChain (ContinuesTo g)
  stop : ∀ x ∈ path.getLast?, ∀ y, ContinuesTo g x y → g.homeAt? y = some s → y ∈ path

variable {g : Graph} {id x y : NodeId} {s t : ScopeId} {sc : Scope} {n : Node} {before inner path : List NodeId}
variable {thread : Thread} {k : Nat}

theorem LinksMatch.mem_flowOutputs_iff (hw : LinksMatch g) (hn : g.nodeAt? id = some n) :
    x ∈ n.flowOutputs ↔ FlowsTo g id x := by
  simp only [Node.flowOutputs, Node.adjacentNodes, List.mem_eraseDups, List.mem_flatMap, List.mem_map]
  constructor
  · rintro ⟨slot, hslot, r, hr, rfl⟩
    obtain ⟨hmem, hout⟩ := List.mem_filter.1 hslot
    obtain ⟨hkind, hprimary⟩ := slot.hasFlags_flowOut_iff.1 hout
    obtain ⟨i, hi⟩ := List.getElem?_of_mem hmem
    have hlink := hw.registered (r := ⟨id, ⟨i⟩⟩) (Option.bind_eq_some_iff.2 ⟨n, hn, hi⟩) hr
    rw [Slot.linkTo, if_pos hprimary, hkind] at hlink
    exact ⟨_, hlink, rfl, rfl⟩
  · rintro ⟨l, hl, rfl, rfl⟩
    obtain ⟨-, -, slot, -, hslot, -, hkind, -, hprimary, -, hadj, -⟩ := hw.joined (k := .flow) hl
    obtain ⟨m, hm, hslot⟩ := Option.bind_eq_some_iff.1 hslot
    cases hn.symm.trans hm
    exact ⟨slot, List.mem_filter.2 ⟨List.mem_of_getElem? hslot, slot.hasFlags_flowOut_iff.2 ⟨hkind, hprimary⟩⟩, _, hadj,
      rfl⟩

/-- What a thread looks at after a node is where it may go on. -/
theorem LinksMatch.mem_candidates_iff (hw : LinksMatch g) {after : List (List NodeId)} (hn : g.nodeAt? id = some n)
    (hinner : n.internalScope.elim (.ok []) g.leaves = .ok inner)
    (hafter : (inner.mapM fun leaf => do return (← g.node leaf).flowOutputs) = .ok after) :
    y ∈ n.flowOutputs ++ after.flatten ↔ ContinuesTo g id y := by
  rw [List.mem_append, hw.mem_flowOutputs_iff hn]
  constructor
  · rintro (hnext | hbeyond)
    · exact .next hnext
    · obtain ⟨outputs, houtputs, hy⟩ := List.mem_flatten.1 hbeyond
      obtain ⟨z, hz, hleaf⟩ := of_mem_mapM hafter houtputs
      simp only [bind_eq_ok, node_eq_ok_iff, pure_eq_ok] at hleaf
      obtain ⟨m, hm, rfl⟩ := hleaf
      cases hi : n.internalScope with
      | none =>
        rw [hi] at hinner
        cases hinner
        cases hz
      | some i =>
        rw [hi] at hinner
        exact .beyond (node_eq_ok_iff.2 hn) hi hinner hz ((hw.mem_flowOutputs_iff hm).1 hy)
  · intro h
    cases h with
    | next hnext => exact .inl hnext
    | @beyond z n' i ends hn' hi hends hz hflows =>
      cases hn.symm.trans (node_eq_ok_iff.1 hn')
      rw [hi] at hinner
      cases hinner.symm.trans hends
      obtain ⟨outputs, houtputs, hleaf⟩ := exists_of_mem_mapM hafter hz
      simp only [bind_eq_ok, node_eq_ok_iff, pure_eq_ok] at hleaf
      obtain ⟨m, hm, rfl⟩ := hleaf
      exact .inr (List.mem_flatten.2 ⟨_, houtputs, (hw.mem_flowOutputs_iff hm).2 hflows⟩)

theorem of_isNext_false (h : g.isNext s id before y = .ok false) (hy : g.homeAt? y = some s) : y = id ∨ y ∈ before := by
  by_contra hnew
  obtain ⟨m, hm, hscope⟩ := bind_eq_ok.1 ((if_neg hnew).symm.trans h)
  obtain ⟨m', hm', hs⟩ := homeAt?_eq_some_iff.1 hy
  cases (node_eq_ok_iff.1 hm).symm.trans hm'
  exact of_decide_eq_false (pure_eq_ok.1 hscope) hs

/-- A thread goes on where it may, and ends where it may not. -/
theorem threadFrom_continuesTo (hw : LinksMatch g) (h : g.threadFrom g.leaves s (k + 1) before id = .ok thread) :
    (thread.path = [id] ∧ ∀ y, ContinuesTo g id y → g.homeAt? y = some s → y = id ∨ y ∈ before) ∨
      ∃ next rest, ContinuesTo g id next ∧ g.threadFrom g.leaves s k (id :: before) next = .ok rest ∧
        thread.path = id :: rest.path := by
  obtain ⟨n, inner, after, hn, hinner, hafter, h⟩ := threadFrom_eq_ok_iff.1 h
  have hcandidates {y : NodeId} := hw.mem_candidates_iff (y := y) hn hinner hafter
  obtain ⟨found, hfound, h⟩ := bind_eq_ok.1 h
  cases found with
  | none =>
    cases h
    refine .inl ⟨rfl, fun y hy hhome => ?_⟩
    exact of_isNext_false (of_findM?_eq_none hfound (hcandidates.2 hy)) hhome
  | some next =>
    obtain ⟨rest, hrest, h⟩ := bind_eq_ok.1 h
    cases h
    exact .inr ⟨next, rest, hcandidates.1 (of_findM?_eq_some hfound).1, hrest, rfl⟩

theorem threadFrom_head (h : g.threadFrom g.leaves s k before id = .ok thread) : ∃ rest, thread.path = id :: rest := by
  cases k with
  | zero => cases h
  | succ k =>
    rcases of_threadFrom h with hpath | ⟨next, rest, -, -, hpath⟩
    · exact ⟨[], hpath⟩
    · exact ⟨rest.path, hpath⟩

theorem threadFrom_chain (hw : LinksMatch g) (h : g.threadFrom g.leaves s k before id = .ok thread) :
    thread.path.IsChain (ContinuesTo g) := by
  induction k generalizing before id thread with
  | zero => cases h
  | succ k ih =>
    rcases threadFrom_continuesTo hw h with ⟨hpath, -⟩ | ⟨next, rest, hnext, hrest, hpath⟩
    · rw [hpath]
      exact List.isChain_singleton id
    · have hchain := ih hrest
      obtain ⟨more, hmore⟩ := threadFrom_head hrest
      rw [hpath, hmore]
      rw [hmore] at hchain
      exact List.isChain_cons_cons.2 ⟨hnext, hchain⟩

theorem threadFrom_stop (hw : LinksMatch g) (h : g.threadFrom g.leaves s k before id = .ok thread) :
    ∀ x ∈ thread.path.getLast?, ∀ y, ContinuesTo g x y → g.homeAt? y = some s → y ∈ before ++ thread.path := by
  induction k generalizing before id thread with
  | zero => cases h
  | succ k ih =>
    rcases threadFrom_continuesTo hw h with ⟨hpath, hstop⟩ | ⟨next, rest, -, hrest, hpath⟩
    · rw [hpath]
      intro x hx y hxy hhome
      obtain rfl := Option.some.inj hx
      rw [List.mem_append, List.mem_singleton]
      exact (hstop y hxy hhome).symm
    · have hstop := ih hrest
      obtain ⟨more, hmore⟩ := threadFrom_head hrest
      rw [hmore] at hstop
      rw [hpath, hmore, List.getLast?_cons_cons]
      intro x hx y hxy hhome
      have hy := hstop x hx y hxy hhome
      rw [List.mem_append, List.mem_cons, or_assoc] at hy
      rw [List.mem_append, List.mem_cons]
      exact or_left_comm.1 hy

theorem maximalPath_backbone (hw : LinksMatch g) (hh : ScopesMatchNodes g) (hsc : g.scopeAt? s = some sc)
    (h : g.backbone s = .ok path) :
    MaximalPath g s sc.head path := by
  have hstart := head?_backbone hsc h
  refine ⟨backbone_nodup h, fun x hx => homeAt?_eq_some_iff.2 (backbone_scope hh h x hx), ?_, hstart, ?_, ?_⟩
  · rw [← hstart, List.head?_eq_none_iff]
  · rcases of_backbone h with rfl | ⟨_, head, thread, -, -, hthread, rfl⟩
    · exact .nil
    · exact threadFrom_chain hw hthread
  · rcases of_backbone h with rfl | ⟨_, head, thread, -, -, hthread, rfl⟩
    · exact fun x hx => by cases hx
    · exact threadFrom_stop hw hthread

/-- The backbone of a scope ends, and it is a path of different nodes of the scope from the head on that goes on until it
cannot. A node of it is on the backbone of no other scope. -/
theorem backbone_maximalPath (hr : Reachable g) (hg : Consistent g) (hs : g.scope s = .ok sc) :
    ∃ path, g.backbone s = .ok path ∧ MaximalPath g s sc.head path ∧
      ∀ t path', g.backbone t = .ok path' → ∀ x ∈ path, x ∈ path' → t = s := by
  have hwellFormed := hr.wellFormed
  have hsc := scope_eq_ok_iff.1 hs
  obtain ⟨path, hpath⟩ := exists_backbone hwellFormed hr.rootFinitelyNested (hg.parentsEnd hs).finitelyNested hsc
  have hmain := maximalPath_backbone hwellFormed.linksMatch hwellFormed.scopesMatchNodes hsc hpath
  refine ⟨path, hpath, hmain, fun t path' hpath' x hx hx' => ?_⟩
  have hhome := homeAt?_eq_some_iff.2 (backbone_scope hwellFormed.scopesMatchNodes hpath' x hx')
  exact Option.some.inj (hhome.symm.trans (hmain.within x hx))

def detour : Except Fault Graph := do
  let g ← create {} {} default {}
  let _ ← g.scope ⟨2⟩
  let g ← g.perform (.conditional .ifElse ⟨2⟩)
  [.emptyInstruction ⟨5⟩, .emptyInstruction ⟨2⟩, .connect ⟨⟨1⟩, ⟨0⟩⟩ ⟨⟨3⟩, ⟨0⟩⟩ true,
    .connect ⟨⟨3⟩, ⟨2⟩⟩ ⟨⟨7⟩, ⟨0⟩⟩ true, .connect ⟨⟨7⟩, ⟨1⟩⟩ ⟨⟨8⟩, ⟨0⟩⟩ false].foldlM perform g

theorem consistent_detour (h : detour = .ok g) : Reachable g ∧ Consistent g := by
  simp only [detour, bind_eq_ok] at h
  obtain ⟨g₀, hcreate, sc, hsc, g₁, hblock, h⟩ := h
  refine consistent_foldlM h (.edit _ (.create hcreate) hblock) ?_ ?_
  · refine (consistent_create hcreate).perform rfl ?_ hblock
    rintro _ ⟨⟩
    exact ⟨sc, hsc⟩
  · simp [Edit.destroys, Edit.block?]

/-- The backbone of the root scope goes on after the `if` where control leaves it. -/
theorem backbone_detour : ∃ g sc, Reachable g ∧ Consistent g ∧ g.scope ⟨2⟩ = .ok sc ∧ g.backbone ⟨2⟩ = .ok [⟨3⟩, ⟨8⟩] ∧
    MaximalPath g ⟨2⟩ sc.head [⟨3⟩, ⟨8⟩] ∧ ∀ t path, g.backbone t = .ok path → ⟨8⟩ ∈ path → t = ⟨2⟩ := by
  obtain ⟨u, h⟩ := exists_of_isOk (x := do
    let g ← detour
    let _ ← g.scope ⟨2⟩
    let path ← g.backbone ⟨2⟩
    if ¬path = [⟨3⟩, ⟨8⟩] then throw .endless) (by decide +kernel)
  simp only [bind_eq_ok] at h
  obtain ⟨g, hdetour, sc, hsc, path, hpath, h⟩ := h
  split at h
  next => cases h
  next heq =>
    obtain rfl := not_not.1 heq
    obtain ⟨hr, hg⟩ := consistent_detour hdetour
    obtain ⟨path', hpath', hmain, honce⟩ := backbone_maximalPath hr hg hsc
    cases hpath.symm.trans hpath'
    refine ⟨g, sc, hr, hg, hsc, hpath, hmain, fun t path ht hmem => honce t path ht ⟨8⟩ ?_ hmem⟩
    exact List.mem_cons_of_mem _ List.mem_cons_self

end FlowGraph.Graph
