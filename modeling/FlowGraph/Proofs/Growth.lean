import FlowGraph.Proofs.View

/-!
# Growth and loss

A creation adds one node and, for a block, its internal scope with the partitions, all under identifiers that
have not been in use. What was there before is as it was. Only then is the node put into a scope. At the end of
a destruction one node goes with its inner scopes, and nothing else.
-/

namespace FlowGraph.Graph

variable {g g' : Graph} {id : NodeId}

theorem allocate_insert {k : Element} {build : Handle k → k.Item} {x : Handle k}
    (h : g.allocate k build = .ok (x, g')) :
    ∃ fresh : x.raw ∉ g.arena.records, x.raw = g.ids.next ∧
      g' = { g with arena := g.arena.insert x.raw k (build x) fresh, ids := ⟨x.raw + 1⟩ } := by
  unfold allocate at h
  split at h
  next hcreate =>
    cases h
    simp only [Arena.create, Option.bind_eq_bind, Option.bind_eq_some_iff] at hcreate
    obtain ⟨⟨raw, ids⟩, hissue, hcreate⟩ := hcreate
    obtain ⟨-, rfl, rfl⟩ := IdSupply.issue_eq_some_iff.1 hissue
    split at hcreate
    next hfresh =>
      cases hcreate
      exact ⟨hfresh, rfl, rfl⟩
    next => cases hcreate
  next => cases h

theorem allocate_eq {k : Element} {build : Handle k → k.Item} {x : Handle k}
    (h : g.allocate k build = .ok (x, g')) :
    g.arena.item? x = none ∧ (∀ y, g'.arena.item? y = if y = x then some (build x) else g.arena.item? y) ∧
      (∀ k', k ≠ k' → ∀ y : Handle k', g'.arena.item? y = g.arena.item? y) ∧
      g' = { g with arena := g'.arena, ids := g'.ids } ∧ x.raw = g.ids.next ∧ g'.ids.next = g.ids.next + 1 := by
  obtain ⟨hfresh, hraw, rfl⟩ := allocate_insert h
  exact ⟨Arena.item?_eq_none_of_fresh hfresh, fun y => Arena.item?_insert hfresh y,
    fun k' hk y => Arena.item?_insert_ne hfresh hk y, rfl, hraw, congrArg Nat.succ hraw⟩

theorem addPartitions_eq {owner : NodeId} {internal : ScopeId} {index n : Nat} {sc : Scope}
    (h : addPartitions owner internal index n g = .ok g') (hsc : g.scopeAt? internal = some sc) :
    ∃ ps, g'.scopeAt? internal = some { sc with partitions := sc.partitions ++ ps } ∧ ps.length = n ∧
      (∀ j p, ps[j]? = some p → g.scopeAt? p = none ∧ g.ids.next ≤ p.raw ∧ p.raw < g'.ids.next ∧
        g'.scopeAt? p = some { id := p, owner, kind := .partition internal (index + j) }) ∧
      (∀ t, t ≠ internal → t ∉ ps → g'.scopeAt? t = g.scopeAt? t) ∧ (∀ x, g'.nodeAt? x = g.nodeAt? x) ∧
      g' = { g with arena := g'.arena, ids := g'.ids } ∧ g.ids.next ≤ g'.ids.next := by
  induction n generalizing g index sc with
  | zero =>
    cases h
    refine ⟨[], by rw [hsc, List.append_nil], rfl, ?_, fun _ _ _ => rfl, fun _ => rfl, rfl, Nat.le_refl _⟩
    intro j p hp
    cases hp
  | succ n ih =>
    simp only [addPartitions, bind_eq_ok] at h
    obtain ⟨⟨p, g₁⟩, hp, h⟩ := h
    obtain ⟨hfresh, hscopes, hnodes, hframe, hraw, hnext⟩ := allocate_eq hp
    have hne : internal ≠ p := by
      rintro rfl
      cases hsc.symm.trans hfresh
    have hp₁ : g₁.scopeAt? p = some { id := p, owner, kind := .partition internal index } :=
      (hscopes p).trans (if_pos rfl)
    have hold₁ {t : ScopeId} (ht : t ≠ p) : g₁.scopeAt? t = g.scopeAt? t := (hscopes t).trans (if_neg ht)
    let g₂ := g₁.modifyScope internal fun s => { s with partitions := s.partitions ++ [p] }
    have h : addPartitions owner internal (index + 1) n g₂ = .ok g' := h
    have hsc₂ : g₂.scopeAt? internal = some { sc with partitions := sc.partitions ++ [p] } := by
      rw [scopeAt?_modifyScope, if_pos rfl, hold₁ hne, hsc]
      rfl
    have hold₂ {t : ScopeId} (ht : t ≠ internal) : g₂.scopeAt? t = g₁.scopeAt? t := by
      rw [scopeAt?_modifyScope, if_neg ht]
    obtain ⟨ps, hinternal, hlength, hnew, hold, hnodes', hframe', hnext'⟩ := ih h hsc₂
    have hids : g₂.ids.next = g.ids.next + 1 := hnext
    have hps {j : Nat} {q : ScopeId} (hq : ps[j]? = some q) : q ≠ internal ∧ q ≠ p := by
      have hfree := (hnew j q hq).1
      refine ⟨?_, ?_⟩
      · rintro rfl
        cases hsc₂.symm.trans hfree
      · rintro rfl
        rw [hold₂ hne.symm, hp₁] at hfree
        cases hfree
    refine ⟨p :: ps, ?_, congrArg Nat.succ hlength, ?_, ?_, ?_, ?_, by omega⟩
    · rw [hinternal, List.append_assoc]
      rfl
    · intro j q hq
      cases j with
      | zero =>
        cases hq
        have hmem : p ∉ ps := by
          intro hmem
          obtain ⟨j, hj⟩ := List.getElem?_of_mem hmem
          exact (hps hj).2 rfl
        refine ⟨hfresh, Nat.le_of_eq hraw.symm, by omega, ?_⟩
        rw [hold p hne.symm hmem, hold₂ hne.symm, hp₁]
        rfl
      | succ j =>
        rw [List.getElem?_cons_succ] at hq
        obtain ⟨hfree, hlow, hhigh, hq'⟩ := hnew j q hq
        refine ⟨?_, by omega, hhigh, ?_⟩
        · rw [← hold₁ (hps hq).2, ← hold₂ (hps hq).1, hfree]
        · rw [hq', Nat.add_assoc, Nat.add_comm 1]
    · intro t ht hmem
      rw [List.mem_cons, not_or] at hmem
      rw [hold t ht hmem.2, hold₂ ht, hold₁ hmem.1]
    · intro x
      rw [hnodes', nodeAt?_modifyScope]
      exact hnodes .node (by decide) x
    · rw [hframe']
      show { g₁ with arena := g'.arena, ids := g'.ids } = _
      rw [hframe]

structure AddsNode (g : Graph) (id : NodeId) (n : Node) (ps : List ScopeId) (g' : Graph) : Prop where
  fresh : g.nodeAt? id = none
  fresh_scope : ∀ t, n.internalScope = some t ∨ t ∈ ps → g.scopeAt? t = none ∧ g.ids.next ≤ t.raw ∧
    t.raw < g'.ids.next
  nodeAt? : ∀ x, g'.nodeAt? x = if x = id then some n else g.nodeAt? x
  internal : ∀ t, n.internalScope = some t →
    g'.scopeAt? t = some { id := t, owner := id, kind := .internal, partitions := ps }
  partition : ∀ t, n.internalScope = some t → ∀ (i : Nat) p, ps[i]? = some p →
    g'.scopeAt? p = some { id := p, owner := id, kind := .partition t i }
  unsplit : n.internalScope = none → ps = []
  others : ∀ t, n.internalScope ≠ some t → t ∉ ps → g'.scopeAt? t = g.scopeAt? t
  ids : g.ids.next ≤ g'.ids.next
  valueLinks : g'.valueLinks = g.valueLinks
  flowLinks : g'.flowLinks = g.flowLinks
  nodes : g'.nodes = g.nodes ++ [id]
  events : g'.events = g.events ++ [.nodeAdded id]
  library : g'.library = g.library
  config : g'.config = g.config

theorem addInternalScope_eq {partitions : Nat} {n : Node} (h : g.addInternalScope id partitions = .ok g')
    (hn : g.nodeAt? id = some n) :
    ∃ i ps, ps.length = partitions ∧ g.scopeAt? i = none ∧ g.ids.next ≤ i.raw ∧ i.raw < g'.ids.next ∧
      g'.scopeAt? i = some { id := i, owner := id, kind := .internal, partitions := ps } ∧
      (∀ j p, ps[j]? = some p → g.scopeAt? p = none ∧ g.ids.next ≤ p.raw ∧ p.raw < g'.ids.next ∧
        g'.scopeAt? p = some { id := p, owner := id, kind := .partition i j }) ∧
      (∀ t, t ≠ i → t ∉ ps → g'.scopeAt? t = g.scopeAt? t) ∧
      (∀ x, g'.nodeAt? x = if x = id then some { n with internalScope := some i } else g.nodeAt? x) ∧
      g' = { g with arena := g'.arena, ids := g'.ids } := by
  simp only [addInternalScope, bind_eq_ok] at h
  obtain ⟨⟨i, g₁⟩, hi, g₂, h₂, h⟩ := h
  have h₂ : addPartitions id i 0 partitions g₁ = .ok g₂ := h₂
  obtain ⟨hfresh, hscopes, hnodes, hframe, hraw, hnext⟩ := allocate_eq hi
  have hi₁ : g₁.scopeAt? i = some { id := i, owner := id, kind := .internal } := (hscopes i).trans (if_pos rfl)
  have hold₁ {t : ScopeId} (ht : t ≠ i) : g₁.scopeAt? t = g.scopeAt? t := (hscopes t).trans (if_neg ht)
  obtain ⟨ps, hinternal, hlength, hnew, hold, hnodes', hframe', hnext'⟩ := addPartitions_eq h₂ hi₁
  cases h
  refine ⟨i, ps, hlength, hfresh, Nat.le_of_eq hraw.symm, ?_, ?_, ?_, ?_, ?_, ?_⟩
  · show i.raw < g₂.ids.next
    omega
  · rw [scopeAt?_modifyNode, hinternal]
    rfl
  · intro j p hp
    obtain ⟨hfree, hlow, hhigh, hp'⟩ := hnew j p hp
    have hne : p ≠ i := by
      rintro rfl
      cases hi₁.symm.trans hfree
    refine ⟨(hold₁ hne).symm.trans hfree, by omega, hhigh, ?_⟩
    rw [scopeAt?_modifyNode, hp', Nat.zero_add]
  · intro t ht hmem
    rw [scopeAt?_modifyNode, hold t ht hmem, hold₁ ht]
  · intro x
    rw [nodeAt?_modifyNode]
    have hx : g₂.nodeAt? x = g.nodeAt? x := (hnodes' x).trans (hnodes .node (by decide) x)
    split
    next hid => rw [hx, hid, hn, Option.map_some]
    next => exact hx
  · show { g₂ with arena := _ } = _
    rw [hframe']
    show { g₁ with arena := _, ids := _ } = _
    rw [hframe]
    rfl

def enlist (g : Graph) (id : NodeId) : Graph := { g with nodes := g.nodes ++ [id] }.emit (.nodeAdded id)

theorem addsNode_plain {build : NodeId → Node} (h : g.allocate .node build = .ok (id, g'))
    (hbuild : (build id).internalScope = none) :
    AddsNode g id (build id) [] (g'.enlist id) ∧ g'.root = g.root := by
  obtain ⟨hfresh, hnodes, hscopes, hframe, hraw, hnext⟩ := allocate_eq h
  refine ⟨⟨hfresh, ?_, hnodes, ?_, ?_, fun _ => rfl, ?_, ?_, ?_, ?_, ?_, ?_, ?_, ?_⟩, by rw [hframe]⟩
  · rintro t (ht | ht)
    · rw [hbuild] at ht
      cases ht
    · cases ht
  · intro t ht
    rw [hbuild] at ht
    cases ht
  · intro t ht
    rw [hbuild] at ht
    cases ht
  · intro t _ _
    exact hscopes .scope (by decide) t
  · show g.ids.next ≤ g'.ids.next
    omega
  all_goals
    rw [hframe]
    rfl

theorem addsNode_block {build : NodeId → Node} {k : Nat} {g₁ : Graph}
    (h : g.allocate .node build = .ok (id, g₁)) (hblock : g₁.addInternalScope id k = .ok g') :
    ∃ i ps, ps.length = k ∧ AddsNode g id { build id with internalScope := some i } ps (g'.enlist id) ∧
      g'.root = g.root := by
  obtain ⟨hfresh, hnodes, hscopes, hframe, hraw, hnext⟩ := allocate_eq h
  have hn : g₁.nodeAt? id = some (build id) := (hnodes id).trans (if_pos rfl)
  have hscopes₁ (t : ScopeId) : g₁.scopeAt? t = g.scopeAt? t := hscopes .scope (by decide) t
  obtain ⟨i, ps, hlength, hi, hlow, hhigh, hinternal, hnew, hold, hnodes', hframe'⟩ := addInternalScope_eq hblock hn
  refine ⟨i, ps, hlength, ⟨hfresh, ?_, ?_, ?_, ?_, ?_, ?_, ?_, ?_, ?_, ?_, ?_, ?_, ?_⟩, by rw [hframe', hframe]⟩
  · rintro t (ht | ht)
    · cases ht
      exact ⟨(hscopes₁ i).symm.trans hi, by omega, hhigh⟩
    · obtain ⟨j, hj⟩ := List.getElem?_of_mem ht
      obtain ⟨hfree, hlow', hhigh', -⟩ := hnew j t hj
      exact ⟨(hscopes₁ t).symm.trans hfree, by omega, hhigh'⟩
  · intro x
    refine (hnodes' x).trans ?_
    split
    next => rfl
    next hx => exact (hnodes x).trans (if_neg hx)
  · intro t ht
    cases ht
    exact hinternal
  · intro t ht j p hp
    cases ht
    exact (hnew j p hp).2.2.2
  · intro hnone
    cases hnone
  · intro t ht hmem
    have hne : t ≠ i := fun he => ht (he ▸ rfl)
    exact (hold t hne hmem).trans (hscopes₁ t)
  · show g.ids.next ≤ g'.ids.next
    omega
  all_goals
    rw [hframe', hframe]
    rfl

theorem spawn_steps {build : NodeId → Node} {partitions : Option Nat} {s : Option ScopeId}
    (h : g.spawn build partitions s = .ok (id, g')) : ∃ g₁ g₂, g.allocate .node build = .ok (id, g₁) ∧
      (partitions = none ∧ g₂ = g₁ ∨ ∃ k, partitions = some k ∧ g₁.addInternalScope id k = .ok g₂) ∧
      (s = none ∧ g' = g₂.enlist id ∨ ∃ t, s = some t ∧ (g₂.enlist id).insertIntoScope id t = .ok g') := by
  simp only [spawn, bind_eq_ok] at h
  obtain ⟨⟨id', g₁⟩, hid, h⟩ := h
  cases partitions with
  | none =>
    obtain ⟨_, ⟨⟩, h⟩ := bind_eq_ok.1 h
    cases s with
    | none =>
      cases h
      exact ⟨g₁, g₁, hid, .inl ⟨rfl, rfl⟩, .inl ⟨rfl, rfl⟩⟩
    | some t =>
      obtain ⟨g₃, hg₃, ⟨⟩⟩ := bind_eq_ok.1 h
      exact ⟨g₁, g₁, hid, .inl ⟨rfl, rfl⟩, .inr ⟨t, rfl, hg₃⟩⟩
  | some k =>
    obtain ⟨g₂, hg₂, h⟩ := bind_eq_ok.1 h
    cases s with
    | none =>
      cases h
      exact ⟨g₁, g₂, hid, .inr ⟨k, rfl, hg₂⟩, .inl ⟨rfl, rfl⟩⟩
    | some t =>
      obtain ⟨g₃, hg₃, ⟨⟩⟩ := bind_eq_ok.1 h
      exact ⟨g₁, g₂, hid, .inr ⟨k, rfl, hg₂⟩, .inr ⟨t, rfl, hg₃⟩⟩

theorem spawn_eq {build : NodeId → Node} {partitions : Option Nat} {s : Option ScopeId}
    (h : g.spawn build partitions s = .ok (id, g')) (hbuild : ∀ id, (build id).internalScope = none) :
    ∃ n ps g₁, AddsNode g id n ps g₁ ∧ n = { build id with internalScope := n.internalScope } ∧
      partitions = n.internalScope.map (fun _ => ps.length) ∧ g₁.root = g.root ∧
      (s = none ∧ g' = g₁ ∨ ∃ t, s = some t ∧ g₁.insertIntoScope id t = .ok g') := by
  obtain ⟨g₁, g₂, hid, ⟨rfl, rfl⟩ | ⟨k, rfl, hg₂⟩, hplaced⟩ := spawn_steps h
  · obtain ⟨haddsNode, hroot⟩ := addsNode_plain hid (hbuild id)
    exact ⟨build id, [], _, haddsNode, rfl, by rw [hbuild id, Option.map_none], hroot, hplaced⟩
  · obtain ⟨i, ps, hlength, haddsNode, hroot⟩ := addsNode_block hid hg₂
    exact ⟨_, ps, _, haddsNode, rfl, congrArg some hlength.symm, hroot, hplaced⟩

structure RemovesNode (g : Graph) (id : NodeId) (inner : List ScopeId) (g' : Graph) : Prop where
  nodeAt? : ∀ x, g'.nodeAt? x = if x = id then none else g.nodeAt? x
  scopeAt? : ∀ t, g'.scopeAt? t = if t ∈ inner then none else g.scopeAt? t
  valueLinks : g'.valueLinks = g.valueLinks
  flowLinks : g'.flowLinks = g.flowLinks
  nodes : g'.nodes = g.nodes.filter (· != id)
  events : g'.events = g.events ++ [.nodeRemoved id]
  ids : g'.ids = g.ids
  root : g'.root = g.root
  library : g'.library = g.library
  config : g'.config = g.config

theorem removeScope_eq {s : ScopeId} (h : g.removeScope s = .ok g') :
    (∀ x, g'.nodeAt? x = g.nodeAt? x) ∧ (∀ t, g'.scopeAt? t = if t = s then none else g.scopeAt? t) ∧
      g' = { g with arena := g'.arena } := by
  unfold removeScope at h
  split at h
  next arena hdestroy =>
    cases h
    obtain ⟨hscopes, hnodes⟩ := Arena.item?_destroy hdestroy
    exact ⟨hnodes .node (by decide), hscopes, rfl⟩
  next => cases h

theorem removeScopes_eq {inner : List ScopeId} (h : inner.foldlM removeScope g = .ok g') :
    (∀ x, g'.nodeAt? x = g.nodeAt? x) ∧ (∀ t, g'.scopeAt? t = if t ∈ inner then none else g.scopeAt? t) ∧
      g' = { g with arena := g'.arena } := by
  induction inner generalizing g with
  | nil =>
    cases h
    exact ⟨fun _ => rfl, fun _ => rfl, rfl⟩
  | cons s inner ih =>
    simp only [List.foldlM_cons, bind_eq_ok] at h
    obtain ⟨g₁, hg₁, h⟩ := h
    obtain ⟨hnodes, hscopes, hframe⟩ := removeScope_eq hg₁
    obtain ⟨hnodes', hscopes', hframe'⟩ := ih h
    refine ⟨fun x => (hnodes' x).trans (hnodes x), fun t => ?_, ?_⟩
    · rw [hscopes', hscopes]
      by_cases ht : t = s <;> by_cases hmem : t ∈ inner <;> simp [ht, hmem]
    · rw [hframe', hframe]

def drop (g : Graph) (id : NodeId) : Graph :=
  { g with nodes := g.nodes.filter (· != id), arena := g.arena.erase id.raw }.emit (.nodeRemoved id)

theorem removesNode_drop {inner : List ScopeId} {n : Node} (hn : g.nodeAt? id = some n)
    (h : inner.foldlM removeScope g = .ok g') : RemovesNode g id inner (g'.drop id) := by
  obtain ⟨hnodes, hscopes, hframe⟩ := removeScopes_eq h
  refine ⟨fun x => ?_, fun t => ?_, ?_, ?_, ?_, ?_, ?_, ?_, ?_, ?_⟩
  · refine (Arena.item?_erase x).trans ?_
    by_cases hx : x = id
    · rw [if_pos hx, if_pos (congrArg Handle.raw hx)]
    · rw [if_neg hx, if_neg fun hraw => hx (Handle.ext hraw)]
      exact hnodes x
  · exact (Arena.item?_erase_of_ne ((hnodes id).trans hn) (by decide) t).trans (hscopes t)
  all_goals
    rw [hframe]
    rfl

end FlowGraph.Graph
