import FlowGraph.Proofs.Changes
import FlowGraph.Proofs.Growth

/-!
# Ownership

Every scope is an inner scope of a node: the internal scope of its owner, or a partition of that. Which scopes a
node owns is settled when it is created; nothing but its destruction changes it.
-/

namespace FlowGraph

def Node.skeleton (n : Node) : Node := { n with properties := {}, slots := [], scope := none }

def Scope.skeleton (sc : Scope) : Scope := { sc with children := [], declared := [], head := none }

theorem Node.of_skeleton {n n' : Node} (h : n'.skeleton = n.skeleton) :
    n'.kind = n.kind ∧ n'.name = n.name ∧ n'.internalScope = n.internalScope := by
  simp only [skeleton, Node.mk.injEq] at h
  obtain ⟨-, hkind, hname, -, -, -, hinternal, -⟩ := h
  exact ⟨hkind, hname, hinternal⟩

theorem Scope.of_skeleton {sc sc' : Scope} (h : sc'.skeleton = sc.skeleton) :
    sc'.owner = sc.owner ∧ sc'.kind = sc.kind ∧ sc'.partitions = sc.partitions := by
  simp only [skeleton, Scope.mk.injEq] at h
  obtain ⟨-, howner, hkind, hpartitions, -⟩ := h
  exact ⟨howner, hkind, hpartitions⟩

namespace Graph

variable {g g' : Graph} {id : NodeId}

structure SurvivorsKept (g g' : Graph) : Prop where
  node {x : NodeId} {n' : Node} : g'.nodeAt? x = some n' → ∃ n, g.nodeAt? x = some n ∧ n'.skeleton = n.skeleton
  scope {t : ScopeId} {sc' : Scope} : g'.scopeAt? t = some sc' →
    ∃ sc, g.scopeAt? t = some sc ∧ sc'.skeleton = sc.skeleton
  root : g'.root = g.root
  ids : g'.ids = g.ids
  config : g'.config = g.config
  library : g'.library = g.library

structure AllKept (g g' : Graph) : Prop extends SurvivorsKept g g' where
  live_node {x : NodeId} : (g.nodeAt? x).isSome → (g'.nodeAt? x).isSome
  live_scope {t : ScopeId} : (g.scopeAt? t).isSome → (g'.scopeAt? t).isSome
  nodes : g'.nodes = g.nodes

theorem SurvivorsKept.refl (g : Graph) : SurvivorsKept g g :=
  ⟨fun h => ⟨_, h, rfl⟩, fun h => ⟨_, h, rfl⟩, rfl, rfl, rfl, rfl⟩

theorem SurvivorsKept.trans {g₁ g₂ g₃ : Graph} (h : SurvivorsKept g₁ g₂) (h' : SurvivorsKept g₂ g₃) :
    SurvivorsKept g₁ g₃ := by
  refine ⟨?_, ?_, h'.root.trans h.root, h'.ids.trans h.ids, h'.config.trans h.config,
    h'.library.trans h.library⟩
  · intro x n₃ hn₃
    obtain ⟨n₂, hn₂, he₂⟩ := h'.node hn₃
    obtain ⟨n₁, hn₁, he₁⟩ := h.node hn₂
    exact ⟨n₁, hn₁, he₂.trans he₁⟩
  · intro t sc₃ hsc₃
    obtain ⟨sc₂, hsc₂, he₂⟩ := h'.scope hsc₃
    obtain ⟨sc₁, hsc₁, he₁⟩ := h.scope hsc₂
    exact ⟨sc₁, hsc₁, he₂.trans he₁⟩

theorem AllKept.refl (g : Graph) : AllKept g g := ⟨.refl g, id, id, rfl⟩

theorem AllKept.trans {g₁ g₂ g₃ : Graph} (h : AllKept g₁ g₂) (h' : AllKept g₂ g₃) : AllKept g₁ g₃ :=
  ⟨h.toSurvivorsKept.trans h'.toSurvivorsKept, h'.live_node ∘ h.live_node, h'.live_scope ∘ h.live_scope,
    h'.nodes.trans h.nodes⟩

theorem allKept_modifyNode {f : Node → Node} (hf : ∀ n, (f n).skeleton = n.skeleton) :
    AllKept g (g.modifyNode id f) := by
  have hview (x : NodeId) : (g.modifyNode id f).nodeAt? x = if x = id then (g.nodeAt? x).map f else g.nodeAt? x :=
    nodeAt?_modifyNode f x
  refine ⟨⟨?_, ?_, rfl, rfl, rfl, rfl⟩, ?_, ?_, rfl⟩
  · intro x n' hn'
    rw [hview] at hn'
    split at hn'
    next =>
      obtain ⟨n, hn, rfl⟩ := Option.map_eq_some_iff.1 hn'
      exact ⟨n, hn, hf n⟩
    next => exact ⟨n', hn', rfl⟩
  · intro t sc' hsc'
    rw [scopeAt?_modifyNode] at hsc'
    exact ⟨sc', hsc', rfl⟩
  · intro x hx
    rw [hview]
    split
    · rwa [Option.isSome_map]
    · exact hx
  · intro t ht
    rwa [scopeAt?_modifyNode]

theorem allKept_modifyScope {s : ScopeId} {f : Scope → Scope} (hf : ∀ sc, (f sc).skeleton = sc.skeleton) :
    AllKept g (g.modifyScope s f) := by
  have hview (t : ScopeId) : (g.modifyScope s f).scopeAt? t = if t = s then (g.scopeAt? t).map f else g.scopeAt? t :=
    scopeAt?_modifyScope f t
  refine ⟨⟨?_, ?_, rfl, rfl, rfl, rfl⟩, ?_, ?_, rfl⟩
  · intro x n' hn'
    rw [nodeAt?_modifyScope] at hn'
    exact ⟨n', hn', rfl⟩
  · intro t sc' hsc'
    rw [hview] at hsc'
    split at hsc'
    next =>
      obtain ⟨sc, hsc, rfl⟩ := Option.map_eq_some_iff.1 hsc'
      exact ⟨sc, hsc, hf sc⟩
    next => exact ⟨sc', hsc', rfl⟩
  · intro x hx
    rwa [nodeAt?_modifyScope]
  · intro t ht
    rw [hview]
    split
    · rwa [Option.isSome_map]
    · exact ht

theorem allKept_modifyLinks (kind : SlotKind) (f : List Link → List Link) : AllKept g (g.modifyLinks kind f) := by
  cases kind <;> exact ⟨⟨fun h => ⟨_, h, rfl⟩, fun h => ⟨_, h, rfl⟩, rfl, rfl, rfl, rfl⟩, id, id, rfl⟩

theorem allKept_emit (e : Event) : AllKept g (g.emit e) :=
  ⟨⟨fun h => ⟨_, h, rfl⟩, fun h => ⟨_, h, rfl⟩, rfl, rfl, rfl, rfl⟩, id, id, rfl⟩

theorem allKept_modifySlot (r : SlotRef) (f : Slot → Slot) : AllKept g (g.modifySlot r f) :=
  allKept_modifyNode fun _ => by rfl

theorem Move.allKept {may : Graph → NodeId → ScopeId → Prop} (h : Move may g g') : AllKept g g' := by
  cases h with
  | note e => exact allKept_emit e
  | enter =>
    exact (allKept_modifyNode (f := ({ · with scope := _ })) fun _ => by rfl).trans
      (allKept_modifyScope fun _ => by rfl)
  | leave =>
    exact (allKept_modifyNode (f := ({ · with scope := _ })) fun _ => by rfl).trans
      (allKept_modifyScope fun _ => by rfl)
  | declare => exact allKept_modifyScope fun _ => by rfl
  | lead => exact allKept_modifyScope fun _ => by rfl

theorem Change.allKept {may : Graph → NodeId → ScopeId → Prop} (h : Change may g g') : AllKept g g' := by
  cases h with
  | move h => exact h.allKept
  | retouch => exact allKept_modifyNode fun _ => by rfl
  | link =>
    exact (allKept_modifySlot ..).trans ((allKept_modifySlot ..).trans
      ((allKept_modifyLinks ..).trans (allKept_emit _)))
  | unlink =>
    exact (allKept_modifyLinks ..).trans ((allKept_modifySlot ..).trans
      ((allKept_modifySlot ..).trans (allKept_emit _)))

theorem Changes.allKept {may : Graph → NodeId → ScopeId → Prop} (h : Changes may g g') : AllKept g g' := by
  induction h with
  | refl => exact .refl _
  | tail _ hchange ih => exact ih.trans hchange.allKept

theorem AllKept.node_of {x : NodeId} {n : Node} (h : AllKept g g') (hn : g.nodeAt? x = some n) :
    ∃ n', g'.nodeAt? x = some n' ∧ n'.skeleton = n.skeleton := by
  obtain ⟨n', hn'⟩ := Option.isSome_iff_exists.1 (h.live_node (by rw [hn]; rfl))
  obtain ⟨m, hm, hskeleton⟩ := h.node hn'
  obtain rfl : n = m := Option.some.inj (hn.symm.trans hm)
  exact ⟨n', hn', hskeleton⟩

theorem AllKept.scope_of {t : ScopeId} {sc : Scope} (h : AllKept g g') (hsc : g.scopeAt? t = some sc) :
    ∃ sc', g'.scopeAt? t = some sc' ∧ sc'.skeleton = sc.skeleton := by
  obtain ⟨sc', hsc'⟩ := Option.isSome_iff_exists.1 (h.live_scope (by rw [hsc]; rfl))
  obtain ⟨m, hm, hskeleton⟩ := h.scope hsc'
  obtain rfl : sc = m := Option.some.inj (hsc.symm.trans hm)
  exact ⟨sc', hsc', hskeleton⟩

structure ScopesOwned (g : Graph) : Prop where
  internal {id : NodeId} {n : Node} {i : ScopeId} : g.nodeAt? id = some n → n.internalScope = some i →
    ∃ sc, g.scopeAt? i = some sc ∧ sc.owner = id ∧ sc.kind = .internal ∧
      ∀ (j : Nat) p, sc.partitions[j]? = some p →
        ∃ sp, g.scopeAt? p = some sp ∧ sp.owner = id ∧ sp.kind = .partition i j
  home {s : ScopeId} {sc : Scope} : g.scopeAt? s = some sc →
    ∃ n i si, g.nodeAt? sc.owner = some n ∧ n.internalScope = some i ∧ g.scopeAt? i = some si ∧
      (s = i ∨ s ∈ si.partitions)

def RootIsEntryPoint (g : Graph) : Prop := ∃ n, g.nodeAt? g.root = some n ∧ n.kind = .entryPoint

theorem innerScopes_eq_ok_iff {inner : List ScopeId} : g.innerScopes id = .ok inner ↔
    ∃ n, g.nodeAt? id = some n ∧ (n.internalScope = none ∧ inner = [] ∨
      ∃ i sc, n.internalScope = some i ∧ g.scopeAt? i = some sc ∧ inner = i :: sc.partitions) := by
  simp only [innerScopes, bind_eq_ok, node_eq_ok_iff]
  refine exists_congr fun n => and_congr_right fun _ => ?_
  cases hi : n.internalScope with
  | none =>
    simp only [pure_eq_ok, true_and, reduceCtorEq, false_and, exists_false, or_false]
    exact eq_comm
  | some i =>
    simp only [bind_eq_ok, scope_eq_ok_iff, pure_eq_ok, reduceCtorEq, false_and, false_or,
      Option.some.injEq]
    constructor
    · rintro ⟨sc, hsc, rfl⟩
      exact ⟨i, sc, rfl, hsc, rfl⟩
    · rintro ⟨_, sc, rfl, hsc, rfl⟩
      exact ⟨sc, hsc, rfl⟩

theorem innerScopes_eq_nil_iff {inner : List ScopeId} {n : Node} (h : g.innerScopes id = .ok inner)
    (hn : g.nodeAt? id = some n) : inner = [] ↔ n.internalScope = none := by
  obtain ⟨m, hm, hcases⟩ := innerScopes_eq_ok_iff.1 h
  obtain rfl := Option.some.inj (hn.symm.trans hm)
  rcases hcases with ⟨hnone, rfl⟩ | ⟨i, sc, hi, -, rfl⟩
  · exact ⟨fun _ => hnone, fun _ => rfl⟩
  · simp [hi]

theorem ScopesOwned.innerScopes_of_survivorsKept (ho : ScopesOwned g') (hl : SurvivorsKept g g') {inner : List ScopeId}
    (h : g.innerScopes id = .ok inner) {n' : Node} (hn' : g'.nodeAt? id = some n') :
    g'.innerScopes id = .ok inner := by
  rw [innerScopes_eq_ok_iff] at h ⊢
  obtain ⟨n, hn, hinner⟩ := h
  obtain ⟨m, hm, hskeleton⟩ := hl.node hn'
  obtain rfl : n = m := Option.some.inj (hn.symm.trans hm)
  obtain ⟨-, -, hinternal⟩ := Node.of_skeleton hskeleton
  refine ⟨n', hn', ?_⟩
  rcases hinner with ⟨hnone, hinner⟩ | ⟨i, sc, hi, hsc, hinner⟩
  · exact .inl ⟨hinternal.trans hnone, hinner⟩
  · obtain ⟨sc', hsc', -⟩ := ho.internal hn' (hinternal.trans hi)
    obtain ⟨sc₁, hsc₁, hskeleton⟩ := hl.scope hsc'
    obtain rfl : sc = sc₁ := Option.some.inj (hsc.symm.trans hsc₁)
    obtain ⟨-, -, hpartitions⟩ := Scope.of_skeleton hskeleton
    exact .inr ⟨i, sc', hinternal.trans hi, hsc', by rw [hpartitions, hinner]⟩

namespace ScopesOwned

theorem allKept (h : ScopesOwned g) (hs : AllKept g g') : ScopesOwned g' := by
  refine ⟨?_, ?_⟩
  · intro x n' i hn' hi
    obtain ⟨n, hn, hskeleton⟩ := hs.node hn'
    obtain ⟨-, -, hinternal⟩ := Node.of_skeleton hskeleton
    obtain ⟨sc, hsc, howner, hkind, hpartitions⟩ := h.internal hn (hinternal.symm.trans hi)
    obtain ⟨sc', hsc', hskeleton'⟩ := hs.scope_of hsc
    obtain ⟨howner', hkind', hpartitions'⟩ := Scope.of_skeleton hskeleton'
    refine ⟨sc', hsc', howner'.trans howner, hkind'.trans hkind, ?_⟩
    intro j p hp
    rw [hpartitions'] at hp
    obtain ⟨sp, hsp, hspowner, hspkind⟩ := hpartitions j p hp
    obtain ⟨sp', hsp', hskeleton''⟩ := hs.scope_of hsp
    obtain ⟨howner'', hkind'', -⟩ := Scope.of_skeleton hskeleton''
    exact ⟨sp', hsp', howner''.trans hspowner, hkind''.trans hspkind⟩
  · intro s sc' hsc'
    obtain ⟨sc, hsc, hskeleton⟩ := hs.scope hsc'
    obtain ⟨howner, -, -⟩ := Scope.of_skeleton hskeleton
    obtain ⟨n, i, si, hn, hi, hsi, hs'⟩ := h.home hsc
    obtain ⟨n', hn', hskeleton'⟩ := hs.node_of hn
    obtain ⟨-, -, hinternal⟩ := Node.of_skeleton hskeleton'
    obtain ⟨si', hsi', hskeleton''⟩ := hs.scope_of hsi
    obtain ⟨-, -, hpartitions⟩ := Scope.of_skeleton hskeleton''
    exact ⟨n', i, si', by rw [howner, hn'], hinternal.trans hi, hsi', by rwa [hpartitions]⟩

theorem addsNode {n : Node} {ps : List ScopeId} (h : ScopesOwned g) (hs : AddsNode g id n ps g') : ScopesOwned g' := by
  have hscope {t : ScopeId} {sc : Scope} (hsc : g.scopeAt? t = some sc) : g'.scopeAt? t = some sc := by
    have hnew (hin : n.internalScope = some t ∨ t ∈ ps) : False := by
      rw [(hs.fresh_scope t hin).1] at hsc
      cases hsc
    rw [hs.others t (fun hi => hnew (.inl hi)) fun hp => hnew (.inr hp), hsc]
  have hnode {x : NodeId} {m : Node} (hm : g.nodeAt? x = some m) : g'.nodeAt? x = some m := by
    rw [hs.nodeAt?, if_neg, hm]
    rintro rfl
    cases hs.fresh.symm.trans hm
  have hself : g'.nodeAt? id = some n := by rw [hs.nodeAt?, if_pos rfl]
  refine ⟨?_, ?_⟩
  · intro x m i hm hi
    rw [hs.nodeAt?] at hm
    split at hm
    next hx =>
      cases hm
      subst hx
      exact ⟨_, hs.internal i hi, rfl, rfl, fun j p hp => ⟨_, hs.partition i hi j p hp, rfl, rfl⟩⟩
    next =>
      obtain ⟨sc, hsc, howner, hkind, hpartitions⟩ := h.internal hm hi
      refine ⟨sc, hscope hsc, howner, hkind, fun j p hp => ?_⟩
      obtain ⟨sp, hsp, hrest⟩ := hpartitions j p hp
      exact ⟨sp, hscope hsp, hrest⟩
  · intro s sc hsc
    by_cases hinternal : n.internalScope = some s
    · rw [hs.internal s hinternal] at hsc
      cases hsc
      exact ⟨n, s, _, hself, hinternal, hs.internal s hinternal, .inl rfl⟩
    by_cases hpartition : s ∈ ps
    · cases hblock : n.internalScope with
      | none =>
        rw [hs.unsplit hblock] at hpartition
        cases hpartition
      | some i =>
        obtain ⟨j, hj⟩ := List.getElem?_of_mem hpartition
        rw [hs.partition i hblock j s hj] at hsc
        cases hsc
        exact ⟨n, i, _, hself, hblock, hs.internal i hblock, .inr hpartition⟩
    rw [hs.others s hinternal hpartition] at hsc
    obtain ⟨m, i, si, hm, hi, hsi, hs'⟩ := h.home hsc
    exact ⟨m, i, si, hnode hm, hi, hscope hsi, hs'⟩

theorem live_of_inner (h : ScopesOwned g) {inner : List ScopeId} (hinner : g.innerScopes id = .ok inner) {s : ScopeId}
    (hs : s ∈ inner) : ∃ sc, g.scopeAt? s = some sc ∧ sc.owner = id := by
  obtain ⟨n, hn, ⟨-, rfl⟩ | ⟨i, si, hi, hsi, rfl⟩⟩ := innerScopes_eq_ok_iff.1 hinner
  · cases hs
  · obtain ⟨si', hsi', howner, -, hpartitions⟩ := h.internal hn hi
    obtain rfl : si = si' := Option.some.inj (hsi.symm.trans hsi')
    rcases List.mem_cons.1 hs with rfl | hs
    · exact ⟨si, hsi, howner⟩
    · obtain ⟨j, hj⟩ := List.getElem?_of_mem hs
      obtain ⟨sp, hsp, howner', -⟩ := hpartitions j s hj
      exact ⟨sp, hsp, howner'⟩

theorem mem_innerScopes (h : ScopesOwned g) {inner : List ScopeId} (hinner : g.innerScopes id = .ok inner) {s : ScopeId}
    {sc : Scope} (hsc : g.scopeAt? s = some sc) : s ∈ inner ↔ sc.owner = id := by
  obtain ⟨n, hn, hcases⟩ := innerScopes_eq_ok_iff.1 hinner
  constructor
  · intro hs
    obtain ⟨sc', hsc', howner⟩ := h.live_of_inner hinner hs
    rwa [Option.some.inj (hsc.symm.trans hsc')]
  · rintro rfl
    obtain ⟨m, i, si, hm, hi, hsi, hs⟩ := h.home hsc
    obtain rfl : n = m := Option.some.inj (hn.symm.trans hm)
    rcases hcases with ⟨hnone, -⟩ | ⟨i', si', hi', hsi', rfl⟩
    · rw [hnone] at hi
      cases hi
    · obtain rfl : i = i' := Option.some.inj (hi.symm.trans hi')
      obtain rfl : si = si' := Option.some.inj (hsi.symm.trans hsi')
      exact List.mem_cons.2 hs

theorem whole_of_part (h : ScopesOwned g) {s t : ScopeId} {i : Nat} {sc : Scope} (hsc : g.scopeAt? s = some sc)
    (hkind : sc.kind = .partition t i) : ∃ st, g.scopeAt? t = some st ∧ st.owner = sc.owner ∧ st.kind = .internal := by
  obtain ⟨n, j, sj, hn, hj, hsj, hs⟩ := h.home hsc
  obtain ⟨sj', hsj', howner, hinternal, hpartitions⟩ := h.internal hn hj
  obtain rfl : sj = sj' := Option.some.inj (hsj.symm.trans hsj')
  rcases hs with rfl | hs
  · obtain rfl : sc = sj := Option.some.inj (hsc.symm.trans hsj)
    cases hkind.symm.trans hinternal
  · obtain ⟨k, hk⟩ := List.getElem?_of_mem hs
    obtain ⟨sp, hsp, -, hspkind⟩ := hpartitions k s hk
    obtain rfl : sc = sp := Option.some.inj (hsc.symm.trans hsp)
    cases hkind.symm.trans hspkind
    exact ⟨sj, hsj, howner, hinternal⟩

theorem removesNode {inner : List ScopeId} (h : ScopesOwned g) (hs : RemovesNode g id inner g')
    (hinner : g.innerScopes id = .ok inner) : ScopesOwned g' := by
  have hscope {t : ScopeId} {sc : Scope} (hsc : g.scopeAt? t = some sc) (howner : sc.owner ≠ id) :
      g'.scopeAt? t = some sc := by
    rw [hs.scopeAt?, if_neg, hsc]
    rwa [h.mem_innerScopes hinner hsc]
  refine ⟨?_, ?_⟩
  · intro x m i hm hi
    rw [hs.nodeAt?] at hm
    split at hm
    next => cases hm
    next hx =>
      obtain ⟨sc, hsc, howner, hkind, hpartitions⟩ := h.internal hm hi
      refine ⟨sc, hscope hsc (howner ▸ hx), howner, hkind, fun j p hp => ?_⟩
      obtain ⟨sp, hsp, howner', hkind'⟩ := hpartitions j p hp
      exact ⟨sp, hscope hsp (howner' ▸ hx), howner', hkind'⟩
  · intro s sc hsc
    rw [hs.scopeAt?] at hsc
    split at hsc
    next => cases hsc
    next hs' =>
      have hne : sc.owner ≠ id := fun howner => hs' ((h.mem_innerScopes hinner hsc).2 howner)
      obtain ⟨m, i, si, hm, hi, hsi, hmem⟩ := h.home hsc
      obtain ⟨si', hsi', howner, -⟩ := h.internal hm hi
      obtain rfl : si = si' := Option.some.inj (hsi.symm.trans hsi')
      refine ⟨m, i, si, ?_, hi, hscope hsi (howner ▸ hne), hmem⟩
      rw [hs.nodeAt?, if_neg hne, hm]

end ScopesOwned

theorem RootIsEntryPoint.allKept (h : RootIsEntryPoint g) (hs : AllKept g g') : RootIsEntryPoint g' := by
  obtain ⟨n, hn, hkind⟩ := h
  obtain ⟨n', hn', hskeleton⟩ := hs.node_of hn
  exact ⟨n', by rw [hs.root, hn'], (Node.of_skeleton hskeleton).1.trans hkind⟩

theorem RootIsEntryPoint.removesNode {inner : List ScopeId} (h : RootIsEntryPoint g) (hs : RemovesNode g id inner g')
    (hroot : id ≠ g.root) :
    RootIsEntryPoint g' := by
  obtain ⟨m, hm, hkind⟩ := h
  refine ⟨m, ?_, hkind⟩
  rw [hs.root, hs.nodeAt?, if_neg hroot.symm, hm]

theorem RootIsEntryPoint.addsNode {n : Node} {ps : List ScopeId} (h : RootIsEntryPoint g) (hs : AddsNode g id n ps g')
    (hroot : g'.root = g.root) : RootIsEntryPoint g' := by
  obtain ⟨m, hm, hkind⟩ := h
  refine ⟨m, ?_, hkind⟩
  rw [hroot, hs.nodeAt?, if_neg, hm]
  intro he
  rw [he, hs.fresh] at hm
  cases hm

end Graph

end FlowGraph
