import FlowGraph.Proofs.Changes
import FlowGraph.Proofs.Growth

/-!
# Nodes and scopes agree

They agree about who is where: the children of a scope are the nodes that say they are in it. What
a scope declares are variables among its children, one for each name, and its head is one of its children.
Nothing is said of a node whose scope is gone.
-/

namespace FlowGraph.Graph

structure ScopeMatchesNodes (g : Graph) (s : ScopeId) (sc : Scope) : Prop where
  child : ∀ c ∈ sc.children, ∃ n, g.nodeAt? c = some n ∧ n.scope = some s
  children_nodup : sc.children.Nodup
  declared : ∀ v ∈ sc.declared, v ∈ sc.children ∧ ∀ n, g.nodeAt? v = some n → n.isVariable = true
  declared_nodup : sc.declared.Nodup
  names : ∀ v ∈ sc.declared, ∀ w ∈ sc.declared, ∀ n m, g.nodeAt? v = some n → g.nodeAt? w = some m →
    n.name = m.name → v = w
  head : ∀ id ∈ sc.head, id ∈ sc.children

structure ScopesMatchNodes (g : Graph) : Prop where
  scopeMatchesNodes {s : ScopeId} {sc : Scope} : g.scopeAt? s = some sc → ScopeMatchesNodes g s sc
  listed {id : NodeId} {n : Node} {s : ScopeId} {sc : Scope} : g.nodeAt? id = some n → n.scope = some s →
    g.scopeAt? s = some sc → id ∈ sc.children

variable {g g' : Graph} {id : NodeId} {s : ScopeId} {n : Node} {sc : Scope}

namespace ScopeMatchesNodes

theorem congr (h : ScopeMatchesNodes g s sc) (hsame : ∀ c ∈ sc.children, ∀ n, g.nodeAt? c = some n →
    ∃ n', g'.nodeAt? c = some n' ∧ n'.scope = n.scope ∧ n'.kind = n.kind ∧ n'.name = n.name) :
    ScopeMatchesNodes g' s sc := by
  have hback {c : NodeId} (hc : c ∈ sc.children) {n' : Node} (hn' : g'.nodeAt? c = some n') :
      ∃ n, g.nodeAt? c = some n ∧ n'.kind = n.kind ∧ n'.name = n.name := by
    obtain ⟨n, hn, -⟩ := h.child c hc
    obtain ⟨n'', hn'', -, hkind, hname⟩ := hsame c hc n hn
    obtain rfl : n'' = n' := Option.some.inj (hn''.symm.trans hn')
    exact ⟨n, hn, hkind, hname⟩
  refine ⟨?_, h.children_nodup, ?_, h.declared_nodup, ?_, h.head⟩
  · intro c hc
    obtain ⟨n, hn, hscope⟩ := h.child c hc
    obtain ⟨n', hn', hscope', -⟩ := hsame c hc n hn
    exact ⟨n', hn', hscope'.trans hscope⟩
  · intro v hv
    obtain ⟨hchild, hvar⟩ := h.declared v hv
    refine ⟨hchild, fun n' hn' => ?_⟩
    obtain ⟨n, hn, hkind, -⟩ := hback hchild hn'
    have := hvar n hn
    rwa [Node.isVariable, ← hkind] at this
  · intro v hv w hw n' m' hn' hm' hname
    obtain ⟨n, hn, -, hnname⟩ := hback (h.declared v hv).1 hn'
    obtain ⟨m, hm, -, hmname⟩ := hback (h.declared w hw).1 hm'
    exact h.names v hv w hw n m hn hm (by rw [← hnname, ← hmname, hname])

theorem addChild (h : ScopeMatchesNodes g s sc) (hid : ∃ n, g.nodeAt? id = some n ∧ n.scope = some s)
    (hnew : id ∉ sc.children) : ScopeMatchesNodes g s (sc.addChild id) := by
  refine ⟨?_, ?_, ?_, h.declared_nodup, h.names, ?_⟩
  · intro c hc
    rcases List.mem_append.1 hc with hc | hc
    · exact h.child c hc
    · rw [List.mem_singleton.1 hc]
      exact hid
  · refine List.nodup_append.2 ⟨h.children_nodup, by simp, ?_⟩
    rintro c hc d hd rfl
    rw [List.mem_singleton.1 hd] at hc
    exact hnew hc
  · intro v hv
    exact ⟨List.mem_append_left _ (h.declared v hv).1, (h.declared v hv).2⟩
  · intro c hc
    exact List.mem_append_left _ (h.head c hc)

theorem forget (h : ScopeMatchesNodes g s sc) : ScopeMatchesNodes g s (sc.forget id) := by
  have hkeep {cs : List NodeId} {c : NodeId} : c ∈ cs.filter (· != id) ↔ c ∈ cs ∧ c ≠ id := by simp
  refine ⟨?_, h.children_nodup.filter _, ?_, h.declared_nodup.filter _, ?_, ?_⟩
  · intro c hc
    exact h.child c (hkeep.1 hc).1
  · intro v hv
    obtain ⟨hv, hne⟩ := hkeep.1 hv
    exact ⟨hkeep.2 ⟨(h.declared v hv).1, hne⟩, (h.declared v hv).2⟩
  · intro v hv w hw
    exact h.names v (hkeep.1 hv).1 w (hkeep.1 hw).1
  · intro c hc
    simp only [Scope.forget] at hc
    split at hc
    next => cases hc
    next hne =>
      refine hkeep.2 ⟨h.head c hc, ?_⟩
      rintro rfl
      exact hne hc

theorem declare (h : ScopeMatchesNodes g s sc) (hchild : id ∈ sc.children) (hn : g.nodeAt? id = some n)
    (hvar : n.isVariable = true)
    (hfree : ∀ v ∈ sc.declared, ∃ m, g.nodeAt? v = some m ∧ m.name ≠ n.name) :
    ScopeMatchesNodes g s (sc.declare id) := by
  have hself {m : Node} (hm : g.nodeAt? id = some m) : m = n := Option.some.inj (hm.symm.trans hn)
  have hnew {v : NodeId} (hv : v ∈ sc.declared) {m : Node} (hm : g.nodeAt? v = some m) : m.name ≠ n.name := by
    obtain ⟨m', hm', hne⟩ := hfree v hv
    rwa [Option.some.inj (hm.symm.trans hm')]
  refine ⟨h.child, h.children_nodup, ?_, ?_, ?_, h.head⟩
  · intro v hv
    rcases List.mem_append.1 hv with hv | hv
    · exact h.declared v hv
    · rw [List.mem_singleton.1 hv]
      exact ⟨hchild, fun m hm => hself hm ▸ hvar⟩
  · refine List.nodup_append.2 ⟨h.declared_nodup, by simp, ?_⟩
    rintro v hv w hw rfl
    rw [List.mem_singleton.1 hw] at hv
    exact hnew hv hn rfl
  · intro v hv w hw m m' hm hm' hname
    rcases List.mem_append.1 hv with hv | hv <;> rcases List.mem_append.1 hw with hw | hw
    · exact h.names v hv w hw m m' hm hm' hname
    · rw [List.mem_singleton.1 hw] at hm'
      rw [hself hm'] at hname
      exact (hnew hv hm hname).elim
    · rw [List.mem_singleton.1 hv] at hm
      rw [hself hm] at hname
      exact (hnew hw hm' hname.symm).elim
    · rw [List.mem_singleton.1 hv, List.mem_singleton.1 hw]

theorem lead (h : ScopeMatchesNodes g s sc) {head : Option NodeId} (hhead : ∀ id ∈ head, id ∈ sc.children) :
    ScopeMatchesNodes g s { sc with head } :=
  ⟨h.child, h.children_nodup, h.declared, h.declared_nodup, h.names, hhead⟩

end ScopeMatchesNodes

theorem findVariable_eq_none {name : String} {recurse : Bool} (h : g.findVariable s name recurse = .ok none)
    (hsc : g.scopeAt? s = some sc) : ∀ v ∈ sc.declared, ∃ m, g.nodeAt? v = some m ∧ m.name ≠ name := by
  intro v hv
  simp only [findVariable, walkBound, findVariableWithin, bind_eq_ok, scope_eq_ok_iff] at h
  obtain ⟨sc', hsc', found, hfound, h⟩ := h
  obtain rfl : sc = sc' := Option.some.inj (hsc.symm.trans hsc')
  cases found with
  | some w => cases h
  | none =>
    have hpass := of_findM?_eq_none hfound hv
    simp only [bind_eq_ok, node_eq_ok_iff, pure_eq_ok, beq_eq_false_iff_ne] at hpass
    exact hpass

namespace ScopesMatchNodes

theorem of_change (h : ScopesMatchNodes g) (hothers : ∀ t, t ≠ s → g'.scopeAt? t = g.scopeAt? t)
    (hs : ∀ sc, g'.scopeAt? s = some sc → ScopeMatchesNodes g' s sc)
    (hlisted : ∀ id n t sc, g'.nodeAt? id = some n → n.scope = some t → g'.scopeAt? t = some sc →
      id ∈ sc.children)
    (hsame : ∀ c n, g.nodeAt? c = some n → n.scope ≠ some s → n.scope ≠ none → g'.nodeAt? c = some n) :
    ScopesMatchNodes g' := by
  refine ⟨?_, hlisted _ _ _ _⟩
  intro t sc hsc
  by_cases ht : t = s
  · subst ht
    exact hs sc hsc
  · rw [hothers t ht] at hsc
    refine (h.scopeMatchesNodes hsc).congr fun c hc n hn => ⟨n, hsame c n hn ?_ ?_, rfl, rfl, rfl⟩
    all_goals
      obtain ⟨m, hm, hscope⟩ := (h.scopeMatchesNodes hsc).child c hc
      obtain rfl : n = m := Option.some.inj (hn.symm.trans hm)
      rw [hscope]
    · exact fun he => ht (Option.some.inj he)
    · exact nofun

theorem sameFrames (h : ScopesMatchNodes g) (hsameFrames : SameFrames g g') : ScopesMatchNodes g' := by
  refine ⟨?_, ?_⟩
  · intro t sc hsc
    rw [hsameFrames.scopes] at hsc
    refine (h.scopeMatchesNodes hsc).congr fun c _ n hn => ?_
    obtain ⟨n', hn', hframe⟩ := hsameFrames.node hn
    obtain ⟨hscope, hkind, hname, -⟩ := Node.of_frame hframe
    exact ⟨n', hn', hscope, hkind, hname⟩
  · intro x n t sc hn hscope hsc
    rw [hsameFrames.scopes] at hsc
    obtain ⟨n', hn', hframe⟩ := hsameFrames.symm.node hn
    exact h.listed hn' ((Node.of_frame hframe).1.trans hscope) hsc

theorem place (h : ScopesMatchNodes g) (hn : g.nodeAt? id = some n) (hnone : n.scope = none)
    (hsc : g.scopeAt? s = some sc) : ScopesMatchNodes (g.place id s) := by
  have hsc' : (g.place id s).scopeAt? s = some (sc.addChild id) := scopeAt?_place_self hsc
  have hn' : (g.place id s).nodeAt? id = some { n with scope := some s } := nodeAt?_place_self hn
  have hothers {t : ScopeId} (ht : t ≠ s) : (g.place id s).scopeAt? t = g.scopeAt? t := by
    rw [scopeAt?_place, if_neg ht]
  have hstays {x : NodeId} (hx : x ≠ id) : (g.place id s).nodeAt? x = g.nodeAt? x := by
    rw [nodeAt?_place, if_neg hx]
  have hnew : id ∉ sc.children := by
    intro hmem
    obtain ⟨m, hm, hscope⟩ := (h.scopeMatchesNodes hsc).child id hmem
    obtain rfl : n = m := Option.some.inj (hn.symm.trans hm)
    rw [hnone] at hscope
    cases hscope
  refine h.of_change (fun t => hothers) ?_ ?_ ?_
  · intro sc₁ hsc₁
    obtain rfl : sc.addChild id = sc₁ := Option.some.inj (hsc'.symm.trans hsc₁)
    refine ScopeMatchesNodes.addChild ?_ ⟨_, hn', rfl⟩ hnew
    refine (h.scopeMatchesNodes hsc).congr fun c hc m hm => ⟨m, ?_, rfl, rfl, rfl⟩
    rw [hstays]
    · exact hm
    · rintro rfl
      exact hnew hc
  · intro x m t sc₁ hm hscope hsc₁
    by_cases hx : x = id
    · subst hx
      obtain rfl : { n with scope := some s } = m := Option.some.inj (hn'.symm.trans hm)
      cases hscope
      obtain rfl : sc.addChild x = sc₁ := Option.some.inj (hsc'.symm.trans hsc₁)
      simp [Scope.addChild]
    · rw [hstays hx] at hm
      by_cases ht : t = s
      · subst ht
        obtain rfl : sc.addChild id = sc₁ := Option.some.inj (hsc'.symm.trans hsc₁)
        exact List.mem_append_left _ (h.listed hm hscope hsc)
      · rw [hothers ht] at hsc₁
        exact h.listed hm hscope hsc₁
  · intro c m hm _ hscoped
    rw [hstays]
    · exact hm
    · rintro rfl
      obtain rfl : n = m := Option.some.inj (hn.symm.trans hm)
      exact hscoped hnone

theorem displace (h : ScopesMatchNodes g) (hn : g.nodeAt? id = some n) (hscope : n.scope = some s)
    (hsc : g.scopeAt? s = some sc) : ScopesMatchNodes (g.displace id s) := by
  have hsc' : (g.displace id s).scopeAt? s = some (sc.forget id) := scopeAt?_displace_self hsc
  have hn' : (g.displace id s).nodeAt? id = some { n with scope := none } := nodeAt?_displace_self hn
  have hothers {t : ScopeId} (ht : t ≠ s) : (g.displace id s).scopeAt? t = g.scopeAt? t := by
    rw [scopeAt?_displace, if_neg ht]
  have hstays {x : NodeId} (hx : x ≠ id) : (g.displace id s).nodeAt? x = g.nodeAt? x := by
    rw [nodeAt?_displace, if_neg hx]
  refine h.of_change (fun t => hothers) ?_ ?_ ?_
  · intro sc₁ hsc₁
    obtain rfl : sc.forget id = sc₁ := Option.some.inj (hsc'.symm.trans hsc₁)
    have hforget : ScopeMatchesNodes g s (sc.forget id) := (h.scopeMatchesNodes hsc).forget
    refine hforget.congr fun c hc m hm => ⟨m, ?_, rfl, rfl, rfl⟩
    rw [hstays]
    · exact hm
    · rintro rfl
      simp [Scope.forget] at hc
  · intro x m t sc₁ hm hxscope hsc₁
    have hx : x ≠ id := by
      rintro rfl
      obtain rfl : { n with scope := none } = m := Option.some.inj (hn'.symm.trans hm)
      cases hxscope
    rw [hstays hx] at hm
    by_cases ht : t = s
    · subst ht
      obtain rfl : sc.forget id = sc₁ := Option.some.inj (hsc'.symm.trans hsc₁)
      exact List.mem_filter.2 ⟨h.listed hm hxscope hsc, by simpa using hx⟩
    · rw [hothers ht] at hsc₁
      exact h.listed hm hxscope hsc₁
  · intro c m hm helsewhere _
    rw [hstays]
    · exact hm
    · rintro rfl
      obtain rfl : n = m := Option.some.inj (hn.symm.trans hm)
      exact helsewhere hscope

theorem modifyScope (h : ScopesMatchNodes g) {f : Scope → Scope} (hsc : g.scopeAt? s = some sc)
    (hchildren : (f sc).children = sc.children) (hf : ScopeMatchesNodes g s (f sc)) :
    ScopesMatchNodes (g.modifyScope s f) := by
  have hsc' : (g.modifyScope s f).scopeAt? s = some (f sc) := by
    rw [scopeAt?_modifyScope, if_pos rfl, hsc]
    rfl
  refine h.of_change (s := s) ?_ ?_ ?_ ?_
  · intro t ht
    rw [scopeAt?_modifyScope, if_neg ht]
  · intro sc₁ hsc₁
    obtain rfl : f sc = sc₁ := Option.some.inj (hsc'.symm.trans hsc₁)
    exact hf.congr fun c _ m hm => ⟨m, by rwa [nodeAt?_modifyScope], rfl, rfl, rfl⟩
  · intro x m t sc₁ hm hscope hsc₁
    rw [nodeAt?_modifyScope] at hm
    by_cases ht : t = s
    · subst ht
      obtain rfl : f sc = sc₁ := Option.some.inj (hsc'.symm.trans hsc₁)
      rw [hchildren]
      exact h.listed hm hscope hsc
    · rw [scopeAt?_modifyScope, if_neg ht] at hsc₁
      exact h.listed hm hscope hsc₁
  · intro c m hm _ _
    rwa [nodeAt?_modifyScope]

theorem move {may : Graph → NodeId → ScopeId → Prop} (h : ScopesMatchNodes g) (hmove : Move may g g') :
    ScopesMatchNodes g' := by
  cases hmove with
  | note e => exact h.sameFrames (sameFrames_emit e)
  | enter hn hnone hsc _ => exact h.place hn hnone hsc
  | leave hn hscope hsc => exact h.displace hn hscope hsc
  | declare hsc hchild hn hvar hfree =>
    refine h.modifyScope hsc rfl ?_
    exact (h.scopeMatchesNodes hsc).declare hchild hn hvar (findVariable_eq_none hfree hsc)
  | lead hsc hhead =>
    refine h.modifyScope hsc rfl ((h.scopeMatchesNodes hsc).lead fun id hid => ?_)
    obtain ⟨⟨n, hn, hscope⟩, -⟩ := hhead id hid
    exact h.listed hn hscope hsc

theorem change {may : Graph → NodeId → ScopeId → Prop} (h : ScopesMatchNodes g) (hchange : Change may g g') :
    ScopesMatchNodes g' := by
  rcases hchange.move_or_sameFrames with hmove | hsameFrames
  · exact h.move hmove
  · exact h.sameFrames hsameFrames

theorem changes {may : Graph → NodeId → ScopeId → Prop} (h : ScopesMatchNodes g) (hchanges : Changes may g g') :
    ScopesMatchNodes g' := by
  induction hchanges with
  | refl => exact h
  | tail _ hchange ih => exact ih.change hchange

theorem addsNode {ps : List ScopeId} (h : ScopesMatchNodes g) (hs : AddsNode g id n ps g') (hnone : n.scope = none)
    (hissued : ∀ x m t, g.nodeAt? x = some m → m.scope = some t → n.internalScope ≠ some t ∧ t ∉ ps) :
    ScopesMatchNodes g' := by
  have hstays {x : NodeId} {m : Node} (hm : g.nodeAt? x = some m) : g'.nodeAt? x = some m := by
    rw [hs.nodeAt?, if_neg, hm]
    rintro rfl
    cases hs.fresh.symm.trans hm
  have hempty {t : ScopeId} {sc : Scope} (hchildren : sc.children = []) (hdeclared : sc.declared = [])
      (hhead : sc.head = none) : ScopeMatchesNodes g' t sc := by
    refine ⟨?_, ?_, ?_, ?_, ?_, ?_⟩ <;> simp [hchildren, hdeclared, hhead]
  refine ⟨?_, ?_⟩
  · intro t sc hsc
    by_cases hinternal : n.internalScope = some t
    · rw [hs.internal t hinternal] at hsc
      cases hsc
      exact hempty rfl rfl rfl
    by_cases hpartition : t ∈ ps
    · obtain ⟨i, hi⟩ := List.getElem?_of_mem hpartition
      cases hblock : n.internalScope with
      | none =>
        rw [hs.unsplit hblock] at hpartition
        cases hpartition
      | some internal =>
        rw [hs.partition internal hblock i t hi] at hsc
        cases hsc
        exact hempty rfl rfl rfl
    rw [hs.others t hinternal hpartition] at hsc
    exact (h.scopeMatchesNodes hsc).congr fun c _ m hm => ⟨m, hstays hm, rfl, rfl, rfl⟩
  · intro x m t sc hm hscope hsc
    rw [hs.nodeAt?] at hm
    split at hm
    next =>
      cases hm
      rw [hnone] at hscope
      cases hscope
    next =>
      obtain ⟨hinternal, hpartition⟩ := hissued x m t hm hscope
      rw [hs.others t hinternal hpartition] at hsc
      exact h.listed hm hscope hsc

theorem removesNode {inner : List ScopeId} (h : ScopesMatchNodes g) (hs : RemovesNode g id inner g')
    (hn : g.nodeAt? id = some n) (hnone : n.scope = none) : ScopesMatchNodes g' := by
  have hscopes {t : ScopeId} {sc : Scope} (hsc : g'.scopeAt? t = some sc) : g.scopeAt? t = some sc := by
    rw [hs.scopeAt?] at hsc
    split at hsc
    next => cases hsc
    next => exact hsc
  refine ⟨?_, ?_⟩
  · intro t sc hsc
    refine (h.scopeMatchesNodes (hscopes hsc)).congr fun c hc m hm => ⟨m, ?_, rfl, rfl, rfl⟩
    rw [hs.nodeAt?, if_neg, hm]
    rintro rfl
    obtain ⟨m', hm', hscope⟩ := (h.scopeMatchesNodes (hscopes hsc)).child c hc
    obtain rfl : n = m' := Option.some.inj (hn.symm.trans hm')
    rw [hnone] at hscope
    cases hscope
  · intro x m t sc hm hscope hsc
    rw [hs.nodeAt?] at hm
    split at hm
    next => cases hm
    next => exact h.listed hm hscope (hscopes hsc)

end ScopesMatchNodes

end FlowGraph.Graph
