import FlowGraph.Proofs.Destruction
import FlowGraph.Proofs.Housing

/-!
# The list of nodes

It is the list of live nodes, and no identifier that a graph mentions is yet to be issued. With that, what has been
said about links, ownership and membership holds after every step, and after growth.
-/

namespace FlowGraph.Graph

structure NodesListed (g : Graph) : Prop where
  mem_nodes_iff {x : NodeId} : x ∈ g.nodes ↔ (g.nodeAt? x).isSome
  nodup : g.nodes.Nodup

structure IdsIssued (g : Graph) : Prop where
  scope {t : ScopeId} {sc : Scope} : g.scopeAt? t = some sc → t.raw < g.ids.next
  membership {x : NodeId} {n : Node} {t : ScopeId} : g.nodeAt? x = some n → n.scope = some t →
    t.raw < g.ids.next

variable {may : Graph → NodeId → ScopeId → Prop} {g g' : Graph} {id : NodeId} {n : Node}

theorem AllKept.isSome_iff (h : AllKept g g') (x : NodeId) : (g'.nodeAt? x).isSome ↔ (g.nodeAt? x).isSome := by
  constructor
  · intro hx
    obtain ⟨n', hn'⟩ := Option.isSome_iff_exists.1 hx
    obtain ⟨n, hn, -⟩ := h.node hn'
    rw [hn]
    rfl
  · exact h.live_node

namespace NodesListed

theorem allKept (h : NodesListed g) (hs : AllKept g g') : NodesListed g' := by
  refine ⟨?_, ?_⟩
  · intro x
    rw [hs.nodes, h.mem_nodes_iff, hs.isSome_iff]
  · rw [hs.nodes]
    exact h.nodup

theorem removesNode {inner : List ScopeId} (h : NodesListed g) (hs : RemovesNode g id inner g') : NodesListed g' := by
  refine ⟨?_, ?_⟩
  · intro x
    rw [hs.nodes, List.mem_filter, h.mem_nodes_iff, hs.nodeAt?]
    by_cases hx : x = id <;> simp [hx]
  · rw [hs.nodes]
    exact h.nodup.filter _

theorem addsNode {ps : List ScopeId} (h : NodesListed g) (hs : AddsNode g id n ps g') : NodesListed g' := by
  have hnew : id ∉ g.nodes := by
    rw [h.mem_nodes_iff, hs.fresh]
    exact Bool.false_ne_true
  refine ⟨?_, ?_⟩
  · intro x
    rw [hs.nodes, List.mem_append, List.mem_singleton, h.mem_nodes_iff, hs.nodeAt?]
    by_cases hx : x = id <;> simp [hx]
  · rw [hs.nodes]
    refine List.nodup_append.2 ⟨h.nodup, List.nodup_singleton id, ?_⟩
    rintro x hx y hy rfl
    rw [List.mem_singleton.1 hy] at hx
    exact hnew hx

end NodesListed

theorem Move.scope_of (h : Move may g g') {x : NodeId} {n' : Node}
    {t : ScopeId} (hn' : g'.nodeAt? x = some n') (ht : n'.scope = some t) :
    (∃ n, g.nodeAt? x = some n ∧ n.scope = some t) ∨ may g x t ∧ ∃ sc, g.scopeAt? t = some sc := by
  cases h with
  | note e => exact .inl ⟨n', hn', ht⟩
  | enter hn _ hsc hmay =>
    rw [nodeAt?_place] at hn'
    split at hn'
    next hx =>
      subst hx
      rw [hn] at hn'
      cases hn'
      cases ht
      exact .inr ⟨hmay, _, hsc⟩
    next => exact .inl ⟨n', hn', ht⟩
  | leave hn _ _ =>
    rw [nodeAt?_displace] at hn'
    split at hn'
    next hx =>
      subst hx
      rw [hn] at hn'
      cases hn'
      cases ht
    next => exact .inl ⟨n', hn', ht⟩
  | declare =>
    rw [nodeAt?_modifyScope] at hn'
    exact .inl ⟨n', hn', ht⟩
  | lead =>
    rw [nodeAt?_modifyScope] at hn'
    exact .inl ⟨n', hn', ht⟩

theorem Changes.scope_of (h : Changes may g g') {x : NodeId} {n' : Node} {t : ScopeId} (hn' : g'.nodeAt? x = some n')
    (ht : n'.scope = some t) : (∃ n, g.nodeAt? x = some n ∧ n.scope = some t) ∨ ∃ h, may h x t := by
  induction h generalizing n' with
  | refl => exact .inl ⟨n', hn', ht⟩
  | tail _ hchange ih =>
    rcases hchange.move_or_sameFrames with hmove | hsameFrames
    · rcases hmove.scope_of hn' ht with ⟨n, hn, hscope⟩ | ⟨hmay, -⟩
      · exact ih hn hscope
      · exact .inr ⟨_, hmay⟩
    · obtain ⟨n, hn, hframe⟩ := hsameFrames.symm.node hn'
      exact ih hn ((Node.of_frame hframe).1.trans ht)

namespace IdsIssued

theorem change (h : IdsIssued g) (hchange : Change may g g') : IdsIssued g' := by
  have hs := hchange.allKept
  refine ⟨?_, ?_⟩
  · intro t sc hsc
    obtain ⟨sc', hsc', -⟩ := hs.scope hsc
    rw [hs.ids]
    exact h.scope hsc'
  · intro x n' t hn' ht
    rw [hs.ids]
    rcases hchange.move_or_sameFrames with hmove | hsameFrames
    · rcases hmove.scope_of hn' ht with ⟨n, hn, hscope⟩ | ⟨-, sc, hsc⟩
      · exact h.membership hn hscope
      · exact h.scope hsc
    · obtain ⟨n, hn, hframe⟩ := hsameFrames.symm.node hn'
      exact h.membership hn ((Node.of_frame hframe).1.trans ht)

theorem removesNode {inner : List ScopeId} (h : IdsIssued g) (hs : RemovesNode g id inner g') : IdsIssued g' := by
  refine ⟨?_, ?_⟩
  · intro t sc hsc
    obtain ⟨sc', hsc', -⟩ := hs.survivorsKept.scope hsc
    rw [hs.ids]
    exact h.scope hsc'
  · intro x m t hm ht
    rw [hs.nodeAt?] at hm
    rw [hs.ids]
    split at hm
    next => cases hm
    next => exact h.membership hm ht

theorem addsNode {ps : List ScopeId} (h : IdsIssued g) (hs : AddsNode g id n ps g') (hnone : n.scope = none) :
    IdsIssued g' := by
  have hids := hs.ids
  refine ⟨?_, ?_⟩
  · intro t sc hsc
    by_cases hnew : n.internalScope = some t ∨ t ∈ ps
    · exact (hs.fresh_scope t hnew).2.2
    · rw [hs.others t (fun hi => hnew (.inl hi)) fun hp => hnew (.inr hp)] at hsc
      have := h.scope hsc
      omega
  · intro x m t hm ht
    rw [hs.nodeAt?] at hm
    split at hm
    next =>
      cases hm
      rw [hnone] at ht
      cases ht
    next =>
      have := h.membership hm ht
      omega

theorem apart {ps : List ScopeId} (h : IdsIssued g) (hs : AddsNode g id n ps g') {x : NodeId} {m : Node} {t : ScopeId}
    (hm : g.nodeAt? x = some m) (ht : m.scope = some t) : n.internalScope ≠ some t ∧ t ∉ ps := by
  have hlt := h.membership hm ht
  have hnew (hin : n.internalScope = some t ∨ t ∈ ps) : False := by
    have := (hs.fresh_scope t hin).2.1
    omega
  exact ⟨fun hi => hnew (.inl hi), fun hp => hnew (.inr hp)⟩

end IdsIssued

structure RecordsValid (g : Graph) : Prop extends LinksScopesValid g where
  scopesMatchNodes : ScopesMatchNodes g
  nodesListed : NodesListed g
  idsIssued : IdsIssued g
  fanIn : 0 < g.config.fanIn

namespace RecordsValid

theorem step (h : RecordsValid g) (hstep : Step may g g') : RecordsValid g' := by
  refine ⟨h.toLinksScopesValid.step hstep, ?_, ?_, ?_, ?_⟩
  · cases hstep with
    | change hchange => exact h.scopesMatchNodes.change hchange
    | discard _ hn hnone _ _ hs => exact h.scopesMatchNodes.removesNode hs hn hnone
  · cases hstep with
    | change hchange => exact h.nodesListed.allKept hchange.allKept
    | discard _ _ _ _ _ hs => exact h.nodesListed.removesNode hs
  · cases hstep with
    | change hchange => exact h.idsIssued.change hchange
    | discard _ _ _ _ _ hs => exact h.idsIssued.removesNode hs
  · rw [hstep.survivorsKept.config]
    exact h.fanIn

theorem steps (h : RecordsValid g) (hsteps : Steps may g g') : RecordsValid g' := by
  induction hsteps with
  | refl => exact h
  | tail _ hstep ih => exact ih.step hstep

theorem addsNode {ps : List ScopeId} (h : RecordsValid g) (hs : AddsNode g id n ps g') (hnone : n.scope = none)
    (hslots : ∀ slot ∈ n.slots, slot.adjacent = [] ∧ slot.RoomKnown) : RecordsValid g' := by
  refine ⟨⟨h.linksMatch.addsNode hs hslots, h.scopesOwned.addsNode hs⟩, h.scopesMatchNodes.addsNode hs hnone ?_,
    h.nodesListed.addsNode hs, h.idsIssued.addsNode hs hnone, ?_⟩
  · intro x m t hm ht
    exact h.idsIssued.apart hs hm ht
  · rw [hs.config]
    exact h.fanIn

end RecordsValid

theorem RootIsEntryPoint.steps (h : RootIsEntryPoint g) (hsteps : Steps may g g') : RootIsEntryPoint g' := by
  induction hsteps with
  | refl => exact h
  | tail _ hstep ih =>
    cases hstep with
    | change hchange => exact ih.allKept hchange.allKept
    | discard hroot _ _ _ _ hs => exact ih.removesNode hs hroot

end FlowGraph.Graph
