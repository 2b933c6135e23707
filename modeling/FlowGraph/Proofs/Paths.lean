import FlowGraph.Proofs.Arena.Refinement
import FlowGraph.Proofs.Threads

/-!
# Paths that stay

What a backbone is depends on the links of the nodes, their scopes, and the heads and partitions of the scopes. A
graph that has all this of another has its backbones, whatever else it has.
-/

namespace FlowGraph.Graph

variable {g h : Graph} {x : NodeId} {s : ScopeId} {k k' : Nat}

theorem depthBound_le (hlive : ∀ x, (h.nodeAt? x).isSome → (g.nodeAt? x).isSome) : h.depthBound ≤ g.depthBound := by
  have hlt : (h.arena.handles .node).length < g.depthBound := by
    refine length_lt_depthBound (Arena.nodup_handles _ _) fun x hx => ?_
    obtain ⟨m, hm⟩ := Arena.exists_of_mem_handles hx
    exact Option.isSome_iff_exists.1 (hlive x (Option.isSome_of_mem hm))
  rwa [Arena.handles, List.length_map] at hlt

structure SamePathData (g h : Graph) : Prop where
  node {x : NodeId} {m : Node} : h.nodeAt? x = some m → ∃ n, g.nodeAt? x = some n ∧
    n.flowOutputs = m.flowOutputs ∧ n.scope = m.scope ∧ n.internalScope = m.internalScope
  scope {s : ScopeId} {sc : Scope} : h.scopeAt? s = some sc → ∃ sc', g.scopeAt? s = some sc' ∧
    sc'.partitions = sc.partitions ∧ sc'.head = sc.head

namespace SamePathData

theorem depthBound_le (hc : SamePathData g h) : h.depthBound ≤ g.depthBound := by
  refine Graph.depthBound_le fun x hx => ?_
  obtain ⟨m, hm⟩ := Option.isSome_iff_exists.1 hx
  obtain ⟨n, hn, -⟩ := hc.node hm
  exact Option.isSome_of_mem hn

theorem walkBound_le (hc : SamePathData g h) : h.walkBound ≤ g.walkBound := by
  have hlt : (h.arena.handles .scope).length < g.walkBound := by
    refine length_lt_walkBound (Arena.nodup_handles _ _) fun s hs => ?_
    obtain ⟨sc, hsc⟩ := Arena.exists_of_mem_handles hs
    obtain ⟨sc', hsc', -⟩ := hc.scope hsc
    exact ⟨sc', hsc'⟩
  rwa [Arena.handles, List.length_map] at hlt

theorem isNext (hc : SamePathData g h) (before : List NodeId) (c : NodeId) :
    Entails (h.isNext s x before c) (g.isNext s x before c) := by
  intro b hb
  by_cases hvisited : c = x ∨ c ∈ before
  · exact (if_pos hvisited).trans ((if_pos hvisited).symm.trans hb)
  · obtain ⟨m, hm, hscope⟩ := bind_eq_ok.1 ((if_neg hvisited).symm.trans hb)
    obtain ⟨n, hn, -, hsame, -⟩ := hc.node (node_eq_ok_iff.1 hm)
    rw [← hsame] at hscope
    exact (if_neg hvisited).trans (bind_eq_ok.2 ⟨n, node_eq_ok_iff.2 hn, hscope⟩)

theorem flowOutputs (hc : SamePathData g h) (leaf : NodeId) :
    Entails (do return (← h.node leaf).flowOutputs) (do return (← g.node leaf).flowOutputs) := by
  intro outputs houtputs
  simp only [bind_eq_ok, node_eq_ok_iff, pure_eq_ok] at houtputs ⊢
  obtain ⟨m, hm, rfl⟩ := houtputs
  obtain ⟨n, hn, houtputs, -⟩ := hc.node hm
  exact ⟨n, hn, houtputs⟩

variable {leaves leaves' : ScopeId → Except Fault (List NodeId)}

theorem threadFrom (hc : SamePathData g h) (hleaves : ∀ s, Entails (leaves s) (leaves' s)) (hk : k ≤ k')
    (before : List NodeId) (x : NodeId) :
    Entails (h.threadFrom leaves s k before x) (g.threadFrom leaves' s k' before x) := by
  induction k generalizing k' before x with
  | zero => exact nofun
  | succ k ih =>
    obtain ⟨k', rfl⟩ := Nat.exists_eq_succ_of_ne_zero (Nat.ne_zero_of_lt hk)
    intro thread hthread
    obtain ⟨m, inner, after, hm, hinner, hafter, hvia⟩ := threadFrom_eq_ok_iff.1 hthread
    obtain ⟨n, hn, houtputs, -, hinternal⟩ := hc.node hm
    refine threadFrom_eq_ok_iff.2 ⟨n, inner, after, hn, ?_, Entails.mapM hc.flowOutputs inner after hafter, ?_⟩
    · rw [hinternal]
      cases hi : m.internalScope with
      | none => rwa [hi] at hinner
      | some i =>
        rw [hi] at hinner
        exact hleaves i inner hinner
    · rw [houtputs]
      refine Entails.bind (.findM? (fun c => hc.isNext before c) _) (fun found => ?_) thread hvia
      cases found with
      | none => exact .refl _
      | some next => exact .bind (ih (Nat.le_of_succ_le_succ hk) (x :: before) next) fun _ => .refl _

theorem threadWith (hc : SamePathData g h) (hleaves : ∀ s, Entails (leaves s) (leaves' s)) (s : ScopeId) :
    Entails (h.threadWith leaves s) (g.threadWith leaves' s) := by
  intro thread hthread
  simp only [Graph.threadWith, bind_eq_ok, scope_eq_ok_iff] at hthread ⊢
  obtain ⟨sc, hsc, hthread⟩ := hthread
  obtain ⟨sc', hsc', -, hhead⟩ := hc.scope hsc
  refine ⟨sc', hsc', ?_⟩
  rw [hhead]
  cases hx : sc.head with
  | none => rwa [hx] at hthread
  | some head =>
    rw [hx] at hthread
    exact hc.threadFrom hleaves hc.depthBound_le [] head thread hthread

theorem leavesWithin (hc : SamePathData g h) (hk : k ≤ k') (s : ScopeId) :
    Entails (h.leavesWithin k s) (g.leavesWithin k' s) := by
  induction k generalizing k' s with
  | zero => exact nofun
  | succ k ih =>
    obtain ⟨k', rfl⟩ := Nat.exists_eq_succ_of_ne_zero (Nat.ne_zero_of_lt hk)
    intro ids hids
    have hdown (s : ScopeId) : Entails (h.leavesWithin k s) (g.leavesWithin k' s) := ih (Nat.le_of_succ_le_succ hk) s
    simp only [Graph.leavesWithin, bind_eq_ok, scope_eq_ok_iff] at hids ⊢
    obtain ⟨sc, hsc, hids⟩ := hids
    obtain ⟨sc', hsc', hpartitions, -⟩ := hc.scope hsc
    refine ⟨sc', hsc', ?_⟩
    rw [Scope.isPartitioned, hpartitions]
    rw [Scope.isPartitioned] at hids
    split at hids
    next hsplit =>
      rw [if_pos hsplit]
      exact Entails.bind (.mapM hdown _) (fun _ => .refl _) ids hids
    next hsplit =>
      rw [if_neg hsplit]
      exact Entails.bind (hc.threadWith hdown s) (fun _ => .refl _) ids hids

theorem backbone (hc : SamePathData g h) (s : ScopeId) : Entails (h.backbone s) (g.backbone s) :=
  .bind (hc.threadWith (fun s => hc.leavesWithin hc.walkBound_le s) s) fun _ => .refl _

end SamePathData

end FlowGraph.Graph
