import FlowGraph.Proofs.Consistency
import FlowGraph.Proofs.Layouts
import Mathlib.Data.List.Chain

/-!
# The way down from the root scope

A block may lie in itself, but the way up from the root scope always ends: only what is new enters a scope
unchecked, and nothing old is inside of it. So the way up ends from all scopes inside the root scope. Of all scopes
only the one inside a conditional is split.
-/

namespace FlowGraph

theorem not_rel_self_of_acc {α : Type} {r : α → α → Prop} {a : α} (h : Acc r a) : ¬r a a := by
  induction h with
  | intro a _ ih => exact fun ha => ih a ha ha

/-- A chain of a relation without endless chains does not come back. -/
theorem nodup_of_isChain {α : Type} {r : α → α → Prop} {a : α} {as : List α} (h : (a :: as).IsChain r)
    (hacc : Acc (fun b a => r a b) a) : (a :: as).Nodup := by
  induction as generalizing a with
  | nil => exact List.nodup_singleton a
  | cons b as ih =>
    rw [List.isChain_cons_cons] at h
    refine List.nodup_cons.2 ⟨fun hmem => ?_, ih h.2 (hacc.inv h.1)⟩
    have hreach : ∀ c ∈ b :: as, Relation.TransGen (fun b a => r a b) c a := by
      have hpairs := (List.isChain_cons_cons.2 h).imp (S := Relation.TransGen r) fun _ _ => .single
      rw [List.isChain_iff_pairwise, List.pairwise_cons] at hpairs
      exact fun c hc => Relation.transGen_swap.1 (hpairs.1 c hc)
    exact not_rel_self_of_acc hacc.transGen (hreach a hmem)

namespace Graph

variable {g g' : Graph} {id : NodeId} {s t : ScopeId} {sc : Scope} {n : Node}

def FinitelyNested (g : Graph) (s : ScopeId) : Prop := Acc (fun t s => g.parentScope? s = .ok (some t)) s

theorem FinitelyNested.below (h : FinitelyNested g t) (hs : g.parentScope? s = .ok (some t)) : FinitelyNested g s := by
  refine ⟨_, fun u hu => ?_⟩
  cases hs.symm.trans hu
  exact h

theorem ParentsEnd.finitelyNested (h : ParentsEnd g s) : FinitelyNested g s := by
  induction h with
  | top hparent => exact ⟨_, fun t ht => nomatch hparent.symm.trans ht⟩
  | up hparent _ ih => exact ih.below hparent

namespace FinitelyNested

theorem survivorsKept (h : FinitelyNested g s) (hl : SurvivorsKept g g')

    (hnew : ∀ x n' t, g'.nodeAt? x = some n' → n'.scope = some t → (∃ n, g.nodeAt? x = some n ∧ n.scope = some t) ∨
    FinitelyNested g' t) :
    FinitelyNested g' s := by
  induction h with
  | intro s _ ih =>
    refine ⟨_, fun t ht => ?_⟩
    obtain ⟨sc', hsc', hup⟩ := parentScope?_eq_ok_iff.1 ht
    obtain ⟨sc, hsc, hskeleton⟩ := hl.scope hsc'
    obtain ⟨howner, hkind, -⟩ := Scope.of_skeleton hskeleton
    rcases hup with ⟨t', i, hpart, htop⟩ | ⟨hinternal, n', hn', hscope⟩
    · exact ih t (parentScope?_eq_ok_iff.2 ⟨sc, hsc, .inl ⟨t', i, hkind.symm.trans hpart, htop⟩⟩)
    · rcases hnew _ n' t hn' hscope.symm with ⟨n, hn, hscope'⟩ | hfinitelyNested
      · refine ih t (parentScope?_eq_ok_iff.2 ⟨sc, hsc, .inr ⟨hkind.symm.trans hinternal, n, ?_, hscope'.symm⟩⟩)
        rw [← howner]
        exact hn
      · exact hfinitelyNested

theorem of_ownersOnPath (h : OwnersOnPath g (fun _ => True) s) : FinitelyNested g s :=
  (parentsEnd_iff.2 h).finitelyNested

theorem step (h : FinitelyNested g s) (hstep : Step clear g g') : FinitelyNested g' s := by
  refine h.survivorsKept hstep.survivorsKept fun x n' t hn' ht => ?_
  cases hstep with
  | change hchange =>
    rcases hchange.move_or_sameFrames with hmove | hsameFrames
    · refine (hmove.scope_of hn' ht).imp_right fun ⟨hclear, _⟩ => .of_ownersOnPath ?_
      exact (hclear.mono fun _ _ => trivial).move hmove
    · obtain ⟨n, hn, hframe⟩ := hsameFrames.symm.node hn'
      exact .inl ⟨n, hn, (Node.of_frame hframe).1.trans ht⟩
  | discard _ _ _ _ _ hs =>
    rw [hs.nodeAt?] at hn'
    split at hn'
    next => cases hn'
    next => exact .inl ⟨n', hn', ht⟩

theorem steps (h : FinitelyNested g s) (hsteps : Steps clear g g') : FinitelyNested g' s := by
  induction hsteps with
  | refl => exact h
  | tail _ hstep ih => exact ih.step hstep

/-- A new node may enter a scope of its own, but that is not around any other scope. -/
theorem spawn {build : NodeId → Node} {partitions : Option Nat} (h : FinitelyNested g t) (hg : WellFormed g)
    (hbuildsUnlinked : BuildsUnlinked g.config.fanIn build) (hspawn : g.spawn build partitions (some s) = .ok (id, g'))
    (ht : t.raw < g.ids.next) : FinitelyNested g' t := by
  obtain ⟨n, ps, g₁, hnew, -, ⟨⟨⟩, -⟩ | ⟨_, ⟨⟩, hplaced⟩⟩ := spawn_addsUnplaced hbuildsUnlinked hspawn
  have hs := hnew.toAddsNode
  have hentered := enter_of_unlinked hplaced hnew.live fun slot hslot => (hnew.unused slot hslot).adjacent
  have hmoves : Moves always g₁ g' := enter_moves hentered hnew.live hnew.unscoped trivial
  have hallKept : AllKept g₁ g' := hmoves.changes.allKept
  induction h with
  | intro t _ ih =>
    refine ⟨_, fun u hu => ?_⟩
    obtain ⟨sc', hsc', hup⟩ := parentScope?_eq_ok_iff.1 hu
    obtain ⟨sc, hsc, hskeleton⟩ := hallKept.scope hsc'
    obtain ⟨howner, hkind, -⟩ := Scope.of_skeleton hskeleton
    have hold : ¬(n.internalScope = some t ∨ t ∈ ps) := fun hin => by
      have hle := (hs.fresh_scope t hin).2.1
      omega
    rw [hs.others t (fun hi => hold (.inl hi)) fun hp => hold (.inr hp)] at hsc
    rcases hup with ⟨t', i, hpart, ⟨⟩⟩ | ⟨hinternal, n', hn', hscope⟩
    · obtain ⟨st, hst, -⟩ := hg.scopesOwned.whole_of_part hsc (hkind.symm.trans hpart)
      exact ih u (parentScope?_eq_ok_iff.2 ⟨sc, hsc, .inl ⟨u, i, hkind.symm.trans hpart, rfl⟩⟩) (hg.idsIssued.scope hst)
    · obtain ⟨m, -, -, hm, -⟩ := hg.scopesOwned.home hsc
      have hne : sc.owner ≠ id := by
        intro he
        cases hs.fresh.symm.trans (he ▸ hm)
      rw [howner, nodeAt?_enter hentered, nodeAt?_place, if_neg hne, hs.nodeAt?, if_neg hne, hm] at hn'
      obtain rfl := Option.some.inj hn'
      exact ih u (parentScope?_eq_ok_iff.2 ⟨sc, hsc, .inr ⟨hkind.symm.trans hinternal, m, hm, hscope⟩⟩)
        (hg.idsIssued.membership hm hscope.symm)

end FinitelyNested

structure ConditionalsSplit (g : Graph) : Prop where
  split {x : NodeId} {n : Node} {i : ScopeId} {sc : Scope} : g.nodeAt? x = some n → n.kind.isConditional = true →
    n.internalScope = some i → g.scopeAt? i = some sc → sc.partitions ≠ []
  unsplit {s : ScopeId} {sc : Scope} {t : ScopeId} {i : Nat} : g.scopeAt? s = some sc → sc.kind = .partition t i →
    sc.partitions = []

namespace ConditionalsSplit

theorem survivorsKept (h : ConditionalsSplit g) (hl : SurvivorsKept g g') : ConditionalsSplit g' := by
  refine ⟨?_, ?_⟩
  · intro x n' i sc' hn' hkind' hi hsc'
    obtain ⟨n, hn, hskeleton⟩ := hl.node hn'
    obtain ⟨sc, hsc, hskeleton'⟩ := hl.scope hsc'
    obtain ⟨hkind, -, hinternal⟩ := Node.of_skeleton hskeleton
    obtain ⟨-, -, hpartitions⟩ := Scope.of_skeleton hskeleton'
    rw [hpartitions]
    exact h.split hn (hkind ▸ hkind') (hinternal.symm.trans hi) hsc
  · intro s sc' t i hsc' hkind'
    obtain ⟨sc, hsc, hskeleton⟩ := hl.scope hsc'
    obtain ⟨-, hkind, hpartitions⟩ := Scope.of_skeleton hskeleton
    rw [hpartitions]
    exact h.unsplit hsc (hkind.symm.trans hkind')

theorem addsNode {ps : List ScopeId} (h : ConditionalsSplit g) (ho : ScopesOwned g) (hs : AddsNode g id n ps g')
    (hsplit : n.kind.isConditional = true → n.internalScope ≠ none → ps ≠ []) : ConditionalsSplit g' := by
  refine ⟨?_, ?_⟩
  · intro x m i sc hm hkind hi hsc
    rw [hs.nodeAt?] at hm
    split at hm
    next =>
      cases hm
      cases (hs.internal i hi).symm.trans hsc
      exact hsplit hkind (hi ▸ nofun)
    next =>
      obtain ⟨sc', hsc', -⟩ := ho.internal hm hi
      have hnew (hin : n.internalScope = some i ∨ i ∈ ps) : False := by
        cases (hs.fresh_scope i hin).1.symm.trans hsc'
      rw [hs.others i (fun he => hnew (.inl he)) fun he => hnew (.inr he)] at hsc
      exact h.split hm hkind hi hsc
  · intro s sc t j hsc hkind
    by_cases hinternal : n.internalScope = some s
    · cases (hs.internal s hinternal).symm.trans hsc
      cases hkind
    by_cases hpart : s ∈ ps
    · obtain ⟨k, hk⟩ := List.getElem?_of_mem hpart
      cases hblock : n.internalScope with
      | none =>
        rw [hs.unsplit hblock] at hpart
        cases hpart
      | some u =>
        cases (hs.partition u hblock k s hk).symm.trans hsc
        rfl
    · exact h.unsplit ((hs.others s hinternal hpart).symm.trans hsc) hkind

end ConditionalsSplit

structure RootFinitelyNested (g : Graph) : Prop extends ConditionalsSplit g where
  root : ∃ s, g.rootScope = .ok s ∧ FinitelyNested g s

theorem rootScope_eq_ok_iff : g.rootScope = .ok s ↔ ∃ n, g.nodeAt? g.root = some n ∧ n.internalScope = some s := by
  simp only [rootScope, bind_eq_ok, node_eq_ok_iff]
  refine exists_congr fun n => and_congr_right fun _ => ?_
  cases hi : n.internalScope with
  | none =>
    constructor
    all_goals
      intro h
      cases h
  | some i => simp [pure_eq_ok]

theorem SurvivorsKept.rootScope (hl : SurvivorsKept g g') (hr : RootIsEntryPoint g') (h : g.rootScope = .ok s) :
    g'.rootScope = .ok s := by
  obtain ⟨n, hn, hi⟩ := rootScope_eq_ok_iff.1 h
  obtain ⟨n', hn', -⟩ := hr
  obtain ⟨m, hm, hskeleton⟩ := hl.node hn'
  rw [hl.root] at hm
  cases hn.symm.trans hm
  exact rootScope_eq_ok_iff.2 ⟨n', hn', (Node.of_skeleton hskeleton).2.2.trans hi⟩

theorem rootScope_spawn {build : NodeId → Node} {partitions : Option Nat}
    (hbuildsUnlinked : BuildsUnlinked g.config.fanIn build) (hspawn : g.spawn build partitions (some s) = .ok (id, g'))
    (ht : g.rootScope = .ok t) : g'.rootScope = .ok t := by
  obtain ⟨hfresh, hroot, hothers⟩ := spawn_others hbuildsUnlinked hspawn
  obtain ⟨r, hr, hi⟩ := rootScope_eq_ok_iff.1 ht
  have hne : g.root ≠ id := by
    intro he
    cases hfresh.symm.trans (he ▸ hr)
  exact rootScope_eq_ok_iff.2 ⟨r, by rw [hroot, hothers _ hne, hr], hi⟩

namespace RootFinitelyNested

theorem steps (h : RootFinitelyNested g) (hr : RootIsEntryPoint g) (hsteps : Steps clear g g') :
    RootFinitelyNested g' := by
  obtain ⟨s, hs, hfinitelyNested⟩ := h.root
  exact ⟨h.toConditionalsSplit.survivorsKept hsteps.survivorsKept, s,
    hsteps.survivorsKept.rootScope (hr.steps hsteps) hs, hfinitelyNested.steps hsteps⟩

theorem spawn {build : NodeId → Node} {partitions : Option Nat} (h : RootFinitelyNested g) (hg : WellFormed g)
    (hbuildsUnlinked : BuildsUnlinked g.config.fanIn build) (hspawn : g.spawn build partitions (some s) = .ok (id, g'))
    (hsplit : partitions ≠ some 0) : RootFinitelyNested g' := by
  obtain ⟨n, ps, g₁, hnew, hpartitions, heditMoves⟩ := spawn_editMoves hbuildsUnlinked hspawn
  have hallKept := heditMoves.moves.changes.allKept
  constructor
  · refine (h.toConditionalsSplit.addsNode hg.scopesOwned hnew.toAddsNode fun _ hblock hempty =>
      hsplit ?_).survivorsKept hallKept.toSurvivorsKept
    obtain ⟨i, hi⟩ := Option.ne_none_iff_exists'.1 hblock
    rw [hpartitions, hi, hempty]
    rfl
  · obtain ⟨t, ht, hfinitelyNested⟩ := h.root
    obtain ⟨r, hr, hi⟩ := rootScope_eq_ok_iff.1 ht
    obtain ⟨sc, hsc, -⟩ := hg.scopesOwned.internal hr hi
    exact ⟨t, rootScope_spawn hbuildsUnlinked hspawn ht, hfinitelyNested.spawn hg hbuildsUnlinked hspawn
      (hg.idsIssued.scope hsc)⟩

end RootFinitelyNested

theorem HoldsNothing.rootFinitelyNested (h : HoldsNothing g) (hspawn : g.spawnEntryPoint = .ok g') :
    RootFinitelyNested g' := by
  simp only [spawnEntryPoint, bind_eq_ok, pure_eq_ok] at hspawn
  obtain ⟨⟨id, g₁⟩, hg₁, rfl⟩ := hspawn
  obtain ⟨n, ps, g₂, hnew, hplain, ⟨-, rfl⟩ | ⟨_, ⟨⟩, -⟩⟩ := spawn_addsUnplaced (Node.buildsUnlinked_entryPoint _) hg₁
  obtain ⟨i, hi, -⟩ := Option.map_eq_some_iff.1 hplain.symm
  have hconditionalsSplit : ConditionalsSplit g := by
    refine ⟨?_, ?_⟩ <;> simp [h.nodeAt?, h.scopeAt?]
  have hscopesOwned : ScopesOwned g := by
    refine ⟨?_, ?_⟩ <;> simp [h.nodeAt?, h.scopeAt?]
  have hconditionalsSplit₁ : ConditionalsSplit g₁ := by
    refine hconditionalsSplit.addsNode hscopesOwned hnew.toAddsNode fun hconditional => ?_
    rw [hnew.kind] at hconditional
    cases hconditional
  refine ⟨⟨hconditionalsSplit₁.split, hconditionalsSplit₁.unsplit⟩, i, rootScope_eq_ok_iff.2 ⟨n, hnew.live, hi⟩, _,
    fun t ht => ?_⟩
  obtain ⟨sc, hsc, hup⟩ := parentScope?_eq_ok_iff.1 ht
  cases (hnew.internal i hi).symm.trans hsc
  rcases hup with ⟨_, _, ⟨⟩, -⟩ | ⟨-, m, hm, hscope⟩
  cases hnew.live.symm.trans hm
  cases hnew.unscoped.symm.trans hscope.symm

theorem RootFinitelyNested.perform {e : Edit} (h : RootFinitelyNested g) (hg : WellFormed g)
    (hperform : g.perform e = .ok g') : RootFinitelyNested g' := by
  cases perform_effect guards_clear hperform with
  | changes _ hchanges => exact h.steps hg.rootIsEntryPoint hchanges.steps
  | create _ hbuildsUnlinked hspawn hchanges =>
    exact (h.spawn hg hbuildsUnlinked hspawn
      nofun).steps (hg.spawn hbuildsUnlinked hspawn).rootIsEntryPoint hchanges.steps
  | block _ hbuildsUnlinked hspawn => exact h.spawn hg hbuildsUnlinked hspawn (by decide)
  | undo hbuildsUnlinked hspawn hdestroy =>
    have hg₁ := hg.spawn hbuildsUnlinked hspawn
    exact (h.spawn hg hbuildsUnlinked hspawn nofun).steps hg₁.rootIsEntryPoint
      (destroy_steps guards_clear hg₁.toLinksScopesValid
      hdestroy)
  | destroy _ hchanges hdestroy =>
    have hg₁ := hg.steps hchanges.steps
    exact (h.steps hg.rootIsEntryPoint hchanges.steps).steps hg₁.rootIsEntryPoint
      (destroy_steps guards_clear hg₁.toLinksScopesValid hdestroy)
  | reset hreset =>
    obtain ⟨g₀, hholdsNothing, -, -, hspawn⟩ := reset_eq hg.nodesListed hreset
    exact hholdsNothing.rootFinitelyNested hspawn
  | drain => exact ⟨⟨h.split, h.unsplit⟩, h.root⟩

theorem Reachable.rootFinitelyNested (h : Reachable g) : RootFinitelyNested g := by
  induction h with
  | create hcreate =>
    obtain ⟨g₀, hholdsNothing, -, -, hspawn⟩ := create_eq hcreate
    exact hholdsNothing.rootFinitelyNested hspawn
  | edit e hreachable hperform ih => exact ih.perform hreachable.wellFormed hperform
  | issued _ _ ih => exact ⟨⟨ih.split, ih.unsplit⟩, ih.root⟩

end Graph

end FlowGraph
