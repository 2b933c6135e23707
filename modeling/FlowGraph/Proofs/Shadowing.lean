import FlowGraph.Compilation
import FlowGraph.Proofs.Guidance
import FlowGraph.Proofs.Replay
import FlowGraph.Proofs.Sight

/-!
# Variables that are rejected for nothing

A variable that is not declared in its scope sees another one of its name, and if that goes the variable is
declared. There is one exception: a block that leaves its scope takes the variables inside along as they are, and
may leave behind what they had been rejected for.
-/

namespace FlowGraph.Graph

open Relation

/-- A block around the scope has left a scope, and the variable has stayed where it is since. -/
def BlockDeparted (events : List Event) (g : Graph) (v : NodeId) (s : ScopeId) : Prop :=
  ∃ b earlier later, events = earlier ++ .nodeScoped b none :: later ∧ Surrounds g b s ∧
    ∀ x, .nodeScoped v x ∉ later

/-- What the variable is rejected for: another one of its name, that the scope or one around it declares. -/
def NameClash (g : Graph) (v : NodeId) (name : String) (s : ScopeId) : Prop :=
  ∃ w t st m, g.findVariable s name true = .ok (some w) ∧ w ≠ v ∧ Within g s t ∧ g.scope t = .ok st ∧
    w ∈ st.declared ∧ g.node w = .ok m ∧ m.name = name

structure VariableUntouched (events : List Event) (g g' : Graph) (v : NodeId) (name : String) (s : ScopeId) : Prop where
  home : g.homeAt? v = some s
  declared : Declared g s v → Declared g' s v
  silent : ∀ x, .nodeScoped v x ∉ events
  homes : ∀ x, Surrounds g' x s → g.homeAt? x = g'.homeAt? x ∨ g.homeAt? x = none
  declaresNone : ∀ t, Within g' s t → DeclaresNone g' name t → DeclaresNone g name t

def RejectionsExplained (g g' : Graph) : Prop :=
  ∃ events, g'.events = g.events ++ events ∧ ∀ v name s, LeftUndeclared g' v name s → NameUnseen g' name s →
    (LeftUndeclared g v name s ∧ NameUnseen g name s ∧ (∀ x, .nodeScoped v x ∉ events) ∧ ∀ b, Surrounds g b s →
    Surrounds g' b s) ∨
      BlockDeparted events g' v s

variable {may : Graph → NodeId → ScopeId → Prop} {events : List Event} {g g' : Graph} {id v : NodeId} {s : ScopeId}
  {n : Node} {name : String}

namespace BlockDeparted

theorem earlier (h : BlockDeparted events g v s) (before : List Event) : BlockDeparted (before ++ events) g v s := by
  obtain ⟨b, earlier, later, rfl, hb, hlater⟩ := h
  exact ⟨b, before ++ earlier, later, (List.append_assoc ..).symm, hb, hlater⟩

theorem later {after : List Event} (h : BlockDeparted events g v s) (hsilent : ∀ x, .nodeScoped v x ∉ after)
    (hkept : ∀ b, Surrounds g b s → Surrounds g' b s) : BlockDeparted (events ++ after) g' v s := by
  obtain ⟨b, earlier, later, rfl, hb, hlater⟩ := h
  refine ⟨b, earlier, later ++ after, List.append_assoc .., hkept b hb, fun x hx => ?_⟩
  exact (List.mem_append.1 hx).elim (hlater x) (hsilent x)

end BlockDeparted

namespace RejectionsExplained

theorem refl (g : Graph) : RejectionsExplained g g :=
  ⟨[], (List.append_nil _).symm, fun _ _ _ hv hnameUnseen => .inl ⟨hv, hnameUnseen,
  fun _ => List.not_mem_nil, fun _ => id⟩⟩

theorem trans {g₁ g₂ g₃ : Graph} (h : RejectionsExplained g₁ g₂) (h' : RejectionsExplained g₂ g₃) :
    RejectionsExplained g₁ g₃ := by
  obtain ⟨events, hevents, hrejectionsExplained⟩ := h
  obtain ⟨events', hevents', hrejectionsExplained'⟩ := h'
  refine ⟨events ++ events', by rw [hevents', hevents, List.append_assoc], fun v name s hv hnameUnseen => ?_⟩
  rcases hrejectionsExplained' v name s hv hnameUnseen with ⟨hv, hnameUnseen, hsilent', hkept'⟩ | hblockDeparted
  · rcases hrejectionsExplained v name s hv hnameUnseen with ⟨hv, hnameUnseen, hsilent, hkept⟩ | hblockDeparted
    · refine .inl ⟨hv, hnameUnseen, fun x hx => ?_, fun b hb => hkept' b (hkept b hb)⟩
      exact (List.mem_append.1 hx).elim (hsilent x) (hsilent' x)
    · exact .inr (hblockDeparted.later hsilent' hkept')
  · exact .inr (hblockDeparted.earlier events)

theorem of_survivorsKept (hl : SurvivorsKept g g') (hevents : g'.events = g.events ++ events)
    (hstep : ∀ v name s, LeftUndeclared g' v name s → NameUnseen g' name s →
      VariableUntouched events g g' v name s ∨ BlockDeparted events g' v s) : RejectionsExplained g g' := by
  refine ⟨events, hevents, fun v name s hv hnameUnseen => (hstep v name s hv hnameUnseen).imp_left fun h => ?_⟩
  exact ⟨hv.before hl h.home h.declared, hnameUnseen.before hl h.homes h.declaresNone, h.silent,
    fun b hb => hb.after hl h.homes hnameUnseen.parentsEnd⟩

theorem of_still (hl : SurvivorsKept g g') (hevents : g'.events = g.events ++ events)
    (hsilent : ∀ v x, .nodeScoped v x ∉ events) (hhome : ∀ x, g'.homeAt? x = g.homeAt? x)
    (hdeclared : ∀ t sc w, g'.scopeAt? t = some sc → Declared g t w → Declared g' t w) : RejectionsExplained g g' := by
  refine .of_survivorsKept hl hevents fun v name s hv hnameUnseen => .inl ⟨?_, ?_, hsilent v,
    fun x _ => .inl (hhome x).symm, ?_⟩
  · rw [← hhome]
    exact hv.home
  · obtain ⟨sc, hsc⟩ := (hnameUnseen.declaresNone .refl).live
    exact hdeclared s sc v hsc
  · intro t _ hfree
    obtain ⟨sc, hsc⟩ := hfree.live
    exact hfree.before hl fun w hw => .inl (hdeclared t sc w hsc hw)

theorem of_sameFrames (h : SameFrames g g') (hl : SurvivorsKept g g') (hevents : g'.events = g.events ++ events)
    (hsilent : ∀ v x, .nodeScoped v x ∉ events) : RejectionsExplained g g' :=
  .of_still hl hevents hsilent h.homeAt? fun t _ w _ hw => by rwa [Declared, h.scopes]

end RejectionsExplained

theorem enter_rejectionsExplained (h : g.enter id s = .ok g') (hn : g.nodeAt? id = some n) (hnone : n.scope = none) :
    RejectionsExplained g g' := by
  have hmoves : Moves always g g' := enter_moves h hn hnone trivial
  have hl : SurvivorsKept g g' := hmoves.changes.allKept.toSurvivorsKept
  have hhome := (enter_views h hn).2
  obtain ⟨hdeclared, hself⟩ := enter_sight h hn
  have hevents : g'.events = g.events ++ [.nodeScoped id (some s)] := by
    rw [(enter_eq h).1.frame]
    rfl
  refine .of_survivorsKept hl hevents fun v name t hv hnameUnseen => .inl ?_
  have hne : v ≠ id := by
    rintro rfl
    have hthere := (hhome v).symm.trans hv.home
    rw [if_pos rfl] at hthere
    cases hthere
    obtain ⟨n', hn', hvar, rfl, -, -, hnot⟩ := leftUndeclared_iff.1 hv
    obtain ⟨m, hm, hskeleton⟩ := hl.node hn'
    cases hn.symm.trans hm
    obtain ⟨hkind, hname, -⟩ := Node.of_skeleton hskeleton
    rw [Node.isVariable, hkind] at hvar
    rcases hself hvar with hmem | hseen
    · exact hnot hmem
    · exact hseen (hname ▸ hnameUnseen)
  refine ⟨?_, hdeclared t v, fun x hx => ?_, fun x _ => ?_, fun u _ hfree => ?_⟩
  · rw [← hv.home, hhome, if_neg hne]
  · cases List.mem_singleton.1 hx
    exact hne rfl
  · rw [hhome]
    split
    next hx => exact .inr (by rw [hx, homeAt?, hn, Option.bind_some, hnone])
    next => exact .inl rfl
  · exact hfree.before hl fun w hw => .inl (hdeclared u w hw)

theorem leave_rejectionsExplained (ho : ScopesOwned g) (hh : ScopesMatchNodes g) (h : g.leave id s = .ok g')
    (hn : g.nodeAt? id = some n) (hs : n.scope = some s) : RejectionsExplained g g' := by
  obtain ⟨hfirst, hrest⟩ := leave_moves h hn hs
  have hl : SurvivorsKept g g' := (Moves.changes (.head hfirst hrest)).allKept.toSurvivorsKept
  have hhome := (leave_views h).2
  obtain ⟨hdeclared, hhidden⟩ := leave_sight ho hh h hn hs
  have hevents : g'.events = g.events ++ [.nodeScoped id none] := by
    rw [(leave_eq h).1.frame]
    rfl
  refine .of_survivorsKept hl hevents fun v name t hv hnameUnseen => ?_
  by_cases haround : Surrounds g' id t
  · exact .inr ⟨id, [], [], rfl, haround, fun _ => List.not_mem_nil⟩
  have hne : v ≠ id := by
    rintro rfl
    have hthere := (hhome v).symm.trans hv.home
    rw [if_pos rfl] at hthere
    cases hthere
  refine .inl ⟨?_, fun hmem => ?_, fun x hx => ?_, fun x hx => ?_, fun u hwithin hfree => ?_⟩
  · rw [← hv.home, hhome, if_neg hne]
  · exact (hdeclared t v hmem).resolve_right fun hself => hne hself.2
  · cases List.mem_singleton.1 hx
    exact hne rfl
  · rw [hhome, if_neg]
    · exact .inl rfl
    · rintro rfl
      exact haround hx
  · refine hfree.before hl fun w hw => (hdeclared u w hw).imp_right ?_
    rintro ⟨rfl, rfl⟩
    refine ⟨n, hn, ?_⟩
    rintro rfl
    exact hhidden hw v t hwithin hv hnameUnseen

theorem head_rejectionsExplained (s : ScopeId) (head : Option NodeId) :
    RejectionsExplained g (g.modifyScope s ({ · with head })) := by
  have hallKept : AllKept g (g.modifyScope s ({ · with head })) := allKept_modifyScope fun _ => by rfl
  refine .of_still hallKept.toSurvivorsKept (List.append_nil _).symm (fun _ _ => List.not_mem_nil)
    (homeAt?_lead head) ?_
  rintro t _ w _ ⟨sc, hsc, hw⟩
  rw [Declared, scopeAt?_modifyScope, hsc]
  split
  next => exact ⟨{ sc with head }, rfl, hw⟩
  next => exact ⟨sc, rfl, hw⟩

theorem EditMove.rejectionsExplained (ho : ScopesOwned g) (hh : ScopesMatchNodes g) (h : EditMove may g g') :
    RejectionsExplained g g' := by
  cases h with
  | enter h =>
    obtain ⟨hn, hnone, -, henter⟩ := h
    exact enter_rejectionsExplained henter hn hnone
  | leave h =>
    obtain ⟨hn, hs, hleave⟩ := h
    exact leave_rejectionsExplained ho hh hleave hn hs
  | lead h =>
    simp only [resetHead, bind_eq_ok, pure_eq_ok] at h
    obtain ⟨head, -, rfl⟩ := h
    exact head_rejectionsExplained _ head
  | unlead => exact head_rejectionsExplained _ none

theorem EditChange.rejectionsExplained (ho : ScopesOwned g) (hh : ScopesMatchNodes g) (h : EditChange may g g') :
    RejectionsExplained g g' := by
  have hl : SurvivorsKept g g' := (EditChanges.changes (.single h)).allKept.toSurvivorsKept
  cases h with
  | shift h => exact h.rejectionsExplained ho hh
  | retouch =>
    exact .of_sameFrames (sameFrames_modifyNode fun _ => by rfl) hl (List.append_nil _).symm fun _ _ => List.not_mem_nil
  | link _ => exact .of_sameFrames (sameFrames_addLink _ _) hl (frame_addLink _).1 (by simp)
  | unlink _ => exact .of_sameFrames (sameFrames_removeLink _ _) hl (frame_removeLink _).1 (by simp)

theorem EditChanges.rejectionsExplained (ho : ScopesOwned g) (hh : ScopesMatchNodes g) (h : EditChanges may g g') :
    RejectionsExplained g g' := by
  induction h with
  | refl => exact .refl g
  | tail heditChanges hact ih =>
    have hchanges := EditChanges.changes heditChanges
    exact ih.trans (hact.rejectionsExplained (ho.allKept hchanges.allKept) (hh.changes hchanges))

theorem AddsNode.node_of {ps : List ScopeId} {x : NodeId} {m : Node} (hs : AddsNode g id n ps g')
    (hm : g.nodeAt? x = some m) : g'.nodeAt? x = some m := by
  rw [hs.nodeAt?, if_neg, hm]
  rintro rfl
  cases hs.fresh.symm.trans hm

theorem AddsNode.nameUnseen {ps : List ScopeId} (hg : RecordsValid g) (hs : AddsNode g id n ps g')
    (h : NameUnseen g' name s) (hlive : ∃ sc, g.scopeAt? s = some sc) : NameUnseen g name s := by
  have hfree {s : ScopeId} {sc : Scope} (hsc : g.scopeAt? s = some sc) (h : DeclaresNone g' name s) :
      DeclaresNone g name s := by
    refine ⟨⟨sc, hsc⟩, fun {w} hw => ?_⟩
    have hscopeMatches := hg.scopesMatchNodes.scopeMatchesNodes hsc
    obtain ⟨m, hm, -⟩ := hscopeMatches.child w (hscopeMatches.declared w (hw.mem hsc)).1
    obtain ⟨m', hm', hother⟩ := h.names ⟨sc, hs.scope_of hsc, hw.mem hsc⟩
    cases (hs.node_of hm).symm.trans hm'
    exact ⟨m, hm, hother⟩
  have hparent {s : ScopeId} {sc : Scope} {parent : Option ScopeId} (hsc : g.scopeAt? s = some sc)
      (h : g'.parentScope? s = .ok parent) : g.parentScope? s = .ok parent := by
    obtain ⟨sc', hsc', hup⟩ := parentScope?_eq_ok_iff.1 h
    cases (hs.scope_of hsc).symm.trans hsc'
    refine parentScope?_eq_ok_iff.2 ⟨sc, hsc, hup.imp_right fun ⟨hinternal, m', hm', ht⟩ => ⟨hinternal, m', ?_, ht⟩⟩
    obtain ⟨m, -, -, hm, -⟩ := hg.scopesOwned.home hsc
    cases (hs.node_of hm).symm.trans hm'
    exact hm
  induction h with
  | top htop hs =>
    obtain ⟨sc, hsc⟩ := hlive
    exact .top (hparent hsc htop) (hfree hsc hs)
  | @up s t hup hs' h ih =>
    obtain ⟨sc, hsc⟩ := hlive
    have hup' := hparent hsc hup
    refine .up hup' (hfree hsc hs') (ih ?_)
    obtain ⟨sc₁, hsc₁, ⟨u, i, hpart, ⟨⟩⟩ | ⟨-, m, hm, ht⟩⟩ := parentScope?_eq_ok_iff.1 hup'
    · obtain ⟨st, hst, -⟩ := hg.scopesOwned.whole_of_part hsc₁ hpart
      exact ⟨st, hst⟩
    · obtain ⟨hinternal, hpart⟩ := hg.idsIssued.apart hs hm ht.symm
      rw [← hs.others t hinternal hpart]
      cases h with
      | top _ hfree => exact hfree.live
      | up _ hfree _ => exact hfree.live

theorem AddsNode.rejectionsExplained {ps : List ScopeId} (hg : RecordsValid g) (hs : AddsNode g id n ps g')
    (hnone : n.scope = none) :
    RejectionsExplained g g' := by
  refine ⟨[.nodeAdded id], hs.events, fun v name s hv hnameUnseen => .inl ?_⟩
  obtain ⟨m, hm, hvar, hname, hscope, ⟨sc, hsc⟩, hnot⟩ := leftUndeclared_iff.1 hv
  have hm' : g.nodeAt? v = some m := by
    rw [hs.nodeAt?] at hm
    split at hm
    next =>
      cases hm
      cases hnone.symm.trans hscope
    next => exact hm
  obtain ⟨hinternal, hpart⟩ := hg.idsIssued.apart hs hm' hscope
  have hscopes := hs.others s hinternal hpart
  have hlive : ∃ sc, g.scopeAt? s = some sc := ⟨sc, hscopes ▸ hsc⟩
  refine ⟨leftUndeclared_iff.2 ⟨m, hm', hvar, hname, hscope, hlive, ?_⟩, hs.nameUnseen hg hnameUnseen hlive, by simp,
    fun b hb => ?_⟩
  · rwa [Declared, ← hscopes]
  · exact hb.transport (fun t st hst => ⟨st, hs.scope_of hst, rfl⟩) fun x k hk => ⟨k, hs.node_of hk, rfl⟩

theorem RemovesNode.rejectionsExplained {inner : List ScopeId} (h : RemovesNode g id inner g')
    (hn : g.nodeAt? id = some n) (hnone : n.scope = none) : RejectionsExplained g g' := by
  refine .of_still h.survivorsKept h.events (by simp) (fun x => ?_) ?_
  · rw [h.homeAt?]
    split
    next hx => rw [hx, Graph.homeAt?, hn, Option.bind_some, hnone]
    next => rfl
  · rintro t sc w hsc ⟨sc', hsc', hw⟩
    rw [h.scopeAt?] at hsc
    split at hsc
    next => cases hsc
    next hleft => exact ⟨sc', by rw [h.scopeAt?, if_neg hleft, hsc'], hw⟩

theorem EditSteps.rejectionsExplained (hg : RecordsValid g) (h : EditSteps may g g') : RejectionsExplained g g' := by
  induction h with
  | refl => exact .refl g
  | tail heditSteps heditStep ih =>
    have hg' := hg.steps (EditSteps.steps heditSteps)
    cases heditStep with
    | act hact => exact ih.trans (hact.rejectionsExplained hg'.scopesOwned hg'.scopesMatchNodes)
    | discard _ hn hnone _ _ hs => exact ih.trans (hs.rejectionsExplained hn hnone)

theorem spawn_rejectionsExplained {build : NodeId → Node} {partitions : Option Nat} {s : Option ScopeId}
    (hg : RecordsValid g) (hbuildsUnlinked : BuildsUnlinked g.config.fanIn build)
    (h : g.spawn build partitions s = .ok (id, g')) : RejectionsExplained g g' := by
  obtain ⟨n, ps, g₁, hnew, -, heditMoves⟩ := spawn_editMoves hbuildsUnlinked h
  have hs := hnew.toAddsNode
  have hscopesMatch := hg.scopesMatchNodes.addsNode hs hnew.unscoped fun x m t hm ht => hg.idsIssued.apart hs hm ht
  exact (hs.rejectionsExplained hg hnew.unscoped).trans
    (heditMoves.editChanges.rejectionsExplained (hg.scopesOwned.addsNode hs) hscopesMatch)

theorem HoldsNothing.not_leftUndeclared (h : HoldsNothing g) (hspawn : g.spawnEntryPoint = .ok g') :
    ¬LeftUndeclared g' v name s := by
  simp only [spawnEntryPoint, bind_eq_ok, pure_eq_ok] at hspawn
  obtain ⟨⟨id, g₁⟩, hg₁, rfl⟩ := hspawn
  obtain ⟨n, ps, _, hnew, -, ⟨-, rfl⟩ | ⟨_, ⟨⟩, -⟩⟩ := spawn_addsUnplaced (Node.buildsUnlinked_entryPoint _) hg₁
  intro hv
  obtain ⟨m, hm, hvar, -⟩ := leftUndeclared_iff.1 hv
  have hm : g₁.nodeAt? v = some m := hm
  rw [hnew.nodeAt?, h.nodeAt?] at hm
  split at hm
  next =>
    cases hm
    rw [Node.isVariable, hnew.kind] at hvar
    cases hvar
  next => cases hm

theorem perform_rejectionsExplained {e : Edit} (hg : WellFormed g) (he : e ≠ .drainEvents)
    (hperform : g.perform e = .ok g') :
    RejectionsExplained g g' := by
  cases perform_editChanges guards_always hperform with
  | changes _ heditChanges => exact heditChanges.rejectionsExplained hg.scopesOwned hg.scopesMatchNodes
  | create _ hbuildsUnlinked hspawn heditChanges =>
    have hg₁ := hg.spawn hbuildsUnlinked hspawn
    exact (spawn_rejectionsExplained hg.toRecordsValid hbuildsUnlinked hspawn).trans
      (heditChanges.rejectionsExplained hg₁.scopesOwned hg₁.scopesMatchNodes)
  | block _ hbuildsUnlinked hspawn => exact spawn_rejectionsExplained hg.toRecordsValid hbuildsUnlinked hspawn
  | undo hbuildsUnlinked hspawn hdestroy =>
    have hg₁ := hg.spawn hbuildsUnlinked hspawn
    exact (spawn_rejectionsExplained hg.toRecordsValid hbuildsUnlinked hspawn).trans
      ((destroy_editSteps guards_always hg₁.toLinksScopesValid hdestroy).rejectionsExplained hg₁.toRecordsValid)
  | destroy _ heditChanges hdestroy =>
    have hg₁ := hg.changes heditChanges.changes
    exact (heditChanges.rejectionsExplained hg.scopesOwned hg.scopesMatchNodes).trans
      ((destroy_editSteps guards_always hg₁.toLinksScopesValid hdestroy).rejectionsExplained hg₁.toRecordsValid)
  | reset hreset =>
    obtain ⟨events, hevents, -⟩ := eventsReplay_reset hg.nodesListed hreset
    obtain ⟨g₀, hholdsNothing, -, -, hspawn⟩ := reset_eq hg.nodesListed hreset
    exact ⟨events, hevents, fun v name s hv => (hholdsNothing.not_leftUndeclared hspawn hv).elim⟩
  | drain => exact (he rfl).elim

theorem Logged.blockDeparted {log : List Event} (h : Logged log g) (hv : LeftUndeclared g v name s)
    (hnameUnseen : NameUnseen g name s) :
    BlockDeparted (log ++ g.events) g v s := by
  induction h generalizing v name s with
  | create hcreate =>
    obtain ⟨g₀, hholdsNothing, -, -, hspawn⟩ := create_eq hcreate
    exact (hholdsNothing.not_leftUndeclared hspawn hv).elim
  | edit e hlogged he hperform ih =>
    obtain ⟨events, hevents, haccounts⟩ := perform_rejectionsExplained hlogged.reachable.wellFormed he hperform
    rw [hevents]
    rcases haccounts v name s hv hnameUnseen with ⟨hv, hnameUnseen, hsilent, hkept⟩ | hblockDeparted
    · rw [← List.append_assoc]
      exact (ih hv hnameUnseen).later hsilent hkept
    · rw [← List.append_assoc]
      exact hblockDeparted.earlier _
  | @drain log g _ ih =>
    show BlockDeparted (log ++ g.events ++ []) { g with events := [] } v s
    refine (ih hv (hnameUnseen.congr (fun _ => rfl) fun _ => rfl)).later (fun _ => List.not_mem_nil) fun b hb => ?_
    exact hb.transport (fun _ sc hsc => ⟨sc, hsc, rfl⟩) fun _ n hn => ⟨n, hn, rfl⟩
  | @issued log g _ _ _ ih =>
    rw [← List.append_nil (log ++ _)]
    refine (ih hv (hnameUnseen.congr (fun _ => rfl) fun _ => rfl)).later (fun _ => List.not_mem_nil) fun b hb => ?_
    exact hb.transport (fun _ sc hsc => ⟨sc, hsc, rfl⟩) fun _ n hn => ⟨n, hn, rfl⟩

theorem Reachable.exists_logged (h : Reachable g) : ∃ log, Logged log g := by
  induction h with
  | create hcreate => exact ⟨[], .create hcreate⟩
  | edit e _ hperform ih =>
    obtain ⟨log, hlogged⟩ := ih
    by_cases he : e = .drainEvents
    · subst he
      cases hperform
      exact ⟨_, hlogged.drain⟩
    · exact ⟨log, hlogged.edit e he hperform⟩
  | issued _ hids ih =>
    obtain ⟨log, hlogged⟩ := ih
    exact ⟨log, hlogged.issued hids⟩

theorem exists_variableErrors (hn : g.nodeAt? id = some n)
    (hhome : ∀ s, n.scope = some s → ∃ sc, g.scopeAt? s = some sc) : ∃ errors, g.variableErrors id n = .ok errors ∧
      ∀ v name, .duplicateVariable v name ∈ errors ↔ v = id ∧ ∃ s, LeftUndeclared g v name s := by
  have hnot (hplain : ∀ s sc, n.isVariable = true → n.scope = some s → g.scopeAt? s = some sc → id ∈ sc.declared)
      (v : NodeId) (name : String) : ¬(v = id ∧ ∃ s, LeftUndeclared g v name s) := by
    rintro ⟨rfl, s, hv⟩
    obtain ⟨m, hm, hvar, -, hs, ⟨sc, hsc⟩, hv⟩ := leftUndeclared_iff.1 hv
    cases hn.symm.trans hm
    exact hv ⟨sc, hsc, hplain s sc hvar hs hsc⟩
  unfold variableErrors
  split
  next hplain =>
    rw [Bool.not_eq_true'] at hplain
    refine ⟨[], rfl, fun v name => iff_of_false List.not_mem_nil (hnot ?_ v name)⟩
    intro _ _ hvar
    cases hplain.symm.trans hvar
  next hvar =>
    rw [Bool.not_eq_true', Bool.not_eq_false] at hvar
    split
    next hnone =>
      refine ⟨_, rfl, fun v name => iff_of_false (by simp) (hnot ?_ v name)⟩
      intro _ _ _ hs
      cases hnone.symm.trans hs
    next s hs =>
      obtain ⟨sc, hsc⟩ := hhome s hs
      rw [scope_eq_ok_iff.2 hsc, ok_bind]
      by_cases hmem : id ∈ sc.declared
      · refine ⟨[], if_pos (List.contains_iff_mem.2 hmem), fun v name => iff_of_false List.not_mem_nil (hnot ?_ v name)⟩
        intro t st _ ht hst
        cases hs.symm.trans ht
        cases hsc.symm.trans hst
        exact hmem
      · refine ⟨[.duplicateVariable id n.name], if_neg fun h => hmem (List.contains_iff_mem.1 h), fun v name => ?_⟩
        rw [List.mem_singleton, CompileError.duplicateVariable.injEq]
        constructor
        · rintro ⟨rfl, rfl⟩
          exact ⟨rfl, s, leftUndeclared_iff.2 ⟨n, hn, hvar, rfl, hs, ⟨sc, hsc⟩, fun h => hmem (h.mem hsc)⟩⟩
        · rintro ⟨rfl, t, hv⟩
          obtain ⟨m, hm, -, rfl, -⟩ := leftUndeclared_iff.1 hv
          cases hn.symm.trans hm
          exact ⟨rfl, rfl⟩

theorem exists_nodeErrors (hn : g.nodeAt? id = some n)
    (hhome : ∀ s, n.scope = some s → ∃ sc, g.scopeAt? s = some sc) : ∃ errors, g.nodeErrors id = .ok errors ∧
      ∀ v name, .duplicateVariable v name ∈ errors ↔ v = id ∧ ∃ s, LeftUndeclared g v name s := by
  obtain ⟨errors, herrors, hreports⟩ := exists_variableErrors hn hhome
  refine ⟨errors ++ g.callableErrors id n, ?_, fun v name => ?_⟩
  · rw [nodeErrors, node_eq_ok_iff.2 hn, ok_bind, herrors]
    rfl
  · have hcallable : .duplicateVariable v name ∉ g.callableErrors id n := by
      unfold callableErrors
      split
      next => exact List.not_mem_nil
      next =>
        split
        next => simp
        next => exact List.not_mem_nil
    rw [List.mem_append, or_iff_left hcallable, hreports]

theorem LeftUndeclared.mem_nodes (hv : LeftUndeclared g v name s) (hg : WellFormed g) : v ∈ g.nodes := by
  obtain ⟨n, hn, -⟩ := leftUndeclared_iff.1 hv
  rw [hg.nodesListed.mem_nodes_iff, hn]
  rfl

theorem not_leftUndeclared_of_isEmpty (hg : WellFormed g) (hempty : g.isEmpty = true) : ¬LeftUndeclared g v name s := by
  intro hv
  obtain ⟨r, hr, hkind⟩ := hg.rootIsEntryPoint
  have hroot : g.root ∈ g.nodes := by
    rw [hg.nodesListed.mem_nodes_iff, hr]
    rfl
  have hlisted := hv.mem_nodes hg
  rw [isEmpty, beq_iff_eq, List.length_eq_one_iff] at hempty
  obtain ⟨x, hx⟩ := hempty
  rw [hx, List.mem_singleton] at hlisted hroot
  obtain ⟨n, hn, hvar, -⟩ := leftUndeclared_iff.1 hv
  rw [hlisted, ← hroot] at hn
  cases hr.symm.trans hn
  rw [Node.isVariable, hkind] at hvar
  cases hvar

theorem exists_validate (hg : WellFormed g) (hc : Consistent g) : ∃ errors, g.validate = .ok errors ∧
    ∀ v name, .duplicateVariable v name ∈ errors ↔ ∃ s, LeftUndeclared g v name s := by
  have hnode {x : NodeId} (hx : x ∈ g.nodes) : ∃ errors, g.nodeErrors x = .ok errors ∧
      ∀ v name, .duplicateVariable v name ∈ errors ↔ v = x ∧ ∃ s, LeftUndeclared g v name s := by
    obtain ⟨n, hn⟩ := Option.isSome_iff_exists.1 (hg.nodesListed.mem_nodes_iff.1 hx)
    exact exists_nodeErrors hn fun s hs => (consistent_iff.1 hc).2.home hn hs
  unfold validate
  split
  next hempty =>
    refine ⟨_, rfl, fun v name => iff_of_false (by simp) ?_⟩
    rintro ⟨s, hv⟩
    exact not_leftUndeclared_of_isEmpty hg hempty hv
  next =>
    obtain ⟨lists, hlists⟩ := exists_mapM fun x (hx : x ∈ g.nodes) => (hnode hx).imp fun _ => And.left
    refine ⟨lists.flatten, by rw [hlists]; rfl, fun v name => ?_⟩
    rw [List.mem_flatten]
    constructor
    · rintro ⟨errors, herrors, hv⟩
      obtain ⟨x, hx, hreported⟩ := of_mem_mapM hlists herrors
      obtain ⟨errors', hreported', hreports⟩ := hnode hx
      cases hreported.symm.trans hreported'
      exact ((hreports v name).1 hv).2
    · rintro ⟨s, hv⟩
      obtain ⟨errors, herrors, hreported⟩ := exists_of_mem_mapM hlists (hv.mem_nodes hg)
      obtain ⟨errors', hreported', hreports⟩ := hnode (hv.mem_nodes hg)
      cases hreported.symm.trans hreported'
      exact ⟨errors, herrors, (hreports v name).2 ⟨rfl, s, hv⟩⟩

theorem nameClash_of_findVariable {w : NodeId} (hh : ScopesMatchNodes g) (hv : LeftUndeclared g v name s)
    (h : g.findVariable s name true = .ok (some w)) : NameClash g v name s := by
  obtain ⟨t, hwithin, ⟨st, hst, hw⟩, m, hm, hname⟩ := declared_of_findVariableWithin h
  refine ⟨w, t, st, m, h, ?_, hwithin, scope_eq_ok_iff.2 hst, hw, node_eq_ok_iff.2 hm, hname⟩
  rintro rfl
  have hscopeMatches := hh.scopeMatchesNodes hst
  obtain ⟨n, hn, ht⟩ := hscopeMatches.child w (hscopeMatches.declared w hw).1
  obtain ⟨n', hn', -, -, hs, -, hnot⟩ := leftUndeclared_iff.1 hv
  cases hn.symm.trans hn'
  cases ht.symm.trans hs
  exact hnot ⟨st, hst, hw⟩

/-- A variable that is not declared in its scope clashes with one that is declared there or around, unless a block
around it has left a scope since it came. Duplicates are reported for such variables, and for no others. An edit
leaves a variable without one that it clashes with only if it takes a block around the variable out of a scope. -/
theorem nameClash_or_blockDeparted (hr : Reachable g) (hc : Consistent g) :
    (∃ log, Logged log g) ∧
    (∀ log v name s, Logged log g → LeftUndeclared g v name s →
      NameClash g v name s ∨ g.findVariable s name true = .ok none ∧ BlockDeparted (log ++ g.events) g v s) ∧
    (∃ errors, g.validate = .ok errors ∧
      ∀ v name, .duplicateVariable v name ∈ errors ↔ ∃ s, LeftUndeclared g v name s) ∧
    ∀ e g', e ≠ .drainEvents → g.perform e = .ok g' → ∃ events, g'.events = g.events ++ events ∧
      ∀ v name s, LeftUndeclared g' v name s → g'.findVariable s name true = .ok none →
        LeftUndeclared g v name s ∧ g.findVariable s name true = .ok none ∨ BlockDeparted events g' v s := by
  have hg := hr.wellFormed
  refine ⟨hr.exists_logged, fun log v name s hlogged hv => ?_, exists_validate hg hc, fun e g' he hperform => ?_⟩
  · obtain ⟨n, hn, -, -, hs, -⟩ := leftUndeclared_iff.1 hv
    obtain ⟨sc, hsc, -⟩ := hc.placed (node_eq_ok_iff.2 hn) hs
    obtain ⟨found, hfound⟩ := exists_findVariable hg.scopesMatchNodes (hc.parentsEnd hsc) name
    cases found with
    | some w => exact .inl (nameClash_of_findVariable hg.scopesMatchNodes hv hfound)
    | none => exact .inr ⟨hfound, hlogged.blockDeparted hv ((findVariable_eq_none_iff hg.scopesMatchNodes).1 hfound)⟩
  · obtain ⟨events, hevents, haccounts⟩ := perform_rejectionsExplained hg he hperform
    refine ⟨events, hevents, fun v name s hv hnone => ?_⟩
    refine (haccounts v name s hv (nameUnseen_of_findVariableWithin hnone)).imp_left fun ⟨hbefore, hnameUnseen, _⟩ => ?_
    exact ⟨hbefore, (findVariable_eq_none_iff hg.scopesMatchNodes).2 hnameUnseen⟩

theorem leftUndeclared_of_check {x : Except Fault Graph} (hx : x = .ok g) (h : (do
      let g ← x
      let n ← g.node v
      let sc ← g.scope s
      return n.isVariable && n.name == name && n.scope == some s && !sc.declared.contains v).toOption = some true) :
    LeftUndeclared g v name s := by
  have h := eq_ok_of_toOption_bind (fun g => do
    let n ← g.node v
    let sc ← g.scope s
    return n.isVariable && n.name == name && n.scope == some s && !sc.declared.contains v) hx h
  simp only [bind_eq_ok, pure_eq_ok, Bool.and_eq_true, beq_iff_eq, Bool.not_eq_true', List.contains_eq_mem,
    decide_eq_false_iff_not] at h
  obtain ⟨n, hn, sc, hsc, ⟨⟨hvar, hname⟩, hs⟩, hnot⟩ := h
  exact ⟨n, sc, hn, hvar, hname, hs, hsc, hnot⟩

/-- Two variables of one name in the root scope. -/
def namesakes : Except Fault Graph := do
  let g ← create {} {} default {}
  [.declaration .int "x" ⟨2⟩, .declaration .int "x" ⟨2⟩].foldlM perform g

theorem nameClash_namesakes : ∃ g, namesakes = .ok g ∧ Reachable g ∧ Consistent g ∧ Logged [] g ∧
    LeftUndeclared g ⟨4⟩ "x" ⟨2⟩ ∧ NameClash g ⟨4⟩ "x" ⟨2⟩ := by
  obtain ⟨g, hg⟩ := exists_of_isOk (x := namesakes) (by decide +kernel)
  have hleftUndeclared : LeftUndeclared g ⟨4⟩ "x" ⟨2⟩ := leftUndeclared_of_check hg (by decide +kernel)
  have hfound := eq_ok_of_toOption_bind (fun g => g.findVariable ⟨2⟩ "x" true) hg (b := some ⟨3⟩) (by decide +kernel)
  simp only [namesakes, bind_eq_ok] at hg
  obtain ⟨g₀, hcreate, hperforms⟩ := hg
  obtain ⟨hr, hc⟩ := consistent_foldlM hperforms (.create hcreate) (consistent_create hcreate) (by
    simp only [List.forall_mem_cons]
    exact ⟨⟨rfl, rfl⟩, ⟨rfl, rfl⟩, by simp⟩)
  have hlogged : Logged [] g := foldlM_induction hperforms (.create hcreate) fun g₁ e he g₂ hlogged hperform => by
    refine hlogged.edit e ?_ hperform
    simp only [List.mem_cons, List.not_mem_nil, or_false] at he
    rcases he with rfl | rfl <;> simp
  refine ⟨g, bind_eq_ok.2 ⟨g₀, hcreate, hperforms⟩, hr, hc, hlogged, hleftUndeclared, ?_⟩
  refine ((nameClash_or_blockDeparted hr hc).2.1 [] ⟨4⟩ "x" ⟨2⟩ hlogged hleftUndeclared).resolve_right ?_
  rintro ⟨hnone, -⟩
  cases hfound.symm.trans hnone

def uprooted : Except Fault Graph := do
  let g ← create {} {} default {}
  let s ← g.rootScope
  let _ ← g.scope s
  let g ← g.perform (.conditional .ifElse s)
  let _ ← g.scope ⟨6⟩
  let g ← g.perform (.conditional .ifElse ⟨6⟩)
  [.declaration .int "x" ⟨6⟩, .declaration .int "x" ⟨10⟩, .changeScope ⟨7⟩ s].foldlM perform g

/-- Nothing is in sight any more of what the inner variable was rejected for. -/
theorem not_nameClash_uprooted : ¬∀ g v name s, Reachable g → Consistent g → LeftUndeclared g v name s →
    ∃ w, g.findVariable s name true = .ok (some w) := by
  intro hclash
  obtain ⟨g, hg⟩ := exists_of_isOk (x := uprooted) (by decide +kernel)
  have hleftUndeclared : LeftUndeclared g ⟨12⟩ "x" ⟨10⟩ := leftUndeclared_of_check hg (by decide +kernel)
  have hnone := eq_ok_of_toOption_bind (fun g => g.findVariable ⟨10⟩ "x" true) hg (b := none) (by decide +kernel)
  simp only [uprooted, bind_eq_ok] at hg
  obtain ⟨g₀, hcreate, s, -, sc, hsc, g₁, houter, sc₁, hsc₁, g₂, hinner, hperforms⟩ := hg
  have h₁ : Consistent g₁ := by
    refine (consistent_create hcreate).perform rfl ?_ houter
    rintro _ ⟨⟩
    exact ⟨sc, hsc⟩
  have h₂ : Consistent g₂ := by
    refine h₁.perform rfl ?_ hinner
    rintro _ ⟨⟩
    exact ⟨sc₁, hsc₁⟩
  obtain ⟨hr, hc⟩ := consistent_foldlM hperforms (.edit _ (.edit _ (.create hcreate) houter) hinner) h₂ (by
    simp only [List.forall_mem_cons]
    exact ⟨⟨rfl, rfl⟩, ⟨rfl, rfl⟩, ⟨rfl, rfl⟩, by simp⟩)
  obtain ⟨w, hw⟩ := hclash g ⟨12⟩ "x" ⟨10⟩ hr hc hleftUndeclared
  cases hnone.symm.trans hw

end FlowGraph.Graph
