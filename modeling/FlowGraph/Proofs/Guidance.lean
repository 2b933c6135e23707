import FlowGraph.Proofs.Heads

/-!
# Heads that follow the links

Creations, links that are made and removed with side effects, and destructions with side effects leave no wrong head.
Every one of these edits leaves the heads as the branches have it, and only a link to a node that nothing else leads to
gives a scope a head. A destruction is a series of removals and links.
-/

namespace FlowGraph

def Edit.guides : Edit → Bool
  | .connect _ _ sideEffects | .disconnect _ sideEffects | .destroy _ sideEffects => sideEffects
  | e => e.creates

namespace Graph

open Relation

variable {g g' : Graph} {id x : NodeId} {s t : ScopeId}

theorem HeadsKept.after {g₁ : Graph} (h : HeadsKept g₁ g') (hhead : ∀ s, g₁.headAt? s = g.headAt? s) : HeadsKept g g' :=
  ⟨h.headIsLinked, fun hx => (hhead _).symm.trans (h.of_headAt? hx),
  fun hleads hx => h.headAt? hleads ((hhead _).trans hx)⟩

theorem dropLinks_sameFrames {ls : List Link} (h : ls.foldlM dropLink g = .ok g') : SameFrames g g' := by
  refine foldlM_induction h .rfl ?_
  intro h₁ l _ h₂ hsameFrames hdrop
  rcases dropLink_eq hdrop with ⟨-, rfl⟩ | ⟨-, hpropertyWritten⟩
  · exact hsameFrames
  · exact hsameFrames.trans ((sameFrames_removeLink h₁ l).trans hpropertyWritten.sameFrames)

theorem RemovesNode.headAt? {inner : List ScopeId} (h : RemovesNode g id inner g') (s : ScopeId) :
    g'.headAt? s = if s ∈ inner then none else g.headAt? s := by
  rw [Graph.headAt?, h.scopeAt?, Graph.headAt?]
  split <;> rfl

theorem RemovesNode.homeAt? {inner : List ScopeId} (h : RemovesNode g id inner g') (x : NodeId) :
    g'.homeAt? x = if x = id then none else g.homeAt? x := by
  rw [Graph.homeAt?, h.nodeAt?, Graph.homeAt?]
  split <;> rfl

section

variable (hgates : ∀ r, BranchSlotOf g s r → r.node ≠ id) (hne : x ≠ id)

include hgates hne

theorem BranchLeadsTo.unlinked (h : BranchLeadsTo g s x) (hw : LinksMatch g)
    (hunlinked : ((g.valueLinks ++ g.flowLinks).filter (·.involves id)).foldlM dropLink g = .ok g') :
    BranchLeadsTo g' s x := by
  have hdropped : Changes always g g' := dropLinks_changes hunlinked
  refine h.changes hdropped (fun l hl hbranchSlot hlx => ?_) (((dropLinks_sameFrames hunlinked).homeAt? x).trans h.home)
  refine (links_dropLinks hw hunlinked .flow l).2 ⟨hl, fun hmem => ?_⟩
  have hinvolves := (List.mem_filter.1 hmem).2
  rw [Link.involves, Bool.or_eq_true, beq_iff_eq, beq_iff_eq] at hinvolves
  rcases hinvolves with htail | hhead
  · exact hgates _ hbranchSlot htail
  · exact hne (hlx.symm.trans hhead)

theorem BranchLeadsTo.shed {inner : List ScopeId} (h : BranchLeadsTo g s x) (hremovesNode : RemovesNode g id inner g')
    (hs : s ∉ inner) :
    BranchLeadsTo g' s x := by
  refine h.mono (fun r hbranchSlot => ?_) (fun l hl _ _ => ?_)
    ((hremovesNode.homeAt? x).trans ((if_neg hne).trans h.home))
  · refine hbranchSlot.congr (fun sc hsc => ⟨sc, ?_, rfl⟩) fun slot hslot => ⟨slot, ?_, rfl⟩
    · rw [hremovesNode.scopeAt?, if_neg hs, hsc]
    · rw [slotAt?, hremovesNode.nodeAt?, if_neg (hgates r hbranchSlot)]
      exact hslot
  · rwa [links_congr hremovesNode.valueLinks hremovesNode.flowLinks]

end

/-- With a node go the scopes whose branch slots it has, and it is nobody's head any more. -/
theorem remove_headsKept {inner : List ScopeId} (hg : WellFormed g) (hinner : g.innerScopes id = .ok inner)
    (hremove : g.remove id inner = .ok g') (hheadIsLinked : ∀ s x, HeadIsLinked g s x) : HeadsKept g g' := by
  obtain ⟨unlinked, left, t, n, hunlinked, hexits, hn, hnone, hremovesNode⟩ := remove_eq hremove
  have hhead (s : ScopeId) : unlinked.headAt? s = g.headAt? s := (dropLinks_sameFrames hunlinked).headAt? s
  have hdropped : Changes always g unlinked := dropLinks_changes hunlinked
  have hchanges : Changes always g left := hdropped.trans hexits.moves.of_never.changes
  refine ⟨fun s x hx => ?_, fun hx => ?_, fun {s x} hleads hx => ?_⟩
  · rw [hremovesNode.headAt?] at hx
    split at hx
    next => cases hx
    next hs =>
      have hgates (r : SlotRef) (hbranchSlotOf : BranchSlotOf g s r) : r.node ≠ id := by
        obtain ⟨sc, -, hsc, -, howner, -⟩ := hbranchSlotOf
        exact fun he => hs ((hg.scopesOwned.mem_innerScopes hinner hsc).2 (howner.trans he))
      have hne : x ≠ id := by
        rintro rfl
        obtain ⟨sc, hsc, hmem⟩ := Option.bind_eq_some_iff.1 hx
        have hscopeMatches := (hg.scopesMatchNodes.changes hchanges).scopeMatchesNodes hsc
        obtain ⟨m, hm, hscope⟩ := hscopeMatches.child _ (hscopeMatches.head _ hmem)
        cases hn.symm.trans hm
        cases hnone.symm.trans hscope
      have hheadIsLinked₁ : HeadIsLinked unlinked s x := fun hx₁ =>
        (hheadIsLinked s x ((hhead s).symm.trans hx₁)).unlinked hgates hne hg.linksMatch hunlinked
      have hleads : BranchLeadsTo left s x := hheadIsLinked₁.exits hexits hx
      exact hleads.shed
        (fun r hbranchSlotOf => hgates r ((branchSlotOf_changes hchanges).1 hbranchSlotOf)) hne
        hremovesNode hs
  · rw [hremovesNode.headAt?] at hx
    split at hx
    next => cases hx
    next => exact (hhead _).symm.trans (hexits.of_headAt? hx)
  · obtain ⟨sc, hsc⟩ := hleads.live
    have hs : s ∉ inner := by
      intro hs
      rw [hremovesNode.scopeAt?, if_pos hs] at hsc
      cases hsc
    have hhome := (hremovesNode.homeAt? x).symm.trans hleads.home
    split at hhome
    next => cases hhome
    next =>
      rw [hremovesNode.headAt?, if_neg hs]
      rcases hexits.headAt? ((hhead s).trans hx) with hx | ⟨-, hgone⟩
      · exact hx
      · cases hgone.symm.trans hhome

theorem live_of_remove {inner : List ScopeId} (h : g.remove id inner = .ok g') : ∃ n, g.nodeAt? id = some n := by
  obtain ⟨unlinked, left, t, n, hunlinked, hexits, hn, -⟩ := remove_eq h
  have hchanges : Changes always g left := (dropLinks_changes hunlinked).trans hexits.moves.of_never.changes
  obtain ⟨m, hm, -⟩ := hchanges.allKept.node hn
  exact ⟨m, hm⟩

/-- A stage of a destruction with side effects. -/
inductive HeadStage (g g' : Graph) : Prop
  | remove {id : NodeId} {inner : List ScopeId} : g.innerScopes id = .ok inner → g.remove id inner = .ok g' →
      HeadsFollow g none g' → HeadStage g g'
  | relink {a b : SlotRef} {r : Except ConnectError Link} : g.connect a b true = .ok (g', r) →
      HeadsFollow g r.toOption g' → HeadStage g g'

structure HeadStages (g g' : Graph) : Prop where
  stages : ReflTransGen HeadStage g g'
  steps : Steps always g g'
  headsLinked : HeadsLinked g'

theorem HeadStages.trans {g₁ g₂ g₃ : Graph} (h : HeadStages g₁ g₂) (h' : HeadStages g₂ g₃) : HeadStages g₁ g₃ :=
  ⟨h.stages.trans h'.stages, h.steps.trans h'.steps, h'.headsLinked⟩

theorem HeadsLinked.headStages (h : HeadsLinked g) : HeadStages g g := ⟨.refl, .refl, h⟩

theorem destroyWithin_headStages {k : Nat} (h : HeadsLinked g) (hdestroy : destroyWithin true k g id = .ok g') :
    HeadStages g g' := by
  induction k generalizing g id g' with
  | zero => cases hdestroy
  | succ k ih =>
    have hfold {ids : List NodeId} {g₁ g₂ : Graph} (h : HeadsLinked g₁)
        (hdestroy : ids.foldlM (destroyWithin true k) g₁ = .ok g₂) : HeadStages g₁ g₂ :=
      foldlM_induction hdestroy h.headStages fun _ _ _ _ hheadStages hdestroy => hheadStages.trans
        (ih hheadStages.headsLinked hdestroy)
    rcases destroyWithin_eq hdestroy with ⟨-, rfl⟩ | ⟨n, inner, hroot, hn, hinner, hstages⟩
    · exact h.headStages
    cases hstages with
    | @deep inputs content g₁ g₂ g₃ _ _ hinputs _ hcontent hremove hrelink =>
      have hheadStages := (hfold h hinputs).trans (hfold (hfold h hinputs).headsLinked hcontent)
      have h₂ := hheadStages.headsLinked
      have hinner₂ {m : Node} (hm : g₂.nodeAt? id = some m) : g₂.innerScopes id = .ok inner :=
        h₂.scopesOwned.innerScopes_of_survivorsKept hheadStages.steps.survivorsKept hinner hm
      obtain ⟨m, hm⟩ := live_of_remove hremove
      have hroot₂ : id ≠ g₂.root := by rwa [hheadStages.steps.survivorsKept.root]
      have hsteps : Steps always g₂ g₃ :=
        (remove_editSteps h₂.toLinksScopesValid hroot₂ (fun _ => hinner₂) hremove).steps
      obtain ⟨h₃, hfollows⟩ := (remove_headsKept h₂.toWellFormed (hinner₂ hm) hremove h₂.headIsLinked).headsFollow
        (h₂.toWellFormedLayout.steps hsteps)
      have hheadStages₃ := hheadStages.trans ⟨.single (.remove (hinner₂ hm) hremove hfollows), hsteps, h₃⟩
      rcases relink_eq hrelink with rfl | ⟨a, b, r, -, hconnect⟩
      · exact hheadStages₃
      · obtain ⟨h₄, hfollows'⟩ := h₃.connect hconnect
        have hsteps := (connect_editChanges guards_always hconnect).changes.steps
        exact hheadStages₃.trans ⟨.single (.relink hconnect hfollows'), hsteps, h₄⟩

theorem HeadsLinked.destroy (h : HeadsLinked g) (hdestroy : g.destroy id true = .ok g') : HeadStages g g' :=
  destroyWithin_headStages h hdestroy

section

variable {n : Node} {ps : List ScopeId}

theorem AddsNode.headAt? (hs : AddsNode g id n ps g') (s : ScopeId) : g'.headAt? s = g.headAt? s := by
  by_cases hnew : n.internalScope = some s ∨ s ∈ ps
  · rw [Graph.headAt?, Graph.headAt?, (hs.fresh_scope s hnew).1]
    cases hinternal : n.internalScope with
    | none =>
      rw [hinternal, hs.unsplit hinternal] at hnew
      rcases hnew with hnew | hnew <;> cases hnew
    | some i =>
      rcases hnew with hnew | hnew
      · rw [hs.internal s hnew]
        rfl
      · obtain ⟨j, hj⟩ := List.getElem?_of_mem hnew
        rw [hs.partition i hinternal j s hj]
        rfl
  · rw [not_or] at hnew
    rw [Graph.headAt?, hs.others s hnew.1 hnew.2, Graph.headAt?]

theorem AddsNode.branchLeadsTo (hs : AddsNode g id n ps g') (h : BranchLeadsTo g s x) : BranchLeadsTo g' s x := by
  have hnode {y : NodeId} {m : Node} (hm : g.nodeAt? y = some m) : g'.nodeAt? y = some m := by
    rw [hs.nodeAt?, if_neg, hm]
    rintro rfl
    cases hs.fresh.symm.trans hm
  refine h.mono (fun r hbranchSlot => hbranchSlot.congr (fun sc hsc => ⟨sc, ?_, rfl⟩) fun slot hslot => ⟨slot, ?_, rfl⟩)
    (fun l hl _ _ => ?_) ?_
  · have hold (hnew : n.internalScope = some s ∨ s ∈ ps) : False := by
      cases (hs.fresh_scope s hnew).1.symm.trans hsc
    rw [hs.others s (fun he => hold (.inl he)) fun he => hold (.inr he), hsc]
  · obtain ⟨m, hm, hslot⟩ := Option.bind_eq_some_iff.1 hslot
    exact Option.bind_eq_some_iff.2 ⟨m, hnode hm, hslot⟩
  · rwa [links_congr hs.valueLinks hs.flowLinks]
  · obtain ⟨m, hm, hscope⟩ := homeAt?_eq_some_iff.1 h.home
    exact homeAt?_eq_some_iff.2 ⟨m, hnode hm, hscope⟩

end

theorem spawn_heads {build : NodeId → Node} {partitions : Option Nat} {target : Option ScopeId}
    (hbuildsUnlinked : BuildsUnlinked g.config.fanIn build) (hspawn : g.spawn build partitions target = .ok (id, g')) :
    (∀ s, g'.headAt? s = g.headAt? s) ∧ ∀ s x, HeadIsLinked g s x → HeadIsLinked g' s x := by
  obtain ⟨n, ps, g₁, hnew, -, hplaced⟩ := spawn_addsUnplaced hbuildsUnlinked hspawn
  have haddsNode := hnew.toAddsNode
  have hheadIsLinked (s : ScopeId) (x : NodeId) (h : HeadIsLinked g s x) : HeadIsLinked g₁ s x :=
    fun hx => haddsNode.branchLeadsTo (h ((haddsNode.headAt? s).symm.trans hx))
  rcases hplaced with ⟨-, rfl⟩ | ⟨t, -, hplaced⟩
  · exact ⟨haddsNode.headAt?, hheadIsLinked⟩
  · have hentries := insertIntoScope_entries (guards_always t) hplaced hnew.live hnew.unscoped trivial
    exact ⟨fun s => (hentries.headAt? s).trans (haddsNode.headAt? s),
      fun s x h => (hheadIsLinked s x h).entries hentries⟩

def LinkedOrSame (g g' : Graph) : Prop := g' = g ∨ ∃ a b l, g.validateLink a b = .ok (.ok l) ∧ g' = g.addLink l

theorem LinkedOrSame.headsKept (h : LinkedOrSame g g') (hheadIsLinked : ∀ s x, HeadIsLinked g s x) :
    HeadsKept g g' := by
  rcases h with rfl | ⟨a, b, l, hl, rfl⟩
  · exact .of_headAt?_eq (fun _ => rfl) hheadIsLinked
  · have hsameFrames := sameFrames_addLink g l
    exact .of_headAt?_eq hsameFrames.headAt? fun s x => (hheadIsLinked s x).addLink hl

theorem headsKept_of_raw {n : Node} (hg : WellFormed g) (hn : g.nodeAt? id = some n) (hplain : n.internalScope = none)
    (hdestroy : g.destroy id false = .ok g') (hheadIsLinked : ∀ s x, HeadIsLinked g s x) : HeadsKept g g' := by
  rcases destroy_scopeless hdestroy hn hplain with ⟨-, rfl⟩ | hremove
  · exact .of_headAt?_eq (fun _ => rfl) hheadIsLinked
  · exact remove_headsKept hg (innerScopes_eq_ok_iff.2 ⟨n, hn, .inl ⟨hplain, rfl⟩⟩) hremove hheadIsLinked

theorem create_headsKept {e : Edit} (h : HeadsLinked g) (he : e.creates = true) (hperform : g.perform e = .ok g') :
    HeadsKept g g' := by
  have heffect : EffectBy LinkedOrSame g e g' :=
    create_effect (fun _ => .inl rfl) (fun hl => .inr ⟨_, _, _, hl, rfl⟩) he hperform
  cases heffect with
  | changes _ hjoined => exact hjoined.headsKept h.headIsLinked
  | create _ hbuildsUnlinked hspawn hjoined =>
    obtain ⟨hhead, hheadIsLinked⟩ := spawn_heads hbuildsUnlinked hspawn
    exact (hjoined.headsKept fun s x => hheadIsLinked s x (h.headIsLinked s x)).after hhead
  | block _ hbuildsUnlinked hspawn =>
    obtain ⟨hhead, hheadIsLinked⟩ := spawn_heads hbuildsUnlinked hspawn
    exact .of_headAt?_eq hhead fun s x => hheadIsLinked s x (h.headIsLinked s x)
  | undo hbuildsUnlinked hspawn hdestroy =>
    obtain ⟨hhead, hheadIsLinked⟩ := spawn_heads hbuildsUnlinked hspawn
    obtain ⟨n, ps, g₁, hnew, hplain, heditMoves⟩ := spawn_editMoves hbuildsUnlinked hspawn
    obtain ⟨m, hm, hskeleton⟩ := heditMoves.moves.changes.allKept.node_of hnew.live
    have hinternal := (Node.of_skeleton hskeleton).2.2.trans (Option.map_eq_none_iff.1 hplain.symm)
    exact (headsKept_of_raw (h.toWellFormed.spawn hbuildsUnlinked hspawn) hm hinternal hdestroy fun s x =>
      hheadIsLinked s x (h.headIsLinked s x)).after hhead
  | destroy hdestroys => cases e <;> cases he <;> cases hdestroys
  | reset => cases he
  | drain => cases he

inductive GuidedHistory : Graph → Prop
  | create {ids : IdSupply} {library : Library} {config : Config} {g : Graph} :
      create {} ids library config = .ok g → GuidedHistory g
  | edit {g g' : Graph} (e : Edit) : e.guides = true → GuidedHistory g → g.perform e = .ok g' → GuidedHistory g'
  | issued {g : Graph} {ids : IdSupply} : GuidedHistory g → g.ids.next ≤ ids.next → GuidedHistory { g with ids }

theorem GuidedHistory.reachable (h : GuidedHistory g) : Reachable g := by
  induction h with
  | create hcreate => exact .create hcreate
  | edit e _ _ hperform ih => exact .edit e ih hperform
  | issued _ hids ih => exact .issued ih hids

theorem guides_cases {e : Edit} (he : e.guides = true) : e.creates = true ∨ (∃ a b, e = .connect a b true) ∨
    (∃ l, e = .disconnect l true) ∨ ∃ id, e = .destroy id true := by
  cases e with
  | connect a b sideEffects =>
    obtain rfl : sideEffects = true := he
    exact .inr (.inl ⟨a, b, rfl⟩)
  | disconnect l sideEffects =>
    obtain rfl : sideEffects = true := he
    exact .inr (.inr (.inl ⟨l, rfl⟩))
  | destroy id sideEffects =>
    obtain rfl : sideEffects = true := he
    exact .inr (.inr (.inr ⟨id, rfl⟩))
  | _ => exact .inl he

theorem GuidedHistory.headsLinked (h : GuidedHistory g) : HeadsLinked g := by
  induction h with
  | @create _ _ _ g hcreate =>
    refine ⟨(Reachable.create hcreate).wellFormedLayout, fun s x hx => ?_⟩
    obtain ⟨g₀, hholdsNothing, -, -, hspawn⟩ := create_eq hcreate
    simp only [spawnEntryPoint, bind_eq_ok, pure_eq_ok] at hspawn
    obtain ⟨⟨id, g₁⟩, hspawn, rfl⟩ := hspawn
    have hx₁ := ((spawn_heads (Node.buildsUnlinked_entryPoint _) hspawn).1 s).symm.trans hx
    rw [headAt?, hholdsNothing.scopeAt?] at hx₁
    cases hx₁
  | edit e he hguidedHistory hperform ih =>
    have hwellFormed := (GuidedHistory.edit e he hguidedHistory hperform).reachable.wellFormedLayout
    rcases guides_cases he with he | ⟨a, b, rfl⟩ | ⟨l, rfl⟩ | ⟨id, rfl⟩
    · exact ((create_headsKept ih he hperform).headsFollow hwellFormed).1
    · obtain ⟨⟨g₁, r⟩, hconnect, ⟨⟩⟩ := bind_eq_ok.1 hperform
      exact (ih.connect hconnect).1
    · obtain ⟨⟨g₁, r⟩, hdisconnect, ⟨⟩⟩ := bind_eq_ok.1 hperform
      exact ((ih.disconnect hdisconnect).headsFollow hwellFormed).1
    · exact (ih.destroy hperform).headsLinked
  | issued hguidedHistory hids ih =>
    exact ⟨(Reachable.issued hguidedHistory.reachable hids).wellFormedLayout, ih.headIsLinked⟩

/-- In a guided program a scope has the head that its branch leads to, or none, and its backbone starts there. An
edit that guides leaves the heads there are as far as the branches still lead to them, and adds the one that a
link introduces. -/
theorem headsFollow_of_guidedHistory (h : GuidedHistory g) :
    (∀ s sc, g.scope s = .ok sc → ∃ target, g.headOf s = .ok target ∧ (sc.head = none ∨ sc.head = target) ∧
      ∀ path, g.backbone s = .ok path → path.head? = sc.head) ∧
    (∀ s, g.rootScope = .ok s → ∃ path, g.backbone s = .ok path ∧ path.head? = g.headAt? s) ∧
    (∀ e g', e.creates = true → g.perform e = .ok g' → HeadsFollow g none g') ∧
    (∀ a b r g', g.connect a b true = .ok (g', r) → HeadsFollow g r.toOption g') ∧
    (∀ l r g', g.disconnect l true = .ok (g', r) → HeadsFollow g none g') ∧
    ∀ id g', g.destroy id true = .ok g' → ReflTransGen HeadStage g g' := by
  have hheadsLinked := h.headsLinked
  refine ⟨?_, ?_, ?_, fun _ _ _ _ hconnect => (hheadsLinked.connect hconnect).2, ?_,
    fun _ _ hdestroy => (hheadsLinked.destroy hdestroy).stages⟩
  · intro s sc hsc
    rw [scope_eq_ok_iff] at hsc
    obtain ⟨target, htarget⟩ := exists_headOf hheadsLinked.toWellFormedLayout hsc
    have hhead : g.headAt? s = sc.head := by rw [headAt?, hsc, Option.bind_some]
    refine ⟨target, htarget, ?_, fun path hpath => (head?_backbone hsc hpath)⟩
    cases hx : sc.head with
    | none => exact .inl rfl
    | some x =>
      have hleads := hheadsLinked.headIsLinked s x (hhead.trans hx)
      cases htarget.symm.trans ((headOf_eq_some_iff hheadsLinked.toWellFormedLayout).2 hleads)
      exact .inr rfl
  · intro s hs
    have hrootFinitelyNested := h.reachable.rootFinitelyNested
    obtain ⟨s', hs', hfinitelyNested⟩ := hrootFinitelyNested.root
    cases hs.symm.trans hs'
    obtain ⟨n, hn, hi⟩ := rootScope_eq_ok_iff.1 hs
    obtain ⟨sc, hsc, -⟩ := hheadsLinked.scopesOwned.internal hn hi
    obtain ⟨path, hpath⟩ := exists_backbone hheadsLinked.toWellFormed hrootFinitelyNested hfinitelyNested hsc
    exact ⟨path, hpath, (head?_backbone hsc hpath).trans (by rw [headAt?, hsc, Option.bind_some])⟩
  · intro e g' he hperform
    have hguides : e.guides = true := by cases e <;> first | exact he | cases he
    exact ((create_headsKept hheadsLinked he hperform).headsFollow
      (GuidedHistory.edit e hguides h hperform).reachable.wellFormedLayout).2
  · intro l r g' hdisconnect
    have hwellFormed :=
      hheadsLinked.toWellFormedLayout.changes (disconnect_editChanges guards_always hdisconnect).changes
    exact ((hheadsLinked.disconnect hdisconnect).headsFollow hwellFormed).2

/-- Node 3 is an instruction of the root scope that nothing leads to. -/
def idle : Except Fault Graph := do
  let g ← create {} {} default {}
  g.perform (.emptyInstruction (← g.rootScope))

theorem idle_guidedHistory (hg : idle = .ok g) : GuidedHistory g := by
  simp only [idle, bind_eq_ok] at hg
  obtain ⟨g₀, hcreate, s, -, hperform⟩ := hg
  exact .edit _ rfl (.create hcreate) hperform

theorem headsFollow_idle : ∃ g g' l, idle = .ok g ∧ GuidedHistory g ∧ g.headAt? ⟨2⟩ = none ∧
    g.connect ⟨⟨1⟩, ⟨0⟩⟩ ⟨⟨3⟩, ⟨0⟩⟩ true = .ok (g', .ok l) ∧ g'.headAt? ⟨2⟩ = some ⟨3⟩ := by
  obtain ⟨g, hg⟩ := exists_of_isOk (x := idle) (by decide +kernel)
  have hhead := eq_ok_of_toOption_bind (fun g => do return (← g.scope ⟨2⟩).head) hg (b := none) (by decide +kernel)
  have hbranch := eq_ok_of_toOption_bind (isBranchSlot · ⟨⟨1⟩, ⟨0⟩⟩) hg (b := true) (by decide +kernel)
  have hscope := eq_ok_of_toOption_bind (branchScope · ⟨⟨1⟩, ⟨0⟩⟩) hg (b := some ⟨2⟩) (by decide +kernel)
  have halone := eq_ok_of_toOption_bind (predecessors · ⟨⟨3⟩, ⟨0⟩⟩) hg (b := []) (by decide +kernel)
  have hlinked := eq_ok_of_toOption_bind (fun g => do
    let linked ← g.connect ⟨⟨1⟩, ⟨0⟩⟩ ⟨⟨3⟩, ⟨0⟩⟩ true
    return (linked.2.toOption, ← linked.1.headOf ⟨2⟩)) hg
    (b := (some ⟨⟨⟨1⟩, ⟨0⟩⟩, ⟨⟨3⟩, ⟨0⟩⟩, .flow⟩, some ⟨3⟩)) (by decide +kernel)
  simp only [bind_eq_ok, scope_eq_ok_iff, pure_eq_ok] at hhead
  obtain ⟨sc, hsc, hhead⟩ := hhead
  simp only [bind_eq_ok, pure_eq_ok] at hlinked
  obtain ⟨⟨g', r⟩, hconnect, target, htarget, hlinked⟩ := hlinked
  obtain ⟨hr, rfl⟩ := Prod.mk.inj hlinked
  cases r with
  | error e => cases hr
  | ok l =>
    cases hr
    have hguidedHistory := idle_guidedHistory hg
    obtain ⟨-, -, -, hfollows, -⟩ := headsFollow_of_guidedHistory hguidedHistory
    refine ⟨g, g', _, hg, hguidedHistory, by rw [headAt?, hsc, Option.bind_some, hhead], hconnect, ?_⟩
    exact (hfollows _ _ _ _ hconnect ⟨2⟩ ⟨3⟩).2 ⟨htarget, .inr ⟨_, rfl, rfl, hbranch, hscope, halone⟩⟩

def rejoined : Except Fault Graph := do
  let g ← create {} {} default {}
  let s ← g.rootScope
  [.emptyInstruction s, .emptyInstruction s, .connect ⟨⟨4⟩, ⟨1⟩⟩ ⟨⟨3⟩, ⟨0⟩⟩ true, .connect ⟨⟨1⟩, ⟨0⟩⟩ ⟨⟨3⟩, ⟨0⟩⟩ true,
    .disconnect ⟨⟨⟨4⟩, ⟨1⟩⟩, ⟨⟨3⟩, ⟨0⟩⟩, .flow⟩ true].foldlM perform g

/-- The entry point leads to an instruction in the root scope, and the root scope has no head. -/
theorem not_led_rejoined : ∃ g sc, GuidedHistory g ∧ g.rootScope = .ok ⟨2⟩ ∧ g.scope ⟨2⟩ = .ok sc ∧
    sc.isPartitioned = false ∧ g.links .flow = [⟨⟨⟨1⟩, ⟨0⟩⟩, ⟨⟨3⟩, ⟨0⟩⟩, .flow⟩] ∧ g.headOf ⟨2⟩ = .ok (some ⟨3⟩) ∧
    sc.head = none ∧ g.backbone ⟨2⟩ = .ok [] ∧
    ∃ g', g.resetHead ⟨2⟩ = .ok g' ∧ g'.backbone ⟨2⟩ = .ok [⟨3⟩] := by
  obtain ⟨g, hg⟩ := exists_of_isOk (x := rejoined) (by decide +kernel)
  have hroot := eq_ok_of_toOption_bind rootScope hg (b := ⟨2⟩) (by decide +kernel)
  have hscope := eq_ok_of_toOption_bind (fun g => do
    let sc ← g.scope ⟨2⟩
    return (sc.isPartitioned, sc.head)) hg (b := (false, none)) (by decide +kernel)
  have hlinks := eq_ok_of_toOption_bind (fun g => (.ok (g.links .flow) : Except Fault (List Link))) hg
    (b := [⟨⟨⟨1⟩, ⟨0⟩⟩, ⟨⟨3⟩, ⟨0⟩⟩, .flow⟩]) (by decide +kernel)
  have hhead := eq_ok_of_toOption_bind (headOf · ⟨2⟩) hg (b := some ⟨3⟩) (by decide +kernel)
  have hpath := eq_ok_of_toOption_bind (backbone · ⟨2⟩) hg (b := []) (by decide +kernel)
  have hreset := eq_ok_of_toOption_bind (fun g => do (← g.resetHead ⟨2⟩).backbone ⟨2⟩) hg (b := [⟨3⟩])
    (by decide +kernel)
  simp only [bind_eq_ok, pure_eq_ok, Prod.mk.injEq] at hscope
  obtain ⟨sc, hsc, hwhole, hnone⟩ := hscope
  refine ⟨g, sc, ?_, hroot, hsc, hwhole, Except.ok.inj hlinks, hhead, hnone, hpath, bind_eq_ok.1 hreset⟩
  simp only [rejoined, bind_eq_ok] at hg
  obtain ⟨g₀, hcreate, s, -, h⟩ := hg
  refine foldlM_induction h (.create hcreate) fun _ e he _ hguidedHistory hperform => .edit e ?_ hguidedHistory hperform
  revert e
  simp [Edit.guides, Edit.creates]

end Graph

end FlowGraph
