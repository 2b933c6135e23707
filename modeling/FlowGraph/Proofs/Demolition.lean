import FlowGraph.Proofs.Descent

/-!
# Membership after a destruction

Scopes still nest after a destruction, and they agree with their nodes about who is where. Only one thing can be
wrong: a node that is left may be in a scope that went. A raw destruction brings everyone out before. With side
effects the content of a block is listed before the first of it goes; whoever is linked in its place comes into
the block unnoticed.
-/

namespace FlowGraph.Graph

variable {g g' : Graph} {id : NodeId} {s t : ScopeId}

def ParentsWellFounded (g : Graph) : Prop := WellFounded fun t s => g.parentScope? s = .ok (some t)

/-- Whoever is in a scope is in one that is there. -/
def NodeScopesLive (g : Graph) : Prop :=
  ∀ x n t, g.node x = .ok n → n.scope = some t → ∃ sc, g.scope t = .ok sc

theorem ScopePathsEnd.parentsWellFounded (h : ScopePathsEnd g) : ParentsWellFounded g := by
  refine ⟨fun s => ⟨_, fun t ht => ?_⟩⟩
  obtain ⟨sc, hsc, -⟩ := parentScope?_eq_ok_iff.1 ht
  exact FinitelyNested.of_ownersOnPath ((h.ownersOnPath hsc).parent ht)

namespace ParentsWellFounded

theorem steps (h : ParentsWellFounded g) (hsteps : Steps clear g g') : ParentsWellFounded g' :=
  ⟨fun s => FinitelyNested.steps (h.apply s) hsteps⟩

/-- Nesting scopes end at the top, unless they lead to one that is gone. -/
theorem ownersOnPath (h : ParentsWellFounded g) (ho : ScopesOwned g) (hnodeScopesLive : NodeScopesLive g) {sc : Scope}
    (hsc : g.scopeAt? s = some sc) :
    OwnersOnPath g (fun _ => True) s := by
  induction s using h.induction generalizing sc with
  | h s ih =>
    cases hkind : sc.kind with
    | partition t i =>
      obtain ⟨st, hst, -⟩ := ho.whole_of_part hsc hkind
      exact .part hsc hkind (ih t (parentScope?_eq_ok_iff.2 ⟨sc, hsc, .inl ⟨t, i, hkind, rfl⟩⟩) hst)
    | internal =>
      obtain ⟨n, -, -, hn, -⟩ := ho.home hsc
      cases ht : n.scope with
      | none => exact .out hsc hkind hn trivial ht
      | some t =>
        obtain ⟨st, hst⟩ := hnodeScopesLive _ n t (node_eq_ok_iff.2 hn) ht
        have hparent := parentScope?_eq_ok_iff.2 ⟨sc, hsc, .inr ⟨hkind, n, hn, ht.symm⟩⟩
        exact .through hsc hkind hn trivial ht (ih t hparent (scope_eq_ok_iff.1 hst))

end ParentsWellFounded

theorem Consistent.nodeScopesLive (h : Consistent g) : NodeScopesLive g := by
  intro x n t hn ht
  obtain ⟨sc, hsc, -⟩ := h.placed hn ht
  exact ⟨sc, hsc⟩

theorem RecordsValid.consistent_iff (h : RecordsValid g) (hn : ParentsWellFounded g) :
    Consistent g ↔ NodeScopesLive g := by
  refine ⟨Consistent.nodeScopesLive, fun hnodeScopesLive => Graph.consistent_iff.2 ⟨h.scopesMatchNodes, ?_, ?_⟩⟩
  · intro x n t hnode ht
    obtain ⟨sc, hsc⟩ := hnodeScopesLive x n t (node_eq_ok_iff.2 hnode) ht
    exact ⟨sc, scope_eq_ok_iff.1 hsc⟩
  · intro t sc hsc
    exact hn.ownersOnPath h.scopesOwned hnodeScopesLive hsc

theorem ScopesOwned.ownsNoScope (h : ScopesOwned g) (hplain : ∀ n, g.nodeAt? id = some n → n.internalScope = none) :
    OwnsNoScope g id := by
  rintro t sc hsc - rfl
  obtain ⟨n, i, -, hn, hi, -⟩ := h.home hsc
  cases (hplain n hn).symm.trans hi

/-- What goes along with such a node has no scopes of its own either. -/
theorem Consistent.destroyWithin {sideEffects : Bool} {k : Nat} (h : Consistent g) (hs : LinksScopesValid g)
    (hl : HasLayouts g) (hplain : ∀ n, g.nodeAt? id = some n → n.internalScope = none)
    (hdestroy : destroyWithin sideEffects k g id = .ok g') : Consistent g' := by
  induction k generalizing g id g' with
  | zero => cases hdestroy
  | succ k ih =>
    rcases destroyWithin_eq hdestroy with ⟨-, rfl⟩ | ⟨n, inner, -, hn, hinner, hstages⟩
    · exact h
    obtain rfl : inner = [] := (innerScopes_eq_nil_iff hinner hn).2 (hplain n hn)
    cases hstages with
    | @deep inputs _ g₁ g₂ g₃ _ hprivate hinputs hlisted hcontent hremove hrelink =>
      have hdone : Steps clear g g₁ ∧ Consistent g₁ := by
        refine foldlM_induction (P := fun g₁ => Steps clear g g₁ ∧ Consistent g₁) hinputs ⟨.refl, h⟩ ?_
        rintro h₁ x hx h₂ ⟨hsteps, hconsistent⟩ hstep
        have hs₁ := hs.steps hsteps
        refine ⟨hsteps.trans (destroyWithin_steps guards_clear hs₁ hstep),
          ih hconsistent hs₁ (hl.steps hsteps) (fun m' hm' => ?_) hstep⟩
        obtain ⟨m, hm, hinternal, -⟩ := hl.plain_of_input hs.linksMatch hn (of_mem_filterM hprivate hx).1
        obtain ⟨m₀, hm₀, hskeleton⟩ := hsteps.survivorsKept.node hm'
        obtain rfl := Option.some.inj (hm.symm.trans hm₀)
        exact (Node.of_skeleton hskeleton).2.2.trans hinternal
      obtain ⟨hsteps, h₁⟩ := hdone
      cases hlisted
      cases hcontent
      have hownsNoScope : OwnsNoScope g₁ id := (hs.steps hsteps).scopesOwned.ownsNoScope fun m' hm' => by
        obtain ⟨m, hm, hskeleton⟩ := hsteps.survivorsKept.node hm'
        exact (Node.of_skeleton hskeleton).2.2.trans (hplain m hm)
      exact (h₁.remove hownsNoScope hremove).changes (relink_changes guards_clear hrelink)
    | plain _ hremove => exact h.remove (hs.scopesOwned.ownsNoScope hplain) hremove
    | raw _ hrescue hremove =>
      cases hrescue
      exact h.remove (hs.scopesOwned.ownsNoScope hplain) hremove

namespace OwnersOnPath

variable {p q : NodeId → Prop}

theorem and (h : OwnersOnPath g p s) (h' : OwnersOnPath g q s) : OwnersOnPath g (fun x => p x ∧ q x) s := by
  induction h with
  | part hsc hkind _ ih =>
    exact .part hsc hkind (ih (h'.parent (parentScope?_eq_ok_iff.2 ⟨_, hsc, .inl ⟨_, _, hkind, rfl⟩⟩)))
  | out hsc hkind hn hp hnone => exact .out hsc hkind hn ⟨hp, h'.owner hsc hkind⟩ hnone
  | through hsc hkind hn hp ht _ ih =>
    refine .through hsc hkind hn ⟨hp, h'.owner hsc hkind⟩ ht (ih (h'.parent ?_))
    exact parentScope?_eq_ok_iff.2 ⟨_, hsc, .inr ⟨hkind, _, hn, ht.symm⟩⟩

theorem owner_ne (h : clear g id s) (ho : ScopesOwned g) {sc : Scope} (hsc : g.scopeAt? s = some sc) :
    sc.owner ≠ id := by
  cases hkind : sc.kind with
  | internal => exact h.owner hsc hkind
  | partition t i =>
    obtain ⟨st, hst, howner, hinternal⟩ := ho.whole_of_part hsc hkind
    rw [← howner]
    exact (h.parent (parentScope?_eq_ok_iff.2 ⟨sc, hsc, .inl ⟨t, i, hkind, rfl⟩⟩)).owner hst hinternal

theorem apart (h : clear g id t) (ho : ScopesOwned g) {c : NodeId} {n : Node} {sc : Scope} (hn : g.nodeAt? c = some n)
    (hscope : n.scope = some s) (hsc : g.scopeAt? s = some sc) (howner : sc.owner = id) : clear g c t := by
  unfold clear at h ⊢
  induction h with
  | part hsc' hkind _ ih => exact .part hsc' hkind ih
  | out hsc' hkind hm _ hnone =>
    refine .out hsc' hkind hm ?_ hnone
    rintro rfl
    obtain rfl := Option.some.inj (hn.symm.trans hm)
    cases hscope.symm.trans hnone
  | through hsc' hkind hm _ ht hup ih =>
    refine .through hsc' hkind hm ?_ ht ih
    rintro rfl
    obtain rfl := Option.some.inj (hn.symm.trans hm)
    cases hscope.symm.trans ht
    exact owner_ne hup ho hsc howner

theorem not_found (h : clear g id s) (ho : ScopesOwned g) {k : Nat} {found : Bool}
    (hfound : g.anyOnPathWithin (fun t => do return (← g.scope t).owner == id) k s = .ok found) : found = false := by
  induction k generalizing s with
  | zero => cases hfound
  | succ k ih =>
    simp only [anyOnPathWithin, bind_eq_ok, pure_eq_ok, scope_eq_ok_iff] at hfound
    obtain ⟨parent, hparent, here, ⟨sc, hsc, rfl⟩, hfound⟩ := hfound
    rw [beq_eq_false_iff_ne.2 (owner_ne h ho hsc), if_neg Bool.false_ne_true] at hfound
    cases parent with
    | none => exact (pure_eq_ok.1 hfound).symm
    | some t => exact ih (h.parent hparent) hfound

theorem not_refused (h : clear g id s) (ho : ScopesOwned g) {r : Option ScopeError} (hr : g.targetError? id s = .ok r) :
    r = none := by
  obtain ⟨sc, hsc⟩ := h.live
  simp only [targetError?, bind_eq_ok] at hr
  obtain ⟨found, hfound, hr⟩ := hr
  obtain rfl : found = some sc := (scopeAt?_of_scope? hfound).symm.trans hsc
  obtain ⟨refused, hrefused, hr⟩ := bind_eq_ok.1 hr
  rw [not_found h ho hrefused] at hr
  exact (pure_eq_ok.1 hr).symm

end OwnersOnPath

def into (target : ScopeId) (g : Graph) (x : NodeId) (t : ScopeId) : Prop := t = target ∧ clear g x t

section

variable {target : ScopeId}

theorem guardsAt_into : GuardsAt (into target) target :=
  ⟨fun h => ⟨rfl, clear_of_check h⟩, fun hmove h => ⟨h.1, h.2.move_never hmove⟩⟩

theorem OwnersOnPath.move_into (h : clear g id target) (hmove : Move (into target) g g') : clear g' id target := by
  cases hmove with
  | note e => exact h.move_never (.note e)
  | enter _ _ _ hmay =>
    obtain ⟨rfl, hclear⟩ := hmay
    exact ((OwnersOnPath.and h hclear).place_apart fun _ hx => hx.2).mono fun _ hx => hx.1
  | leave hn hscope hsc => exact h.move_never (.leave hn hscope hsc)
  | declare hsc hchild hn hvar hfree => exact h.move_never (.declare hsc hchild hn hvar hfree)
  | lead hsc hhead => exact h.move_never (.lead hsc hhead)

theorem OwnersOnPath.moves_into (h : clear g id target) (hmoves : Moves (into target) g g') : clear g' id target := by
  induction hmoves with
  | refl => exact h
  | tail _ hmove ih => exact OwnersOnPath.move_into ih hmove

theorem Moves.scope_of_into (h : Moves (into target) g g') (ht : t ≠ target) {x : NodeId} {n' : Node}
    (hn' : g'.nodeAt? x = some n') (hscope : n'.scope = some t) : ∃ n, g.nodeAt? x = some n ∧ n.scope = some t := by
  rcases h.changes.scope_of hn' hscope with hold | ⟨_, hmay⟩
  · exact hold
  · exact (ht hmay.1).elim

theorem changeScope_out {c : NodeId} {n : Node} {r : Except ScopeError Unit} (hclear : clear g c target)
    (ho : ScopesOwned g) (hn : g.nodeAt? c = some n) (hscope : n.scope = some s) (hs : s ≠ target)
    (h : g.changeScope c target = .ok (g', r)) :
    r = .ok () ∧ ∀ n', g'.nodeAt? c = some n' → n'.scope ≠ some s := by
  simp only [changeScope, bind_eq_ok, node_eq_ok_iff] at h
  obtain ⟨m, hm, h⟩ := h
  obtain rfl := Option.some.inj (hn.symm.trans hm)
  rw [hscope, if_neg fun he => hs (Option.some.inj he)] at h
  obtain ⟨refused, hrefused, h⟩ := bind_eq_ok.1 h
  obtain rfl := OwnersOnPath.not_refused hclear ho hrefused
  simp only [bind_eq_ok] at h
  obtain ⟨left, hleft, inserted, hinserted, h⟩ := h
  cases h
  obtain ⟨hmoves, hn'⟩ := detach_moves hleft hn hscope
  have hinto := insertIntoScope_moves guardsAt_into hinserted hn' rfl
    (guardsAt_into.kept_moves hmoves ⟨rfl, hclear⟩)
  refine ⟨rfl, fun n' hnode hs' => ?_⟩
  obtain ⟨m, hm, hnone⟩ := hinto.scope_of_into hs hnode hs'
  cases hn'.symm.trans hm
  cases hnone

/-- Nobody stays in a scope that is transferred, if the way up from the target does not pass its owner. -/
theorem transfer_out {cs : List NodeId} {sc : Scope} {r : Except ScopeError Unit} (hclear : clear g id target)
    (ho : ScopesOwned g) (hsc : g.scopeAt? s = some sc) (howner : sc.owner = id)
    (hcs : ∀ x n, g.nodeAt? x = some n → n.scope = some s → x ∈ cs) (h : transfer s target cs g = .ok (g', r)) :
    ∀ x n, g'.nodeAt? x = some n → n.scope ≠ some s := by
  have hs : s ≠ target := by
    rintro rfl
    exact OwnersOnPath.owner_ne hclear ho hsc howner
  induction cs generalizing g sc with
  | nil =>
    cases h
    intro x n hn hscope
    cases hcs x n hn hscope
  | cons c cs ih =>
    simp only [transfer, bind_eq_ok, node_eq_ok_iff] at h
    obtain ⟨n, hn, h⟩ := h
    split at h
    next hscope =>
      obtain ⟨⟨g₁, r₁⟩, hchange, h⟩ := bind_eq_ok.1 h
      obtain ⟨rfl, hout⟩ := changeScope_out (OwnersOnPath.apart hclear ho hn hscope hsc howner) ho hn hscope hs hchange
      have hmoves := changeScope_moves guardsAt_into hchange
      obtain ⟨sc₁, hsc₁, hskeleton⟩ := hmoves.changes.allKept.scope_of hsc
      refine ih (OwnersOnPath.moves_into hclear hmoves) (ho.allKept hmoves.changes.allKept) hsc₁
        ((Scope.of_skeleton hskeleton).1.trans howner) (fun x m hm hs' => ?_) h
      obtain ⟨m₀, hm₀, hs₀⟩ := hmoves.scope_of_into hs hm hs'
      rcases List.mem_cons.1 (hcs x m₀ hm₀ hs₀) with rfl | hmem
      · exact (hout m hm hs').elim
      · exact hmem
    next hscope =>
      refine ih hclear ho hsc howner (fun x m hm hs' => ?_) h
      rcases List.mem_cons.1 (hcs x m hm hs') with rfl | hmem
      · obtain rfl := Option.some.inj (hn.symm.trans hm)
        exact (hscope hs').elim
      · exact hmem

theorem rescue_out {inner : List ScopeId} (hclear : clear g id target) (ho : ScopesOwned g) (hh : ScopesMatchNodes g)
    (hinner : ∀ t ∈ inner, ∃ sc, g.scopeAt? t = some sc ∧ sc.owner = id)
    (h : inner.foldlM (rescue target) g = .ok g') :
    ∀ t ∈ inner, ∀ x n, g'.nodeAt? x = some n → n.scope ≠ some t := by
  induction inner generalizing g with
  | nil => exact fun t ht => nomatch ht
  | cons s inner ih =>
    simp only [List.foldlM_cons, bind_eq_ok] at h
    obtain ⟨g₁, hrescue, h⟩ := h
    obtain ⟨sc, hsc, howner⟩ := hinner s List.mem_cons_self
    simp only [rescue, transferChildren, bind_eq_ok, pure_eq_ok, scope_eq_ok_iff] at hrescue
    obtain ⟨⟨_, r⟩, ⟨sc', hsc', htransfer⟩, rfl⟩ := hrescue
    obtain rfl := Option.some.inj (hsc.symm.trans hsc')
    have hout := transfer_out hclear ho hsc howner (fun x n hn hs => hh.listed hn hs hsc) htransfer
    have hmoves := transfer_moves guardsAt_into htransfer
    have hallKept := hmoves.changes.allKept
    intro t ht x n hn hscope
    rcases List.mem_cons.1 ht with rfl | ht
    · have hne : t ≠ target := by
        rintro rfl
        exact OwnersOnPath.owner_ne hclear ho hsc howner
      obtain ⟨m, hm, hscope'⟩ := (rescue_moves guardsAt_into h).scope_of_into hne hn hscope
      exact hout x m hm hscope'
    · refine ih (OwnersOnPath.moves_into hclear hmoves) (ho.allKept hallKept)
        (hh.changes hmoves.changes) ?_ h t ht x n hn hscope
      intro t' ht'
      obtain ⟨sc', hsc', howner'⟩ := hinner t' (List.mem_cons_of_mem _ ht')
      obtain ⟨sc₁, hsc₁, hskeleton⟩ := hallKept.scope_of hsc'
      exact ⟨sc₁, hsc₁, (Scope.of_skeleton hskeleton).1.trans howner'⟩

theorem nodeScopesLive_of_rescue {inner : List ScopeId} {g₁ : Graph} (h : Consistent g) (ho : ScopesOwned g)
    (hclear : clear g id target) (hinner : g.innerScopes id = .ok inner)
    (hrescue : inner.foldlM (rescue target) g = .ok g₁) (hremove : g₁.remove id inner = .ok g') :
    NodeScopesLive g' := by
  obtain ⟨unlinked, left, s, n, hunlinked, hexits, -, -, hremovesNode⟩ := remove_eq hremove
  have hmoves := hexits.moves
  have hchanges : Changes never g₁ left := (dropLinks_changes hunlinked).trans hmoves.changes
  have hleft : Consistent left := by
    have h₁ := h.changes (rescue_moves (guards_clear target) hrescue).changes
    exact h₁.changes ((dropLinks_changes hunlinked).trans hmoves.of_never.changes)
  have hout := rescue_out hclear ho (consistent_iff.1 h).1 (fun t => ho.live_of_inner hinner) hrescue
  intro x m t hm ht
  rw [node_eq_ok_iff, hremovesNode.nodeAt?] at hm
  split at hm
  next => cases hm
  next =>
    obtain ⟨sc, hsc⟩ := hleft.nodeScopesLive x m t (node_eq_ok_iff.2 hm) ht
    refine ⟨sc, scope_eq_ok_iff.2 ?_⟩
    rw [hremovesNode.scopeAt?, if_neg, ← scope_eq_ok_iff, hsc]
    intro hmem
    rcases hchanges.scope_of hm ht with ⟨m₁, hm₁, ht₁⟩ | ⟨_, hnever⟩
    · exact hout t hmem x m₁ hm₁ ht₁
    · exact hnever

end

/-- The way up from the scope a node is in does not come back to that node. -/
theorem OwnersOnPath.clear_of_scope {n : Node} (h : OwnersOnPath g (fun _ => True) s) (hn : g.nodeAt? id = some n)
    (hs : n.scope = some s) : clear g id s := by
  by_contra hnot
  refine false_of_closed (T := fun t => OwnersOnPath g (fun _ => True) t ∧ ¬clear g id t) ?_ h ⟨h, hnot⟩
  rintro t ⟨ht, hblocked⟩
  cases ht with
  | part hsc hkind hup => exact ⟨_, hsc, .inl ⟨_, _, hkind, hup, fun hclear => hblocked (.part hsc hkind hclear)⟩⟩
  | @out _ sc m hsc hkind hm _ hnone =>
    by_cases howner : sc.owner = id
    · obtain rfl := Option.some.inj (hn.symm.trans (howner ▸ hm))
      cases hs.symm.trans hnone
    · exact (hblocked (.out hsc hkind hm howner hnone)).elim
  | @through _ t' sc m hsc hkind hm _ ht' hup =>
    refine ⟨sc, hsc, .inr ⟨hkind, m, t', hm, ht', hup, ?_⟩⟩
    by_cases howner : sc.owner = id
    · obtain rfl := Option.some.inj (hn.symm.trans (howner ▸ hm))
      cases hs.symm.trans ht'
      exact hnot
    · exact fun hclear => hblocked (.through hsc hkind hm howner ht' hclear)

theorem clear_rootScope (ho : ScopesOwned g) {r : Node} (hr : g.nodeAt? g.root = some r) (hnone : r.scope = none)
    (hid : id ≠ g.root) (hs : g.rootScope = .ok s) : clear g id s := by
  simp only [rootScope, bind_eq_ok, node_eq_ok_iff] at hs
  obtain ⟨r', hr', hs⟩ := hs
  obtain rfl := Option.some.inj (hr.symm.trans hr')
  split at hs
  next hinternal =>
    cases hs
    obtain ⟨sc, hsc, howner, hkind, -⟩ := ho.internal hr hinternal
    exact .out hsc hkind (howner ▸ hr) (fun he => hid (he.symm.trans howner)) hnone
  next => cases hs

/-- A raw destruction leaves nobody behind, unless the entry point is in a block that is in no scope itself. -/
theorem Consistent.destroy_raw {n r : Node} (h : Consistent g) (hs : RecordsValid g) (hl : HasLayouts g)
    (hn : g.nodeAt? id = some n) (hr : g.nodeAt? g.root = some r) (htop : n.scope ≠ none ∨ r.scope = none)
    (hdestroy : g.destroy id false = .ok g') : Consistent g' := by
  have hsteps := destroy_steps guards_clear hs.toLinksScopesValid hdestroy
  obtain ⟨k, hdestroy⟩ := destroyWithin_of_destroy hdestroy
  rcases destroyWithin_eq hdestroy with ⟨-, rfl⟩ | ⟨n', inner, hroot, hn', hinner, hstages⟩
  · exact h
  obtain rfl := Option.some.inj (hn.symm.trans hn')
  refine ((hs.steps hsteps).consistent_iff ((consistent_iff.1 h).2.parentsWellFounded.steps hsteps)).2 ?_
  cases hstages with
  | plain hnil hremove =>
    subst hnil
    exact (h.remove (hs.scopesOwned.ownsNoScope fun m hm => (innerScopes_eq_nil_iff hinner hm).1 rfl)
      hremove).nodeScopesLive
  | @raw target _ _ htarget hrescue hremove =>
    refine nodeScopesLive_of_rescue h hs.scopesOwned ?_ hinner hrescue hremove
    rcases htarget with htarget | ⟨hnone, htarget⟩
    · obtain ⟨sc, hsc, -⟩ := h.placed (node_eq_ok_iff.2 hn) htarget
      exact (parentsEnd_iff.1 (h.parentsEnd hsc)).clear_of_scope hn htarget
    · exact clear_rootScope hs.scopesOwned hr (htop.resolve_left fun hscoped => hscoped hnone) hroot htarget

/-- Edits that neither destroy nor create a block keep a graph consistent, one after the other. -/
theorem consistent_foldlM {es : List Edit} (h : es.foldlM perform g = .ok g') (hr : Reachable g) (hc : Consistent g)
    (hplain : ∀ e ∈ es, e.destroys = false ∧ e.block? = none) : Reachable g' ∧ Consistent g' := by
  refine foldlM_induction (P := fun g => Reachable g ∧ Consistent g) h ⟨hr, hc⟩ ?_
  rintro g₁ e he g₂ ⟨hr, hc⟩ hperform
  obtain ⟨hdestroys, hblock⟩ := hplain e he
  refine ⟨.edit e hr hperform, hc.perform hdestroys (fun t ht => ?_) hperform⟩
  cases hblock.symm.trans ht

/-- An `if` is node 3, with the partitions 5 and 6. Node 7 is alone in the second one, and node 8 comes after it
outside of the block. -/
def openBranch : Except Fault Graph := do
  let g ← create {} {} default {}
  let s ← g.rootScope
  let _ ← g.scope s
  let g ← g.perform (.conditional .ifElse s)
  [.emptyInstruction ⟨6⟩, .connect ⟨⟨3⟩, ⟨3⟩⟩ ⟨⟨7⟩, ⟨0⟩⟩ true, .emptyInstruction s,
    .connect ⟨⟨7⟩, ⟨1⟩⟩ ⟨⟨8⟩, ⟨0⟩⟩ false].foldlM perform g

theorem consistent_openBranch (h : openBranch = .ok g) : Reachable g ∧ Consistent g := by
  simp only [openBranch, bind_eq_ok] at h
  obtain ⟨g₀, hcreate, s, -, sc, hsc, g₁, hblock, h⟩ := h
  have h₁ : Consistent g₁ := by
    refine (consistent_create hcreate).perform rfl ?_ hblock
    rintro _ ⟨⟩
    exact ⟨sc, hsc⟩
  refine consistent_foldlM h (.edit _ (.create hcreate) hblock) h₁ fun e he => ?_
  simp only [List.mem_cons, List.not_mem_nil, or_false] at he
  rcases he with rfl | rfl | rfl | rfl <;> exact ⟨rfl, rfl⟩

end FlowGraph.Graph
