import FlowGraph.Proofs.Company

/-!
# Nodes that are left in no scope

A node moves with its company: all leave the old scope, and then enter the new one if they can. The company is not
checked before it leaves. Whoever owns a block around the target cannot enter, and is left in no scope, with all
that is reached through it alone. Nobody is lost otherwise.
-/

namespace FlowGraph

/-- The node that moves when the link is made or removed: what control comes to, or the expression. -/
def Link.mover (l : Link) : NodeId :=
  match l.kind with
  | .flow => l.head.node
  | .value => l.tail.node

namespace Graph

open Relation

/-- The scope is one of the node's, or lies in one. -/
inductive Surrounds (g : Graph) (o : NodeId) : ScopeId → Prop
  | here {t : ScopeId} {sc : Scope} : g.scope t = .ok sc → sc.owner = o → Surrounds g o t
  | up {t u : ScopeId} : g.parentScope? t = .ok (some u) → Surrounds g o u → Surrounds g o t

def ReturnsWith (g g' : Graph) (s : ScopeId) (id o : NodeId) : NodeId → Prop :=
  ReflTransGen (fun a b => Companion g' a b ∧ b ≠ o ∧ (g.homeAt? b = none ∨ TravelsWith g g' s id b)) id

/-- The node moves into `o`, a block that travels along with it. -/
structure MovesIntoCompanion (g g' : Graph) (s : ScopeId) (id o : NodeId) : Prop where
  home : g.homeAt? id = some s
  other : o ≠ id
  travelsWith : TravelsWith g g' s id o
  around : ∃ t, g'.homeAt? id = some t ∧ Surrounds g o t

/-- A node that travels along and is reached only through the block that the first one moves into. -/
def Stranded (g g' : Graph) (id x : NodeId) : Prop :=
  ∃ s o, MovesIntoCompanion g g' s id o ∧ TravelsWith g g' s id x ∧ ¬ReturnsWith g g' s id o x

variable {g g' : Graph} {id x o : NodeId} {s t : ScopeId} {n : Node}

theorem surrounds_iff (ho : ScopesOwned g) (h : OwnersOnPath g (fun _ => True) t) : Surrounds g o t ↔ ¬clear g o t := by
  constructor
  · intro hsurrounds hclear
    clear h
    induction hsurrounds with
    | here hsc howner => exact OwnersOnPath.owner_ne hclear ho (scope_eq_ok_iff.1 hsc) howner
    | up hparent _ ih => exact ih (OwnersOnPath.parent hclear hparent)
  · intro hblocked
    induction h with
    | part hsc hkind _ ih =>
      have hparent := parentScope?_eq_ok_iff.2 ⟨_, hsc, .inl ⟨_, _, hkind, rfl⟩⟩
      exact .up hparent (ih fun hclear => hblocked (.part hsc hkind hclear))
    | @out _ sc _ hsc hkind hn _ hnone =>
      by_cases howner : sc.owner = o
      · exact .here (scope_eq_ok_iff.2 hsc) howner
      · exact (hblocked (.out hsc hkind hn howner hnone)).elim
    | @through _ _ sc _ hsc hkind hn _ ht _ ih =>
      by_cases howner : sc.owner = o
      · exact .here (scope_eq_ok_iff.2 hsc) howner
      · have hparent := parentScope?_eq_ok_iff.2 ⟨_, hsc, .inr ⟨hkind, _, hn, ht.symm⟩⟩
        exact .up hparent (ih fun hclear => hblocked (.through hsc hkind hn howner ht hclear))

theorem Consistent.clear_of_home (hg : Consistent g) (hx : g.homeAt? x = some s) : clear g x s := by
  obtain ⟨n, hn, hs⟩ := homeAt?_eq_some_iff.1 hx
  obtain ⟨sc, hsc, -⟩ := hg.placed (node_eq_ok_iff.2 hn) hs
  exact (parentsEnd_iff.1 (hg.parentsEnd hsc)).clear_of_scope hn hs

/-- Nothing happens, or the company leaves the old scope, if any, and what can enters the new one. -/
theorem changeScope_walks {r : Except ScopeError Unit} (ho : ScopesOwned g) (h : g.changeScope id t = .ok (g', r)) :
    g' = g ∨ ∃ left, clear g id t ∧ AllKept g left ∧ left.homeAt? id = none ∧ CompanyEntered t id left g' ∧
      (left = g ∨ ∃ s, g.homeAt? id = some s ∧ CompanyLeft s id g left) := by
  simp only [changeScope, bind_eq_ok, node_eq_ok_iff] at h
  obtain ⟨n, hn, h⟩ := h
  have hhome : g.homeAt? id = n.scope := by rw [homeAt?, hn]; rfl
  split at h
  next =>
    cases h
    exact .inl rfl
  next hother =>
    obtain ⟨refused, hrefused, h⟩ := bind_eq_ok.1 h
    cases refused with
    | some e =>
      cases h
      exact .inl rfl
    | none =>
      have hclear := clear_of_check hrefused
      cases hscope : n.scope with
      | none =>
        simp only [hscope, bind_eq_ok, pure_eq_ok] at h
        obtain ⟨_, rfl, inserted, hinserted, h⟩ := h
        cases h
        refine .inr ⟨_, hclear, .refl _, hhome.trans hscope, ?_, .inl rfl⟩
        exact insertWithin_companyEntered hinserted ho hn hscope hclear
      | some current =>
        simp only [hscope, bind_eq_ok] at h
        obtain ⟨left, hleft, inserted, hinserted, h⟩ := h
        cases h
        obtain ⟨hmoves, hn'⟩ := detach_moves hleft hn hscope
        have hallKept : AllKept g left := hmoves.changes.allKept
        have hcompanyLeft := detachWithin_companyLeft hleft (hhome.trans hscope)
        refine .inr ⟨left, hclear, hallKept, hcompanyLeft.first, ?_, .inr ⟨current, hhome.trans hscope, hcompanyLeft⟩⟩
        exact insertWithin_companyEntered hinserted (ho.allKept hallKept) hn' rfl
          ((guards_clear t).kept_moves hmoves hclear)

theorem OwnersOnPath.avoid {p : NodeId → Prop} (h : OwnersOnPath g (fun _ => True) t)
    (hclear : ∀ o, p o → clear g o t) :
    OwnersOnPath g (¬p ·) t := by
  induction h with
  | part hsc hkind _ ih =>
    have hparent := parentScope?_eq_ok_iff.2 ⟨_, hsc, .inl ⟨_, _, hkind, rfl⟩⟩
    exact .part hsc hkind (ih fun o ho => (hclear o ho).parent hparent)
  | out hsc hkind hn _ hnone => exact .out hsc hkind hn (fun ho => (hclear _ ho).owner hsc hkind rfl) hnone
  | through hsc hkind hn _ ht _ ih =>
    have hparent := parentScope?_eq_ok_iff.2 ⟨_, hsc, .inr ⟨hkind, _, hn, ht.symm⟩⟩
    exact .through hsc hkind hn (fun ho => (hclear _ ho).owner hsc hkind rfl) ht
      (ih fun o ho => (hclear o ho).parent hparent)

section

variable {left : Graph} (hg : Consistent g) (hcompanyLeft : CompanyLeft s id g left) (hs : AllKept g left)
  (hid : g.homeAt? id = some s) (ht : OwnersOnPath g (fun _ => True) t)

include hcompanyLeft hs hid ht

theorem admittedWith_of_travelsWith (hclear : ∀ o, TravelsWith g g s id o → clear g o t) (hx : TravelsWith g g s id x) :
    AdmittedWith left t id x := by
  have hway : OwnersOnPath left (¬TravelsWith g g s id ·) t :=
    (ht.avoid hclear).carry hs fun o ho => hcompanyLeft.homeAt?_of_not_travelsWith ho
  have hclear' {o : NodeId} (ho : TravelsWith g g s id o) : clear left o t :=
    hway.mono fun b hb hbo => hb (hbo ▸ ho)
  induction hx with
  | refl => exact .refl
  | tail ha hab ih =>
    have hb := ReflTransGen.tail ha hab
    exact ih.tail ⟨hcompanyLeft.sameLinkage.companion hab.1, hcompanyLeft.homeAt?_of_travelsWith hid hb, hclear' hb⟩

include hg

/-- Once the company has left, the way up ends at the block of theirs that is around the target. -/
theorem ownersOnPath_left (ho : TravelsWith g g s id o) (hblocked : ¬clear g o t) :
    OwnersOnPath left (fun b => left.homeAt? b ≠ none ∨ b = o) t := by
  have hhome : g.homeAt? o = some s := TravelsWith.homeAt?_eq ho hid
  have htop : left.homeAt? o = none := hcompanyLeft.homeAt?_of_travelsWith hid ho
  induction ht with
  | part hsc hkind _ ih =>
    obtain ⟨sc', hsc', hskeleton⟩ := hs.scope_of hsc
    exact .part hsc' ((Scope.of_skeleton hskeleton).2.1.trans hkind)
      (ih fun hclear => hblocked (.part hsc hkind hclear))
  | @out _ sc n hsc hkind hn _ hnone =>
    have howner : sc.owner = o := by
      by_contra hne
      exact hblocked (.out hsc hkind hn hne hnone)
    rw [← howner, homeAt?, hn, Option.bind_some, hnone] at hhome
    cases hhome
  | @through _ u sc n hsc hkind hn _ hu _ ih =>
    obtain ⟨sc', hsc', hskeleton⟩ := hs.scope_of hsc
    obtain ⟨hsame, hkind', -⟩ := Scope.of_skeleton hskeleton
    obtain ⟨n', hn', -⟩ := hs.node_of hn
    have hleft : left.homeAt? sc.owner = n'.scope := by rw [homeAt?, hn', Option.bind_some]
    have hthere : g.homeAt? sc.owner = some u := by rw [homeAt?, hn, Option.bind_some, hu]
    by_cases howner : sc.owner = o
    · exact .out hsc' (hkind'.trans hkind) (hsame ▸ hn') (.inr (hsame.trans howner)) (by rw [← hleft, howner, htop])
    · have hblocked' : ¬clear g o u := fun hclear => hblocked (.through hsc hkind hn howner hu hclear)
      -- whoever is around the target below `o` is not in the scope of `o`, and stays
      have hstays : ¬TravelsWith g g s id sc.owner := by
        intro hcompany
        obtain rfl := Option.some.inj ((TravelsWith.homeAt?_eq hcompany hid).symm.trans hthere)
        exact hblocked' (hg.clear_of_home hhome)
      have hkept := (hcompanyLeft.homeAt?_of_not_travelsWith hstays).trans hthere
      refine .through hsc' (hkind'.trans hkind) (hsame ▸ hn') (.inl ?_) (hleft.symm.trans hkept) (ih hblocked')
      rw [hsame, hkept]
      simp

theorem clear_of_clear_left (ho : TravelsWith g g s id o) (hclear : clear left o t) : clear g o t := by
  have hhome : g.homeAt? o = some s := TravelsWith.homeAt?_eq ho hid
  induction ht with
  | part hsc hkind _ ih =>
    obtain ⟨sc', hsc', hskeleton⟩ := hs.scope_of hsc
    have hparent :=
      parentScope?_eq_ok_iff.2 ⟨sc', hsc', .inl ⟨_, _, (Scope.of_skeleton hskeleton).2.1.trans hkind, rfl⟩⟩
    exact .part hsc hkind (ih (hclear.parent hparent))
  | @out _ sc n hsc hkind hn _ hnone =>
    obtain ⟨sc', hsc', hskeleton⟩ := hs.scope_of hsc
    obtain ⟨hsame, hkind', -⟩ := Scope.of_skeleton hskeleton
    exact .out hsc hkind hn (hsame ▸ hclear.owner hsc' (hkind'.trans hkind)) hnone
  | @through _ u sc n hsc hkind hn _ hu _ ih =>
    obtain ⟨sc', hsc', hskeleton⟩ := hs.scope_of hsc
    obtain ⟨hsame, hkind', -⟩ := Scope.of_skeleton hskeleton
    obtain ⟨n', hn', -⟩ := hs.node_of hn
    have hthere : g.homeAt? sc.owner = some u := by rw [homeAt?, hn, Option.bind_some, hu]
    refine .through hsc hkind hn (hsame ▸ hclear.owner hsc' (hkind'.trans hkind)) hu ?_
    by_cases hcompany : TravelsWith g g s id sc.owner
    · obtain rfl := Option.some.inj ((TravelsWith.homeAt?_eq hcompany hid).symm.trans hthere)
      exact hg.clear_of_home hhome
    · have hkept := (hcompanyLeft.homeAt?_of_not_travelsWith hcompany).trans hthere
      rw [homeAt?, hn', Option.bind_some] at hkept
      refine ih (hclear.parent (parentScope?_eq_ok_iff.2 ⟨sc', hsc', .inr ⟨hkind'.trans hkind, n', ?_, hkept.symm⟩⟩))
      rw [hsame, hn']

theorem clear_left_iff (ho : TravelsWith g g s id o) (hblocked : ¬clear g o t) (hx : left.homeAt? x = none) :
    clear left x t ↔ x ≠ o := by
  constructor
  · rintro hclear rfl
    exact hblocked (clear_of_clear_left hg hcompanyLeft hs hid ht ho hclear)
  · intro hne
    refine (ownersOnPath_left hg hcompanyLeft hs hid ht ho hblocked).mono fun b hb hbx => ?_
    subst hbx
    exact hb.elim (fun hscoped => hscoped hx) hne

/-- Those who come back are those who are reached without the block. -/
theorem admittedWith_iff (ho : TravelsWith g g s id o) (hblocked : ¬clear g o t) :
    AdmittedWith left t id x ↔ ReturnsWith g g s id o x := by
  have hstep (a b : NodeId) : (Companion left a b ∧ left.homeAt? b = none ∧ clear left b t) ↔
      (Companion g a b ∧ b ≠ o ∧ (g.homeAt? b = none ∨ TravelsWith g g s id b)) := by
    rw [hcompanyLeft.sameLinkage.companion_iff, ← hcompanyLeft.homeAt?_eq_none_iff hid, and_comm (a := b ≠ o)]
    refine and_congr_right fun _ => and_congr_right fun hb => ?_
    exact clear_left_iff hg hcompanyLeft hs hid ht ho hblocked hb
  exact ⟨ReflTransGen.mono (fun a b => (hstep a b).1) _ _, ReflTransGen.mono (fun a b => (hstep a b).2) _ _⟩

end

theorem Consistent.ownersOnPath_home (hg : Consistent g) (hx : g.homeAt? x = some s) :
    OwnersOnPath g (fun _ => True) s :=
  (hg.clear_of_home hx).mono fun _ _ => trivial

theorem not_stranded (hg : Consistent g) (ho : ScopesOwned g) (hid : g'.homeAt? id = g.homeAt? id) :
    ¬Stranded g g' id x := by
  rintro ⟨s, o, ⟨hs, -, ho', t, ht, hsurrounds⟩, -⟩
  obtain rfl := Option.some.inj (hs.symm.trans (hid.symm.trans ht))
  have hhome : g.homeAt? o = some s := TravelsWith.homeAt?_eq ho' hs
  exact (surrounds_iff ho (hg.ownersOnPath_home hhome)).1 hsurrounds (hg.clear_of_home hhome)

theorem stranded_congr {b moved : Graph} (hhomes : ∀ x, b.homeAt? x = g.homeAt? x)
    (haround : ∀ o t, Surrounds b o t ↔ Surrounds g o t) (hsameLinkage : SameLinkage moved g')
    (hid : g'.homeAt? id = moved.homeAt? id) : Stranded b moved id x ↔ Stranded g g' id x := by
  have htravelsWith (s : ScopeId) : TravelsWith b moved s = TravelsWith g g' s := by
    simp only [TravelsWith, hhomes, hsameLinkage.companion_iff]
  have hmovesIntoCompanion (s : ScopeId) (o : NodeId) : MovesIntoCompanion b moved s id o ↔
      MovesIntoCompanion g g' s id o := by
    constructor
    · rintro ⟨hs, hne, ho, t, ht, hsurrounds⟩
      exact ⟨(hhomes id).symm.trans hs, hne, htravelsWith s ▸ ho, t, hid.trans ht, (haround o t).1 hsurrounds⟩
    · rintro ⟨hs, hne, ho, t, ht, hsurrounds⟩
      exact ⟨(hhomes id).trans hs, hne, htravelsWith s ▸ ho, t, hid.symm.trans ht, (haround o t).2 hsurrounds⟩
  simp only [Stranded, ReturnsWith, hmovesIntoCompanion, htravelsWith, hhomes, hsameLinkage.companion_iff]

/-- Who is left in no scope by a move. -/
theorem changeScope_strands {r : Except ScopeError Unit} (hg : Consistent g) (ho : ScopesOwned g)
    (h : g.changeScope id t = .ok (g', r)) (hx : g.homeAt? x ≠ none) : g'.homeAt? x = none ↔ Stranded g g' id x := by
  rcases changeScope_walks ho h with rfl | ⟨left, hclear, hallKept, hfree, hcompanyEntered,
      rfl | ⟨s, hid, hcompanyLeft⟩⟩
  · exact iff_of_false hx (not_stranded hg ho rfl)
  · refine iff_of_false (fun hnone => hx (hcompanyEntered.left_behind hnone)) ?_
    rintro ⟨s, o, hmovesInto, -⟩
    cases hfree.symm.trans hmovesInto.home
  · have hsameLinkage : SameLinkage g g' := hcompanyLeft.sameLinkage.trans hcompanyEntered.sameLinkage
    have htravelsWith : TravelsWith g g' s = TravelsWith g g s := by simp only [TravelsWith, hsameLinkage.companion_iff]
    have hreturnsWith (o : NodeId) : ReturnsWith g g' s id o = ReturnsWith g g s id o := by
      simp only [ReturnsWith, TravelsWith, hsameLinkage.companion_iff]
    have ht : OwnersOnPath g (fun _ => True) t := hclear.mono fun _ _ => trivial
    rw [hcompanyEntered.homeAt?_eq_none_iff hfree, hcompanyLeft.homeAt?_eq_none_iff hid, or_iff_right hx]
    constructor
    · rintro ⟨hcompany, hnot⟩
      obtain ⟨o, ho', hblocked⟩ : ∃ o, TravelsWith g g s id o ∧ ¬clear g o t := by
        by_contra hnone
        refine hnot (admittedWith_of_travelsWith hcompanyLeft hallKept hid ht (fun o ho' => ?_) hcompany)
        by_contra hblocked
        exact hnone ⟨o, ho', hblocked⟩
      have hother : o ≠ id := by
        rintro rfl
        exact hblocked hclear
      refine ⟨s, o, ⟨hid, hother, ?_, t, hcompanyEntered.first, (surrounds_iff ho ht).2 hblocked⟩, ?_, ?_⟩
      · rwa [htravelsWith]
      · rwa [htravelsWith]
      · rwa [hreturnsWith, ← admittedWith_iff hg hcompanyLeft hallKept hid ht ho' hblocked]
    · rintro ⟨s', o, ⟨hid', -, ho', t', hfirst, hsurrounds⟩, hcompany, hnot⟩
      obtain rfl := Option.some.inj (hid.symm.trans hid')
      obtain rfl := Option.some.inj (hcompanyEntered.first.symm.trans hfirst)
      rw [htravelsWith] at ho' hcompany
      rw [hreturnsWith] at hnot
      refine ⟨hcompany, ?_⟩
      rwa [admittedWith_iff hg hcompanyLeft hallKept hid ht ho' ((surrounds_iff ho ht).1 hsurrounds)]

theorem MovesIntoCompanion.stranded (h : MovesIntoCompanion g g' s id o) : Stranded g g' id o := by
  refine ⟨s, o, h, h.travelsWith, fun hreturnsWith => ?_⟩
  cases hreturnsWith with
  | refl => exact h.other rfl
  | tail _ hstep => exact hstep.2.1 rfl

theorem Surrounds.transport (h : Surrounds g o t)
    (hscopes : ∀ t sc, g.scopeAt? t = some sc → ∃ sc', g'.scopeAt? t = some sc' ∧ sc'.skeleton = sc.skeleton)
    (hnodes : ∀ x n, g.nodeAt? x = some n → ∃ n', g'.nodeAt? x = some n' ∧ n'.scope = n.scope) :
    Surrounds g' o t := by
  induction h with
  | here hsc howner =>
    obtain ⟨sc', hsc', hskeleton⟩ := hscopes _ _ (scope_eq_ok_iff.1 hsc)
    exact .here (scope_eq_ok_iff.2 hsc') ((Scope.of_skeleton hskeleton).1.trans howner)
  | up hparent _ ih =>
    obtain ⟨sc, hsc, hup⟩ := parentScope?_eq_ok_iff.1 hparent
    obtain ⟨sc', hsc', hskeleton⟩ := hscopes _ _ hsc
    obtain ⟨howner, hkind, -⟩ := Scope.of_skeleton hskeleton
    refine .up (parentScope?_eq_ok_iff.2 ⟨sc', hsc', ?_⟩) ih
    rcases hup with ⟨u, i, hpart, hu⟩ | ⟨hinternal, n, hn, hu⟩
    · exact .inl ⟨u, i, hkind.trans hpart, hu⟩
    · obtain ⟨n', hn', hscope⟩ := hnodes _ n hn
      exact .inr ⟨hkind.trans hinternal, n', howner ▸ hn', hu.trans hscope.symm⟩

theorem surrounds_congr (hs : AllKept g g') (hhomes : ∀ x, g'.homeAt? x = g.homeAt? x) :
    Surrounds g' o t ↔ Surrounds g o t := by
  constructor
  · refine fun h => h.transport (fun u sc' hsc' => ?_) fun x n' hn' => ?_
    · obtain ⟨sc, hsc, hskeleton⟩ := hs.scope hsc'
      exact ⟨sc, hsc, hskeleton.symm⟩
    · obtain ⟨n, hn, -⟩ := hs.node hn'
      have hx := hhomes x
      rw [homeAt?, homeAt?, hn', hn] at hx
      exact ⟨n, hn, hx.symm⟩
  · refine fun h => h.transport (fun _ _ => hs.scope_of) fun x n hn => ?_
    obtain ⟨n', hn', -⟩ := hs.node_of hn
    have hx := hhomes x
    rw [homeAt?, homeAt?, hn', hn] at hx
    exact ⟨n', hn', hx⟩

/-- What an edit does that takes the graph to `b`, without moving anybody, and then may move a node. -/
theorem movedOrSame_strands {b moved : Graph} (hg : Consistent g) (ho : ScopesOwned g) (hb : Changes clear g b)
    (hhomes : ∀ x, b.homeAt? x = g.homeAt? x) (hmoved : MovedOrSame id b moved) (hsameLinkage : SameLinkage moved g')
    (hkept : ∀ x, g'.homeAt? x = moved.homeAt? x) (hx : g.homeAt? x ≠ none) :
    g'.homeAt? x = none ↔ Stranded g g' id x := by
  have hallKept := hb.allKept
  have hx' : b.homeAt? x ≠ none := hhomes x ▸ hx
  rw [← stranded_congr hhomes (fun o t => surrounds_congr hallKept hhomes) hsameLinkage (hkept id), hkept]
  rcases hmoved with rfl | ⟨t, r, h⟩
  · exact iff_of_false hx' (not_stranded (hg.changes hb) (ho.allKept hallKept) rfl)
  · exact changeScope_strands (hg.changes hb) (ho.allKept hallKept) h hx'

section

variable (hg : Consistent g) (ho : ScopesOwned g) (hl : HasLayouts g) (hx : g.homeAt? x ≠ none)

include hg ho hl hx

theorem connect_strands {a b : SlotRef} {r : Except ConnectError Link} (h : g.connect a b true = .ok (g', r)) :
    g'.homeAt? x = none ↔ ∃ l, r = .ok l ∧ Stranded g g' l.mover x := by
  rcases connect_eq h with ⟨rfl, e, rfl⟩ | ⟨l, rfl, hvalid, ⟨⟨⟩, -⟩ | ⟨-, hkind, hflow⟩ | ⟨-, hkind, hvalue⟩⟩
  · refine iff_of_false hx ?_
    rintro ⟨l, ⟨⟩, -⟩
  all_goals
    have hb : Changes clear g (g.addLink l) := .single (.link hvalid)
    have hhomes := (sameFrames_addLink g l).homeAt?
    simp only [Except.ok.injEq, exists_eq_left']
  · have hmover : l.mover = l.head.node := by rw [Link.mover, hkind]
    rw [hmover]
    obtain ⟨tails, -, moved, hmoved, rfl | ⟨target, -, -, -, hreset⟩⟩ := onFlowConnected_eq hflow
    · exact movedOrSame_strands hg ho hb hhomes hmoved .rfl (fun _ => rfl) hx
    · simp only [resetHead, bind_eq_ok, pure_eq_ok] at hreset
      obtain ⟨head, -, rfl⟩ := hreset
      exact movedOrSame_strands hg ho hb hhomes hmoved (.modifyScope _) (homeAt?_lead head) hx
  · obtain ⟨tail, moved, htail, hmoved, hpropertyWritten⟩ := onValueConnected_eq hvalue
    have hmover : l.mover = tail.id := by
      rw [Link.mover, hkind, (hl.changes hb).id_eq htail]
    rw [hmover]
    exact movedOrSame_strands hg ho hb hhomes hmoved
      (.propertyWritten hpropertyWritten) hpropertyWritten.sameFrames.homeAt? hx

theorem disconnect_strands {l : Link} {r : Except ConnectError Unit} (h : g.disconnect l true = .ok (g', r)) :
    g'.homeAt? x = none ↔ Stranded g g' l.mover x := by
  rcases disconnect_eq h with ⟨-, rfl⟩ | ⟨hmem, ⟨⟨⟩, -⟩ | ⟨-, hkind, hflow⟩ | ⟨-, hkind, hvalue⟩⟩
  · exact iff_of_false hx (not_stranded hg ho rfl)
  all_goals
    have hb : Changes clear g (g.removeLink l) := .single (.unlink hmem)
    have hhomes := (sameFrames_removeLink g l).homeAt?
  · have hmover : l.mover = l.head.node := by rw [Link.mover, hkind]
    rw [hmover]
    obtain ⟨unled, hheadCleared, hmoved⟩ := onFlowDisconnected_eq hflow
    have hb' : Changes clear g unled := hb.trans hheadCleared.editMoves.moves.changes
    have hhomes' (x : NodeId) : unled.homeAt? x = g.homeAt? x := by
      cases hheadCleared with
      | other => exact hhomes x
      | unlead => exact (homeAt?_lead none x).trans (hhomes x)
    exact movedOrSame_strands hg ho hb' hhomes' hmoved .rfl (fun _ => rfl) hx
  · have hpropertyWritten := onValueDisconnected_eq hvalue
    exact movedOrSame_strands hg ho hb hhomes (.inl rfl)
      (.propertyWritten hpropertyWritten) hpropertyWritten.sameFrames.homeAt? hx

end

/-- A link that is made or removed leaves a node in no scope exactly if the node that the link moves goes into a
block that travels along with it, and the one that is lost is reached through that block alone. All nodes stay in
scopes exactly if there is no such block. -/
theorem homeless_iff_stranded (hr : Reachable g) (hg : Consistent g) :
    (∀ a b g' r, g.connect a b true = .ok (g', r) →
      (∀ x, g.homeAt? x ≠ none → (g'.homeAt? x = none ↔ ∃ l, r = .ok l ∧ Stranded g g' l.mover x)) ∧
      ((∀ x, g.homeAt? x ≠ none → g'.homeAt? x ≠ none) ↔ ∀ l s o, r = .ok l → ¬MovesIntoCompanion g g' s l.mover o)) ∧
    ∀ l g' r, g.disconnect l true = .ok (g', r) →
      (∀ x, g.homeAt? x ≠ none → (g'.homeAt? x = none ↔ Stranded g g' l.mover x)) ∧
      ((∀ x, g.homeAt? x ≠ none → g'.homeAt? x ≠ none) ↔ ∀ s o, ¬MovesIntoCompanion g g' s l.mover o) := by
  have ho := hr.wellFormed.scopesOwned
  have hl := hr.hasLayouts
  have hscoped {g' : Graph} {s : ScopeId} {id o : NodeId} (h : MovesIntoCompanion g g' s id o) :
      g.homeAt? o ≠ none := by
    rw [TravelsWith.homeAt?_eq h.travelsWith h.home]
    simp
  refine ⟨fun a b g' r h => ?_, fun l g' r h => ?_⟩
  · refine ⟨fun x hx => connect_strands hg ho hl hx h, fun hkept l s o hr hmovesIntoCompanion => ?_,
      fun hnone x hx hlost => ?_⟩
    · have ho' := hscoped hmovesIntoCompanion
      exact hkept o ho' ((connect_strands hg ho hl ho' h).2 ⟨l, hr, hmovesIntoCompanion.stranded⟩)
    · obtain ⟨l, hr, s, o, hmovesIntoCompanion, -⟩ := (connect_strands hg ho hl hx h).1 hlost
      exact hnone l s o hr hmovesIntoCompanion
  · refine ⟨fun x hx => disconnect_strands hg ho hl hx h, fun hkept s o hmovesIntoCompanion => ?_,
      fun hnone x hx hlost => ?_⟩
    · have ho' := hscoped hmovesIntoCompanion
      exact hkept o ho' ((disconnect_strands hg ho hl ho' h).2 hmovesIntoCompanion.stranded)
    · obtain ⟨s, o, hmovesIntoCompanion, -⟩ := (disconnect_strands hg ho hl hx h).1 hlost
      exact hnone s o hmovesIntoCompanion

/-- An `if` is node 3, with the partition 6 on the side that is taken if the condition holds. Node 7 comes before it. -/
def wayBack : Except Fault Graph := do
  let g ← create {} {} default {}
  let s ← g.rootScope
  let _ ← g.scope s
  let g ← g.perform (.conditional .ifElse s)
  [.emptyInstruction s, .connect ⟨⟨7⟩, ⟨1⟩⟩ ⟨⟨3⟩, ⟨0⟩⟩ true].foldlM perform g

theorem consistent_wayBack (h : wayBack = .ok g) : Reachable g ∧ Consistent g := by
  simp only [wayBack, bind_eq_ok] at h
  obtain ⟨g₀, hcreate, s, -, sc, hsc, g₁, hblock, h⟩ := h
  refine consistent_foldlM h (.edit _ (.create hcreate) hblock) ?_ ?_
  · refine (consistent_create hcreate).perform rfl ?_ hblock
    rintro _ ⟨⟩
    exact ⟨sc, hsc⟩
  · simp only [List.forall_mem_cons]
    exact ⟨⟨rfl, rfl⟩, ⟨rfl, rfl⟩, by simp⟩

/-- Node 7 is linked behind a branch of node 3, and moves there. Node 3 leaves the root scope along with it. -/
theorem wayBack_closed : ∃ g g' l, wayBack = .ok g ∧ g.connect ⟨⟨3⟩, ⟨3⟩⟩ ⟨⟨7⟩, ⟨0⟩⟩ true = .ok (g', .ok l) ∧
    g.homeAt? ⟨3⟩ ≠ none ∧ g'.homeAt? ⟨3⟩ = none := by
  obtain ⟨u, h⟩ := exists_of_isOk (x := do
    let g ← wayBack
    let x ← g.connect ⟨⟨3⟩, ⟨3⟩⟩ ⟨⟨7⟩, ⟨0⟩⟩ true
    if !x.2.isOk ∨ g.homeAt? ⟨3⟩ = none ∨ x.1.homeAt? ⟨3⟩ ≠ none then throw .endless) (by decide +kernel)
  simp only [bind_eq_ok] at h
  obtain ⟨g, hg, ⟨g', r⟩, hconnect, h⟩ := h
  split at h
  next => cases h
  next hkept =>
    simp only [not_or, Bool.not_eq_true', Bool.not_eq_false, not_not] at hkept
    obtain ⟨hok, hbefore, hafter⟩ := hkept
    obtain ⟨l, rfl⟩ := exists_of_isOk hok
    exact ⟨g, g', l, hg, hconnect, hbefore, hafter⟩

theorem stranded_wayBack : ∃ g g' l, Reachable g ∧ Consistent g ∧
    g.connect ⟨⟨3⟩, ⟨3⟩⟩ ⟨⟨7⟩, ⟨0⟩⟩ true = .ok (g', .ok l) ∧ Stranded g g' l.mover ⟨3⟩ := by
  obtain ⟨g, g', l, hg, hconnect, hbefore, hafter⟩ := wayBack_closed
  obtain ⟨hr, hconsistent⟩ := consistent_wayBack hg
  obtain ⟨l', hl, hstranded⟩ :=
    (((homeless_iff_stranded hr hconsistent).1 _ _ g' _ hconnect).1 ⟨3⟩ hbefore).1 hafter
  cases hl
  exact ⟨g, g', l, hr, hconsistent, hconnect, hstranded⟩

/-- A link can lose a node. -/
theorem homeless_wayBack : ¬∀ g a b g' r, Reachable g → Consistent g → g.connect a b true = .ok (g', r) →
    ∀ x, g.homeAt? x ≠ none → g'.homeAt? x ≠ none := by
  intro hkept
  obtain ⟨g, g', l, hg, hconnect, hbefore, hafter⟩ := wayBack_closed
  obtain ⟨hr, hconsistent⟩ := consistent_wayBack hg
  exact hkept g _ _ g' _ hr hconsistent hconnect ⟨3⟩ hbefore hafter

end Graph

end FlowGraph
