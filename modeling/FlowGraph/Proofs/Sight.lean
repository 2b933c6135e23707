import FlowGraph.Proofs.Stranding
import FlowGraph.Proofs.Threads

/-!
# Names in sight

A scope sees the variables that it declares and those that the scopes around it declare. What happens to a graph
shows in what a scope sees: a variable that enters is declared or sees another one of its name, and so are all that
a variable hid which leaves.
-/

namespace FlowGraph.Graph

open Relation

abbrev Within (g : Graph) : ScopeId → ScopeId → Prop := ReflTransGen fun s t => g.parentScope? s = .ok (some t)

def Declared (g : Graph) (t : ScopeId) (v : NodeId) : Prop := ∃ sc, g.scopeAt? t = some sc ∧ v ∈ sc.declared

structure DeclaresNone (g : Graph) (name : String) (t : ScopeId) : Prop where
  live : ∃ sc, g.scopeAt? t = some sc
  names {w : NodeId} : Declared g t w → ∃ m, g.nodeAt? w = some m ∧ m.name ≠ name

inductive NameUnseen (g : Graph) (name : String) : ScopeId → Prop
  | top {s : ScopeId} : g.parentScope? s = .ok none → DeclaresNone g name s → NameUnseen g name s
  | up {s t : ScopeId} : g.parentScope? s = .ok (some t) → DeclaresNone g name s → NameUnseen g name t →
      NameUnseen g name s

/-- The variable is in the scope, but not declared there. -/
def LeftUndeclared (g : Graph) (v : NodeId) (name : String) (s : ScopeId) : Prop :=
  ∃ n sc, g.node v = .ok n ∧ n.isVariable = true ∧ n.name = name ∧ n.scope = some s ∧ g.scope s = .ok sc ∧
    v ∉ sc.declared

variable {g g' : Graph} {id v w : NodeId} {s t : ScopeId} {n : Node} {sc : Scope} {name : String}

theorem Declared.mem (h : Declared g t v) (hsc : g.scopeAt? t = some sc) : v ∈ sc.declared := by
  obtain ⟨sc', hsc', hv⟩ := h
  cases hsc.symm.trans hsc'
  exact hv

theorem leftUndeclared_iff :
    LeftUndeclared g v name s ↔ ∃ n, g.nodeAt? v = some n ∧ n.isVariable = true ∧ n.name = name ∧
    n.scope = some s ∧ (∃ sc, g.scopeAt? s = some sc) ∧ ¬Declared g s v := by
  simp only [LeftUndeclared, node_eq_ok_iff, scope_eq_ok_iff]
  constructor
  · rintro ⟨n, sc, hn, hvar, hname, hs, hsc, hv⟩
    exact ⟨n, hn, hvar, hname, hs, ⟨sc, hsc⟩, fun hdeclared => hv (hdeclared.mem hsc)⟩
  · rintro ⟨n, hn, hvar, hname, hs, ⟨sc, hsc⟩, hv⟩
    exact ⟨n, sc, hn, hvar, hname, hs, hsc, fun hmem => hv ⟨sc, hsc, hmem⟩⟩

theorem LeftUndeclared.home (h : LeftUndeclared g v name s) : g.homeAt? v = some s := by
  obtain ⟨n, hn, -, -, hs, -⟩ := leftUndeclared_iff.1 h
  exact homeAt?_eq_some_iff.2 ⟨n, hn, hs⟩

theorem nameUnseen_of_findVariableWithin {k : Nat} (h : g.findVariableWithin name true k s = .ok none) :
    NameUnseen g name s := by
  induction k generalizing s with
  | zero => cases h
  | succ k ih =>
    simp only [findVariableWithin, bind_eq_ok, scope_eq_ok_iff, if_true] at h
    obtain ⟨sc, hsc, found, hfound, h⟩ := h
    cases found with
    | some w => cases h
    | none =>
      have hfree : DeclaresNone g name s := by
        refine ⟨⟨sc, hsc⟩, fun {w} hw => ?_⟩
        have hpass := of_findM?_eq_none hfound (hw.mem hsc)
        simp only [bind_eq_ok, node_eq_ok_iff, pure_eq_ok, beq_eq_false_iff_ne] at hpass
        exact hpass
      obtain ⟨parent, hparent, h⟩ := bind_eq_ok.1 h
      cases parent with
      | none => exact .top hparent hfree
      | some t => exact .up hparent hfree (ih h)

theorem declared_of_findVariableWithin {k : Nat} (h : g.findVariableWithin name true k s = .ok (some w)) :
    ∃ t, Within g s t ∧ Declared g t w ∧ ∃ m, g.nodeAt? w = some m ∧ m.name = name := by
  induction k generalizing s with
  | zero => cases h
  | succ k ih =>
    simp only [findVariableWithin, bind_eq_ok, scope_eq_ok_iff, if_true] at h
    obtain ⟨sc, hsc, found, hfound, h⟩ := h
    cases found with
    | some w =>
      cases h
      obtain ⟨hmem, hname⟩ := of_findM?_eq_some hfound
      simp only [bind_eq_ok, node_eq_ok_iff, pure_eq_ok, beq_iff_eq] at hname
      exact ⟨s, .refl, ⟨sc, hsc, hmem⟩, hname⟩
    | none =>
      obtain ⟨parent, hparent, h⟩ := bind_eq_ok.1 h
      cases parent with
      | none => cases h
      | some t =>
        obtain ⟨u, hu, hdeclared⟩ := ih h
        exact ⟨u, .head hparent hu, hdeclared⟩

theorem NameUnseen.parentsEnd (h : NameUnseen g name s) : ParentsEnd g s := by
  induction h with
  | top hparent _ => exact .top hparent
  | up hparent _ _ ih => exact .up hparent ih

theorem NameUnseen.declaresNone (h : NameUnseen g name s) (hwithin : Within g s t) : DeclaresNone g name t := by
  induction hwithin using ReflTransGen.head_induction_on with
  | refl =>
    cases h with
    | top _ hfree => exact hfree
    | up _ hfree _ => exact hfree
  | head hparent _ ih =>
    cases h with
    | top htop _ => cases htop.symm.trans hparent
    | up hup _ h =>
      cases hup.symm.trans hparent
      exact ih h

theorem NameUnseen.congr (h : NameUnseen g' name s) (hnodes : ∀ x, g'.nodeAt? x = g.nodeAt? x)
    (hscopes : ∀ t, g'.scopeAt? t = g.scopeAt? t) : NameUnseen g name s := by
  have hparent {t : ScopeId} {parent : Option ScopeId} (h : g'.parentScope? t = .ok parent) :
      g.parentScope? t = .ok parent := by
    simpa only [parentScope?_eq_ok_iff, hnodes, hscopes] using h
  have hfree {t : ScopeId} (h : DeclaresNone g' name t) : DeclaresNone g name t := by
    refine ⟨hscopes t ▸ h.live, fun {w} hw => hnodes w ▸ h.names ?_⟩
    rwa [Declared, hscopes]
  induction h with
  | top htop hs => exact .top (hparent htop) (hfree hs)
  | up hup hs _ ih => exact .up (hparent hup) (hfree hs) ih

theorem not_nameUnseen_of_findVariable (h : g.findVariable s name true = .ok (some w)) : ¬NameUnseen g name s := by
  intro hnameUnseen
  obtain ⟨t, hwithin, hdeclared, m, hm, hname⟩ := declared_of_findVariableWithin h
  obtain ⟨m', hm', hother⟩ := (hnameUnseen.declaresNone hwithin).names hdeclared
  cases hm.symm.trans hm'
  exact hother hname

theorem exists_findVariable (hh : ScopesMatchNodes g) (h : ParentsEnd g s) (name : String) :
    ∃ found, g.findVariable s name true = .ok found := by
  have hlook {s : ScopeId} {sc : Scope} (hsc : g.scopeAt? s = some sc) :
      ∃ found, (sc.declared.findM? fun v => do return (← g.node v).name == name) = .ok found :=
    exists_findM? fun v hv => by
      obtain ⟨m, hm, -⟩ := (hh.scopeMatchesNodes hsc).child v ((hh.scopeMatchesNodes hsc).declared v hv).1
      exact ⟨m.name == name, bind_eq_ok.2 ⟨m, node_eq_ok_iff.2 hm, rfl⟩⟩
  refine h.search fun k s parent hparent habove => ?_
  obtain ⟨sc, hsc, -⟩ := parentScope?_eq_ok_iff.1 hparent
  obtain ⟨found, hfound⟩ := hlook hsc
  simp only [findVariableWithin, scope_eq_ok_iff.2 hsc, hfound, hparent, ok_bind, if_true]
  cases found with
  | some w => exact ⟨some w, rfl⟩
  | none =>
    cases parent with
    | none => exact ⟨none, rfl⟩
    | some t => exact habove t rfl

theorem findVariable_eq_none_iff (hh : ScopesMatchNodes g) :
    g.findVariable s name true = .ok none ↔ NameUnseen g name s := by
  refine ⟨nameUnseen_of_findVariableWithin, fun hnameUnseen => ?_⟩
  obtain ⟨found, hfound⟩ := exists_findVariable hh hnameUnseen.parentsEnd name
  cases found with
  | none => exact hfound
  | some w => exact (not_nameUnseen_of_findVariable hfound hnameUnseen).elim

theorem childScopes_of_parent {inner : List ScopeId} (ho : ScopesOwned g) (hh : ScopesMatchNodes g)
    (hparent : g.parentScope? s = .ok (some t)) (h : g.childScopes t = .ok inner) : s ∈ inner := by
  simp only [childScopes, bind_eq_ok, scope_eq_ok_iff, pure_eq_ok] at h
  obtain ⟨st, hst, blocks, hblocks, rfl⟩ := h
  obtain ⟨sc, hsc, hup⟩ := parentScope?_eq_ok_iff.1 hparent
  obtain ⟨n, i, si, hn, hi, hsi, hs⟩ := ho.home hsc
  obtain ⟨si', hsi', -, hkind, hparts⟩ := ho.internal hn hi
  cases hsi.symm.trans hsi'
  rcases hup with ⟨_, j, hpart, ⟨⟩⟩ | ⟨hinternal, m, hm, ht⟩
  · refine List.mem_append_left _ ?_
    rcases hs with rfl | hs
    · cases hsc.symm.trans hsi
      cases hkind.symm.trans hpart
    · obtain ⟨k, hk⟩ := List.getElem?_of_mem hs
      obtain ⟨sp, hsp, -, hkind'⟩ := hparts k s hk
      cases hsc.symm.trans hsp
      cases hpart.symm.trans hkind'
      cases hst.symm.trans hsi
      exact hs
  · refine List.mem_append_right _ ?_
    cases hn.symm.trans hm
    rcases hs with rfl | hs
    · refine mem_filterMapM hblocks (hh.listed hn ht.symm hst) ?_
      exact bind_eq_ok.2 ⟨n, node_eq_ok_iff.2 hn, congrArg _ hi⟩
    · obtain ⟨k, hk⟩ := List.getElem?_of_mem hs
      obtain ⟨sp, hsp, -, hkind'⟩ := hparts k s hk
      cases hsc.symm.trans hsp
      cases hinternal.symm.trans hkind'

/-- A walk down that is not cut off comes to all scopes from which the way up comes here. -/
theorem mem_below {k : Nat} {inner : List ScopeId} (ho : ScopesOwned g) (hh : ScopesMatchNodes g)
    (hwithin : Within g s t) (h : g.below (.error .endless) k t = .ok inner) : s = t ∨ s ∈ inner := by
  induction k generalizing t inner with
  | zero => cases h
  | succ k ih =>
    simp only [below, bind_eq_ok, pure_eq_ok] at h
    obtain ⟨children, hchildren, lists, hlists, rfl⟩ := h
    rcases hwithin.cases_tail with rfl | ⟨c, hwithin, hparent⟩
    · exact .inl rfl
    · obtain ⟨l, hl, hdown⟩ := exists_of_mem_mapM hlists (childScopes_of_parent ho hh hparent hchildren)
      obtain ⟨nested, hnested, ⟨⟩⟩ := bind_eq_ok.1 hdown
      refine .inr (List.mem_flatten.2 ⟨_, hl, ?_⟩)
      rw [List.mem_cons]
      exact ih hwithin hnested

theorem mem_descendants {nested : List ScopeId} (ho : ScopesOwned g) (hh : ScopesMatchNodes g) (hwithin : Within g s t)
    (h : g.descendants t none true = .ok nested) : s ∈ nested := by
  simp only [descendants, bind_eq_ok, pure_eq_ok, if_true] at h
  obtain ⟨inner, hinner, rfl⟩ := h
  rw [List.mem_cons]
  exact mem_below ho hh hwithin hinner

section

variable (hl : SurvivorsKept g g')

include hl

theorem parentScope?_survivorsKept {parent : Option ScopeId} (h : g'.parentScope? t = .ok parent) :
    g.parentScope? t = .ok parent ∨ ∃ sc', g'.scopeAt? t = some sc' ∧ parent = g'.homeAt? sc'.owner ∧
      g.parentScope? t = .ok (g.homeAt? sc'.owner) := by
  obtain ⟨sc', hsc', hup⟩ := parentScope?_eq_ok_iff.1 h
  obtain ⟨sc, hsc, hskeleton⟩ := hl.scope hsc'
  obtain ⟨howner, hkind, -⟩ := Scope.of_skeleton hskeleton
  rcases hup with ⟨u, i, hpart, rfl⟩ | ⟨hinternal, n', hn', rfl⟩
  · exact .inl (parentScope?_eq_ok_iff.2 ⟨sc, hsc, .inl ⟨u, i, hkind.symm.trans hpart, rfl⟩⟩)
  · obtain ⟨n, hn, -⟩ := hl.node hn'
    have hhome' : g'.homeAt? sc'.owner = n'.scope := by rw [homeAt?, hn', Option.bind_some]
    have hhome : g.homeAt? sc'.owner = n.scope := by rw [homeAt?, hn, Option.bind_some]
    refine .inr ⟨sc', hsc', hhome'.symm,
      parentScope?_eq_ok_iff.2 ⟨sc, hsc, .inr ⟨hkind.symm.trans hinternal, n, ?_, ?_⟩⟩⟩
    · rw [← howner]
      exact hn
    · exact hhome

theorem Within.before (h : Within g' s t) (hhome : ∀ x, g'.homeAt? x = g.homeAt? x) : Within g s t := by
  refine ReflTransGen.mono (fun a b hab => ?_) _ _ h
  rcases parentScope?_survivorsKept hl hab with hparent | ⟨sc', -, hb, hparent⟩
  · exact hparent
  · rw [hparent, hb, hhome]

theorem LeftUndeclared.before (h : LeftUndeclared g' v name s) (hhome : g.homeAt? v = some s)
    (hdeclared : Declared g s v → Declared g' s v) : LeftUndeclared g v name s := by
  obtain ⟨n', hn', hvar, hname, -, ⟨sc', hsc'⟩, hv⟩ := leftUndeclared_iff.1 h
  obtain ⟨n, hn, hskeleton⟩ := hl.node hn'
  obtain ⟨sc, hsc, -⟩ := hl.scope hsc'
  obtain ⟨hkind, hname', -⟩ := Node.of_skeleton hskeleton
  obtain ⟨m, hm, hs⟩ := homeAt?_eq_some_iff.1 hhome
  cases hn.symm.trans hm
  refine leftUndeclared_iff.2 ⟨n, hn, ?_, hname'.symm.trans hname, hs, ⟨sc, hsc⟩, fun h => hv (hdeclared h)⟩
  rwa [Node.isVariable, ← hkind]

theorem DeclaresNone.before (h : DeclaresNone g' name t)
    (hdeclared : ∀ w, Declared g t w → Declared g' t w ∨ ∃ m, g.nodeAt? w = some m ∧ m.name ≠ name) :
    DeclaresNone g name t := by
  obtain ⟨sc', hsc'⟩ := h.live
  obtain ⟨sc, hsc, -⟩ := hl.scope hsc'
  refine ⟨⟨sc, hsc⟩, fun {w} hw => ?_⟩
  rcases hdeclared w hw with hw | hother
  · obtain ⟨m', hm', hother⟩ := h.names hw
    obtain ⟨m, hm, hskeleton⟩ := hl.node hm'
    exact ⟨m, hm, (Node.of_skeleton hskeleton).2.1 ▸ hother⟩
  · exact hother

section

variable (hhome : ∀ x, Surrounds g' x s → g.homeAt? x = g'.homeAt? x ∨ g.homeAt? x = none)

include hhome

theorem parentScope?_before {parent : Option ScopeId} (h : g'.parentScope? s = .ok parent) :
    g.parentScope? s = .ok parent ∨ g.parentScope? s = .ok none := by
  rcases parentScope?_survivorsKept hl h with hparent | ⟨sc', hsc', rfl, hparent⟩
  · exact .inl hparent
  · rw [hparent]
    exact (hhome sc'.owner (.here (scope_eq_ok_iff.2 hsc') rfl)).imp (congrArg _) (congrArg _)

theorem NameUnseen.before (h : NameUnseen g' name s)
    (hfree : ∀ t, Within g' s t → DeclaresNone g' name t → DeclaresNone g name t) :
    NameUnseen g name s := by
  induction h with
  | @top s hparent hs =>
    have hs := hfree s .refl hs
    exact .top ((parentScope?_before hl hhome hparent).elim id id) hs
  | @up s t hparent hs _ ih =>
    have hs := hfree s .refl hs
    rcases parentScope?_before hl hhome hparent with hparent' | hparent'
    · refine .up hparent' hs (ih (fun x hx => hhome x (.up hparent hx)) fun u hu => hfree u (.head hparent hu))
    · exact .top hparent' hs

theorem Surrounds.after {o : NodeId} (h : Surrounds g o s) (hup : ParentsEnd g' s) : Surrounds g' o s := by
  induction h with
  | @here t sc hsc howner =>
    have hlive : ∃ parent, g'.parentScope? t = .ok parent := by
      cases hup with
      | top hparent => exact ⟨_, hparent⟩
      | up hparent _ => exact ⟨_, hparent⟩
    obtain ⟨parent, hparent⟩ := hlive
    obtain ⟨sc', hsc', -⟩ := parentScope?_eq_ok_iff.1 hparent
    obtain ⟨sc₁, hsc₁, hskeleton⟩ := hl.scope hsc'
    cases (scope_eq_ok_iff.1 hsc).symm.trans hsc₁
    exact .here (scope_eq_ok_iff.2 hsc') ((Scope.of_skeleton hskeleton).1.trans howner)
  | up hparent _ ih =>
    cases hup with
    | top hparent' => cases hparent.symm.trans ((parentScope?_before hl hhome hparent').elim id id)
    | up hparent' hup =>
      rcases parentScope?_before hl hhome hparent' with h | h
      · cases hparent.symm.trans h
        exact .up hparent' (ih (fun x hx => hhome x (.up hparent' hx)) hup)
      · cases hparent.symm.trans h

end

end

theorem declared_place : Declared (g.place id s) t w ↔ Declared g t w := by
  simp only [Declared, scopeAt?_place]
  split
  next =>
    cases g.scopeAt? t <;> simp [Scope.addChild]
  next => rfl

theorem declared_displace : Declared (g.displace id s) t w ↔ Declared g t w ∧ ¬(t = s ∧ w = id) := by
  simp only [Declared, scopeAt?_displace]
  split
  next ht =>
    cases g.scopeAt? t <;> simp [Scope.forget, ht]
  next ht => simp [ht]

theorem Declared.declare (h : Declared g t w) : Declared (g.modifyScope s (·.declare v)) t w := by
  obtain ⟨sc, hsc, hw⟩ := h
  rw [Declared, scopeAt?_modifyScope, hsc]
  split
  next => exact ⟨sc.declare v, rfl, List.mem_append_left _ hw⟩
  next => exact ⟨sc, rfl, hw⟩

theorem declared_declare (hsc : g.scopeAt? s = some sc) : Declared (g.modifyScope s (·.declare v)) s v := by
  refine ⟨sc.declare v, ?_, List.mem_append_right _ (List.mem_singleton_self v)⟩
  rw [scopeAt?_modifyScope, if_pos rfl, hsc]
  rfl

structure MoreDeclared (g g' : Graph) : Prop extends DeclarationsDiffer g g' where
  declared {t : ScopeId} {w : NodeId} : Declared g t w → Declared g' t w

namespace MoreDeclared

theorem refl (g : Graph) : MoreDeclared g g := ⟨.refl g, id⟩

theorem trans {g₁ g₂ g₃ : Graph} (h : MoreDeclared g₁ g₂) (h' : MoreDeclared g₂ g₃) : MoreDeclared g₁ g₃ :=
  ⟨h.toDeclarationsDiffer.trans h'.toDeclarationsDiffer, h'.declared ∘ h.declared⟩

theorem survivorsKept (h : MoreDeclared g g') : SurvivorsKept g g' := by
  have hframe := h.frame
  refine ⟨fun {x n'} hn' => ⟨n', (h.nodeAt? x).symm.trans hn', rfl⟩, fun {t sc'} hsc' => ?_, ?_, ?_, ?_, ?_⟩
  · obtain ⟨sc, hsc, heq⟩ := h.scope_of hsc'
    exact ⟨sc, hsc, by rw [heq]; rfl⟩
  all_goals rw [hframe]

theorem nameUnseen (h : MoreDeclared g g') (hnameUnseen : NameUnseen g' name s) : NameUnseen g name s := by
  refine hnameUnseen.before h.survivorsKept (fun x _ => .inl (h.homeAt? x).symm) fun t _ hfree => ?_
  exact hfree.before h.survivorsKept fun w hw => .inl (h.declared hw)

theorem settled (h : MoreDeclared g g') (hv : Declared g s v ∨ ¬NameUnseen g name s) :
    Declared g' s v ∨ ¬NameUnseen g' name s :=
  hv.imp h.declared fun hseen hnameUnseen => hseen (h.nameUnseen hnameUnseen)

end MoreDeclared

theorem declareUnlessInSight_sight (h : declareUnlessInSight name s g v = .ok g') :
    MoreDeclared g g' ∧ (Declared g' s v ∨ ¬NameUnseen g' name s) := by
  obtain ⟨found, hfound, h⟩ := bind_eq_ok.1 h
  cases found with
  | some w =>
    cases h
    exact ⟨.refl g, .inr (not_nameUnseen_of_findVariable hfound)⟩
  | none =>
    cases h
    obtain ⟨sc, hsc⟩ := ((nameUnseen_of_findVariableWithin hfound).declaresNone .refl).live
    exact ⟨⟨.declare g s v, .declare⟩, .inl (declared_declare hsc)⟩

theorem undeclared_sight {vs : List NodeId} (hvs : g.undeclared s name = .ok vs)
    (h : vs.foldlM (declareUnlessInSight name s) g = .ok g') :
    MoreDeclared g g' ∧ ∀ v n, g.nodeAt? v = some n → n.isVariable = true → n.name = name →
      (∀ sc, g.scopeAt? s = some sc → v ∈ sc.children) → Declared g' s v ∨ ¬NameUnseen g' name s := by
  obtain ⟨hmoreDeclared, hvisited⟩ :=
      foldlM_visits (P := MoreDeclared g) (Q := fun v h => Declared h s v ∨ ¬NameUnseen h name s)
    h (.refl g) fun h₁ v _ h₂ hmoreDeclared hdeclare => by
      obtain ⟨hstep, hv⟩ := declareUnlessInSight_sight hdeclare
      exact ⟨hmoreDeclared.trans hstep, hv, fun w => hstep.settled⟩
  refine ⟨hmoreDeclared, fun v n hn hvar hname hchild => ?_⟩
  simp only [undeclared, bind_eq_ok, scope_eq_ok_iff] at hvs
  obtain ⟨sc, hsc, hvs⟩ := hvs
  by_cases hv : v ∈ sc.declared
  · exact .inl (hmoreDeclared.declared ⟨sc, hsc, hv⟩)
  · refine hvisited v ((mem_filterM_iff hvs).2 ⟨hchild sc hsc, ?_⟩)
    simp [node_eq_ok_iff.2 hn, hvar, hname, hv]

/-- When a declaration is gone, all that it hid below are declared or see another one of their name. -/
theorem declareShadowed_sight (ho : ScopesOwned g) (hh : ScopesMatchNodes g) (h : g.declareShadowed s name = .ok g') :
    MoreDeclared g g' ∧ ∀ v t, Within g t s → LeftUndeclared g v name t → Declared g' t v ∨ ¬NameUnseen g' name t := by
  simp only [declareShadowed, bind_eq_ok] at h
  obtain ⟨nested, hnested, h⟩ := h
  obtain ⟨hmoreDeclared, hvisited⟩ := foldlM_visits (P := MoreDeclared g)
    (Q := fun t h => ∀ v, LeftUndeclared g v name t → Declared h t v ∨ ¬NameUnseen h name t) h (.refl g)
    fun h₁ t _ h₂ hmoreDeclared hvisit => by
      obtain ⟨vs, hvs, hvisit⟩ := bind_eq_ok.1 hvisit
      obtain ⟨hstep, hsettled⟩ := undeclared_sight hvs hvisit
      refine ⟨hmoreDeclared.trans hstep, fun v hv => ?_, fun u hu v hv => hstep.settled (hu v hv)⟩
      obtain ⟨n, hn, hvar, hname, ht, -⟩ := leftUndeclared_iff.1 hv
      refine hsettled v n ((hmoreDeclared.nodeAt? v).trans hn) hvar hname fun sc' hsc' => ?_
      obtain ⟨sc, hsc, heq⟩ := hmoreDeclared.scope_of hsc'
      have hchildren : sc'.children = sc.children := congrArg (·.children) heq
      rw [hchildren]
      exact hh.listed hn ht hsc
  exact ⟨hmoreDeclared, fun v t hwithin => hvisited t (mem_descendants ho hh hwithin hnested) v⟩

theorem enter_sight (h : g.enter id s = .ok g') (hn : g.nodeAt? id = some n) :
    (∀ t w, Declared g t w → Declared g' t w) ∧
      (n.isVariable = true → Declared g' s id ∨ ¬NameUnseen g' n.name s) := by
  simp only [enter, bind_eq_ok, node_eq_ok_iff, scope_eq_ok_iff] at h
  obtain ⟨n', hn', sc, hsc, h⟩ := h
  cases hn.symm.trans hn'
  have hplaced (t : ScopeId) (w : NodeId) (hw : Declared g t w) : Declared (g.place id s) t w := declared_place.2 hw
  split at h
  next =>
    obtain ⟨found, hfound, h⟩ := bind_eq_ok.1 h
    cases found with
    | some w =>
      cases h
      refine ⟨hplaced, fun _ => .inr fun hnameUnseen => not_nameUnseen_of_findVariable hfound ?_⟩
      exact hnameUnseen.congr (fun _ => rfl) fun _ => rfl
    | none =>
      cases h
      obtain ⟨sc', hsc'⟩ := ((nameUnseen_of_findVariableWithin hfound).declaresNone .refl).live
      exact ⟨fun t w hw => (hplaced t w hw).declare, fun _ => .inl (declared_declare hsc')⟩
  next hplain =>
    cases h
    exact ⟨hplaced, fun hvar => (hplain hvar).elim⟩

/-- Whoever is below when a declared variable leaves is declared, or sees another one of that name. -/
theorem leave_sight (ho : ScopesOwned g) (hh : ScopesMatchNodes g) (h : g.leave id s = .ok g')
    (hn : g.nodeAt? id = some n) (hs : n.scope = some s) :
    (∀ t w, Declared g t w → Declared g' t w ∨ t = s ∧ w = id) ∧
      (Declared g s id → ∀ v t, Within g' t s → LeftUndeclared g' v n.name t → ¬NameUnseen g' n.name t) := by
  simp only [leave, bind_eq_ok, node_eq_ok_iff, scope_eq_ok_iff] at h
  obtain ⟨n', hn', sc, hsc, h⟩ := h
  cases hn.symm.trans hn'
  have hleft (t : ScopeId) (w : NodeId) (hw : Declared g t w) : Declared (g.displace id s) t w ∨ t = s ∧ w = id := by
    by_cases hself : t = s ∧ w = id
    · exact .inr hself
    · exact .inl (declared_displace.2 ⟨hw, hself⟩)
  split at h
  next =>
    obtain ⟨shown, hshown, h⟩ := bind_eq_ok.1 h
    cases h
    have hmove : Move never g (g.displace id s) := .leave hn hs hsc
    have hallKept : AllKept g (g.displace id s) := hmove.allKept
    have hshown : (g.displace id s).declareShadowed s n.name = .ok shown := hshown
    obtain ⟨hmoreDeclared, hsettled⟩ := declareShadowed_sight (ho.allKept hallKept) (hh.displace hn hs hsc) hshown
    refine ⟨fun t w hw => (hleft t w hw).imp_left hmoreDeclared.declared, fun _ v t hwithin hv hnameUnseen => ?_⟩
    have hv' : LeftUndeclared shown v n.name t := hv
    have hwithin' : Within shown t s := hwithin
    have hleftUndeclared : LeftUndeclared (g.displace id s) v n.name t :=
      hv'.before hmoreDeclared.survivorsKept ((hmoreDeclared.homeAt? v).symm.trans hv'.home) hmoreDeclared.declared
    rcases hsettled v t (hwithin'.before hmoreDeclared.survivorsKept hmoreDeclared.homeAt?) hleftUndeclared
        with hdeclared | hseen
    · obtain ⟨-, -, -, -, -, -, hnot⟩ := leftUndeclared_iff.1 hv'
      exact hnot hdeclared
    · exact hseen (hnameUnseen.congr (fun _ => rfl) fun _ => rfl)
  next hplain =>
    cases h
    refine ⟨hleft, fun hdeclared => (hplain ?_).elim⟩
    rw [List.contains_iff_mem]
    exact hdeclared.mem hsc

end FlowGraph.Graph
