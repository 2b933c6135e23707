import FlowGraph.Proofs.Expressions
import FlowGraph.Proofs.Relinking

/-!
# Destructions without an end

A destruction with side effects begins with other nodes before it removes its own. It comes to an end unless it begins
with a node, and comes back to it, with nothing removed in between. Nodes come into the scopes of others as nodes are
linked around those that have gone, but a way back leads through expressions that feed one another in a circle. There
are no more levels than pairs of nodes, so a circle is all that more levels could be wanted for, and none are enough.
-/

namespace FlowGraph

section

variable {α σ : Type}

theorem exists_of_foldlM_error {f : σ → α → Except Fault σ} {as : List α} {s : σ} {e : Fault}
    (h : as.foldlM f s = .error e) :
    ∃ before a t, before ++ [a] <+: as ∧ before.foldlM f s = .ok t ∧ f t a = .error e := by
  induction as generalizing s with
  | nil => cases h
  | cons a as ih =>
    rw [List.foldlM_cons] at h
    cases hfirst : f s a with
    | error e' =>
      rw [hfirst] at h
      cases h
      exact ⟨[], a, s, ⟨as, rfl⟩, rfl, hfirst⟩
    | ok t =>
      rw [hfirst, ok_bind] at h
      obtain ⟨before, b, u, ⟨rest, hrest⟩, hbefore, hb⟩ := ih h
      refine ⟨a :: before, b, u, ⟨rest, congrArg (a :: ·) hrest⟩, ?_, hb⟩
      rw [List.foldlM_cons, hfirst]
      exact hbefore

theorem Terminates.foldlM_leading {well : Prop} {f : σ → α → Except Fault σ} {as : List α} {s : σ}
    (h : ∀ before a t, before ++ [a] <+: as → before.foldlM f s = .ok t → Terminates well (f t a)) :
    Terminates well (as.foldlM f s) := by
  intro e he
  obtain ⟨before, a, t, hleading, hbefore, ha⟩ := exists_of_foldlM_error he
  exact h before a t hleading hbefore e ha

theorem mem_of_leading {before as : List α} {a : α} (hleading : before ++ [a] <+: as) : a ∈ as :=
  hleading.subset (List.mem_append_right _ List.mem_cons_self)

theorem exists_of_leading {f : σ → α → Except Fault σ} {before as : List α} {a : α} {s u : σ}
    (hleading : before ++ [a] <+: as) (h : as.foldlM f s = .ok u) :
    ∃ t v, before.foldlM f s = .ok t ∧ f t a = .ok v := by
  obtain ⟨rest, rfl⟩ := hleading
  rw [List.append_assoc, List.foldlM_append] at h
  obtain ⟨t, ht, hrest⟩ := bind_eq_ok.1 h
  rw [List.singleton_append, List.foldlM_cons] at hrest
  obtain ⟨v, hv, -⟩ := bind_eq_ok.1 hrest
  exact ⟨t, v, ht, hv⟩

def Approximates (x y : Except Fault α) : Prop := x = .error .endless ∨ x = y

namespace Approximates

theorem refl (x : Except Fault α) : Approximates x x := .inr rfl

theorem bind {β : Type} {x y : Except Fault α} {f f' : α → Except Fault β} (h : Approximates x y)
    (hf : ∀ a, Approximates (f a) (f' a)) : Approximates (x >>= f) (y >>= f') := by
  rcases h with rfl | rfl
  · exact .inl rfl
  · cases x with
    | error e => exact .refl _
    | ok a => exact hf a

theorem foldlM {f f' : σ → α → Except Fault σ} (h : ∀ s a, Approximates (f s a) (f' s a)) (as : List α) (s : σ) :
    Approximates (as.foldlM f s) (as.foldlM f' s) := by
  induction as generalizing s with
  | nil => exact .refl _
  | cons a as ih =>
    rw [List.foldlM_cons, List.foldlM_cons]
    exact .bind (h s a) ih

end Approximates

end

namespace Graph

open Relation

variable {g h : Graph} {well : Prop} {id x y : NodeId} {n : Node} {k : Nat} {inner : List ScopeId}
  {inputs : List NodeId}

/-- With more levels a destruction is the same, as soon as it wants no more. -/
theorem destroyWithin_approximates {sideEffects : Bool} {k' : Nat} (hk : k ≤ k') (g : Graph) (id : NodeId) :
    Approximates (destroyWithin sideEffects k g id) (destroyWithin sideEffects k' g id) := by
  induction k generalizing k' g id with
  | zero => exact .inl rfl
  | succ k ih =>
    obtain ⟨k', rfl⟩ := Nat.exists_eq_succ_of_ne_zero (Nat.ne_zero_of_lt hk)
    have hdown := ih (Nat.le_of_succ_le_succ hk)
    rw [destroyWithin, destroyWithin]
    split
    next => exact .refl _
    split
    next => exact .refl _
    next =>
      refine .bind (.refl _) fun inner => .bind (.refl _) fun this => ?_
      split
      next =>
        refine .bind (.refl _) fun inputs => .bind (.foldlM hdown _ _) fun g₁ => ?_
        exact .bind (.refl _) fun content => .bind (.foldlM hdown _ _) fun g₂ => .refl _
      next => exact .refl _

/-- Destroying a node comes to another one, in the graph that is left by then. -/
inductive DestroyReaches : Graph × NodeId → Graph × NodeId → Prop
  | input {k : Nat} {g h : Graph} {id x : NodeId} {n : Node} {inner : List ScopeId} {inputs before : List NodeId} :
      id ≠ g.root → g.nodeAt? id = some n → g.innerScopes id = .ok inner → g.privateInputs n = .ok inputs →
      before ++ [x] <+: inputs → before.foldlM (destroyWithin true k) g = .ok h → DestroyReaches (g, id) (h, x)
  | content {k : Nat} {g g₁ h : Graph} {id x : NodeId} {n : Node} {inner : List ScopeId} {inputs before : List NodeId}
      {content : List (List NodeId)} :
      id ≠ g.root → g.nodeAt? id = some n → g.innerScopes id = .ok inner → g.privateInputs n = .ok inputs →
      inputs.foldlM (destroyWithin true k) g = .ok g₁ →
      inner.mapM (fun s => do return (← g₁.scope s).children) = .ok content →
      before ++ [x] <+: content.flatten → before.foldlM (destroyWithin true k) g₁ = .ok h →
      DestroyReaches (g, id) (h, x)

theorem foldlM_destroyWithin_or {as : List NodeId} {k' : Nat}
    (h' : as.foldlM (destroyWithin true k') g = .ok h) (k : Nat) :
    as.foldlM (destroyWithin true k) g = .error .endless ∨ as.foldlM (destroyWithin true k) g = .ok h := by
  rcases Nat.le_total k k' with hk | hk
  · exact (Approximates.foldlM (destroyWithin_approximates hk) as g).imp_right (·.trans h')
  · rcases Approximates.foldlM (destroyWithin_approximates hk) as g with hfew | hmore
    · cases h'.symm.trans hfew
    · exact .inr (hmore.symm.trans h')

theorem foldlM_endless {before as : List NodeId} {k' : Nat} (hleading : before ++ [x] <+: as)
    (hbefore : before.foldlM (destroyWithin true k') g = .ok h)
    (hendless : destroyWithin true k h x = .error .endless) :
    as.foldlM (destroyWithin true k) g = .error .endless := by
  obtain ⟨rest, rfl⟩ := hleading
  rw [List.append_assoc, List.foldlM_append]
  rcases foldlM_destroyWithin_or hbefore k with hsame | hsame
  · rw [hsame]
    rfl
  · rw [hsame, ok_bind, List.singleton_append, List.foldlM_cons, hendless]
    rfl

theorem DestroyReaches.endless (hb : DestroyReaches (g, id) (h, x))
    (hendless : destroyWithin true k h x = .error .endless) :
    destroyWithin true (k + 1) g id = .error .endless := by
  have hlive {n : Node} (hn : g.nodeAt? id = some n) : ¬(!g.contains id) = true := by
    rw [Bool.not_eq_true', Bool.not_eq_false, contains_iff, hn]
    rfl
  cases hb with
  | input hroot hn hinner hprivate hleading hbefore =>
    rw [destroyWithin, if_neg hroot, if_neg (hlive hn), hinner, ok_bind, node_eq_ok_iff.2 hn,
      ok_bind, if_pos rfl, hprivate,
      ok_bind, foldlM_endless hleading hbefore hendless]
    rfl
  | content hroot hn hinner hprivate hinputs hlisted hleading hbefore =>
    rw [destroyWithin, if_neg hroot, if_neg (hlive hn), hinner, ok_bind, node_eq_ok_iff.2 hn,
      ok_bind, if_pos rfl, hprivate,
      ok_bind]
    rcases foldlM_destroyWithin_or hinputs k with hsame | hsame
    · rw [hsame]
      rfl
    · rw [hsame, ok_bind, hlisted, ok_bind, foldlM_endless hleading hbefore hendless]
      rfl

theorem endless_of_transGen {p q : Graph × NodeId} (hpq : TransGen DestroyReaches p q)
    (hq : destroyWithin true k q.1 q.2 = .error .endless) : destroyWithin true (k + 1) p.1 p.2 = .error .endless := by
  induction hpq using TransGen.head_induction_on with
  | single hb => exact hb.endless hq
  | @head p r hb _ ih =>
    refine hb.endless ?_
    rcases destroyWithin_approximates (Nat.le_succ k) r.1 r.2 with hfew | hsame
    · exact hfew
    · exact hsame.trans ih

/-- A destruction that leads back to where it was never ends. -/
theorem endless_of_loop {p q : Graph × NodeId} (hpq : ReflTransGen DestroyReaches p q)
    (hloop : TransGen DestroyReaches q q) (k : Nat) :
    destroyWithin true k p.1 p.2 = .error .endless := by
  have hq (k : Nat) : destroyWithin true k q.1 q.2 = .error .endless := by
    induction k with
    | zero => rfl
    | succ k ih => exact endless_of_transGen hloop ih
  cases k with
  | zero => rfl
  | succ k => exact endless_of_transGen (TransGen.trans_right hpq hloop) (hq k)

/-- The node has no scopes. -/
def HasNoScopes (g : Graph) (x : NodeId) : Prop := ∀ n, g.nodeAt? x = some n → n.internalScope = none

theorem HasNoScopes.survivorsKept (hx : HasNoScopes g x) (hl : SurvivorsKept g h) : HasNoScopes h x := by
  intro m hm
  obtain ⟨n, hn, hskeleton⟩ := hl.node hm
  exact (Node.of_skeleton hskeleton).2.2.trans (hx n hn)

theorem Expression.hasNoScopes (hx : Expression g x) : HasNoScopes g x := by
  intro m hm
  obtain ⟨n, hn, hplain, -⟩ := hx
  cases hn.symm.trans hm
  exact hplain

theorem EditInvariant.foldlM_destroyWithin {ids : List NodeId} (ht : EditInvariant well g)
    (hids : well → ∀ x ∈ ids, HasNoScopes g x) (hdestroy : ids.foldlM (destroyWithin true k) g = .ok h) :
    EditInvariant well h ∧ Steps clear g h := by
  refine foldlM_induction (P := fun h => EditInvariant well h ∧ Steps clear g h) hdestroy ⟨ht, .refl⟩ ?_
  rintro h₁ x hx h₂ ⟨ht₁, hsteps⟩ hstep
  have hsteps₂ : Steps clear h₁ h₂ := destroyWithin_steps guards_clear ht₁.wellFormed.toLinksScopesValid hstep
  refine ⟨ht₁.steps hsteps₂ fun hw => ?_, hsteps.trans hsteps₂⟩
  exact (ht₁.consistent hw).destroyWithin ht₁.wellFormed.toLinksScopesValid ht₁.hasLayouts
    ((hids hw x hx).survivorsKept hsteps.survivorsKept) hstep

theorem DestroyReaches.editInvariant (hb : DestroyReaches (g, id) (h, x)) (ht : EditInvariant well g)
    (hp : well → HasNoScopes g id) :
    EditInvariant well h ∧ Steps clear g h ∧ (well → HasNoScopes h x) := by
  cases hb with
  | input hroot hn hinner hprivate hleading hbefore =>
    have hprivateInput {y : NodeId} := ht.wellFormed.linksMatch.mem_privateInputs_iff (x := y) hn hprivate
    have hplain {y : NodeId} (hy : y ∈ _) : HasNoScopes g y :=
      ((hprivateInput.1 (hleading.subset hy)).isExpression ht.hasLayouts ht.wellFormed.linksMatch).hasNoScopes
    obtain ⟨ht', hsteps⟩ := ht.foldlM_destroyWithin (fun _ y hy => hplain (List.mem_append_left _ hy)) hbefore
    exact ⟨ht', hsteps, fun _ => (hplain (List.mem_append_right _ List.mem_cons_self)).survivorsKept
      hsteps.survivorsKept⟩
  | content hroot hn hinner hprivate hinputs hlisted hleading hbefore =>
    have hprivateInput {y : NodeId} := ht.wellFormed.linksMatch.mem_privateInputs_iff (x := y) hn hprivate
    obtain ⟨ht₁, hsteps₁⟩ := ht.foldlM_destroyWithin
      (fun _ y hy => ((hprivateInput.1 hy).isExpression ht.hasLayouts ht.wellFormed.linksMatch).hasNoScopes) hinputs
    have hnone (hw : well) : False := by
      obtain rfl := (innerScopes_eq_nil_iff hinner hn).2 (hp hw _ hn)
      cases hlisted
      exact List.not_mem_nil (mem_of_leading hleading)
    obtain ⟨ht₂, hsteps₂⟩ := ht₁.foldlM_destroyWithin (fun hw => (hnone hw).elim) hbefore
    exact ⟨ht₂, hsteps₁.trans hsteps₂, fun hw => (hnone hw).elim⟩

theorem EditInvariant.privateInputs (ht : EditInvariant well g) (hn : g.nodeAt? id = some n) :
    Terminates well (g.privateInputs n) := by
  refine .filterM fun i hi => ?_
  obtain ⟨m, hm⟩ := node_of_inputs ht.wellFormed.linksMatch hn hi
  exact .bind (.of_ok (node_eq_ok_iff.2 hm)) fun _ _ => .pure _

theorem terminates_succ (ht : EditInvariant well g) (hp : well → HasNoScopes g id)
    (hnext : ∀ h x, DestroyReaches (g, id) (h, x) → Terminates well (destroyWithin true k h x)) :
    Terminates well (destroyWithin true (k + 1) g id) := by
  rw [destroyWithin]
  split
  next => exact .pure _
  next hroot =>
  split
  next => exact .pure _
  next hlive =>
  rw [Bool.not_eq_true', Bool.not_eq_false, contains_iff] at hlive
  obtain ⟨n, hn⟩ := Option.isSome_iff_exists.1 hlive
  refine .bind (ht.innerScopes hn) fun inner hinner => .bind (.of_ok (node_eq_ok_iff.2 hn)) fun n' hn' => ?_
  cases (node_eq_ok_iff.2 hn).symm.trans hn'
  have hnone (hw : well) : inner = [] := (innerScopes_eq_nil_iff hinner hn).2 (hp hw n hn)
  rw [if_pos rfl]
  refine .bind (ht.privateInputs hn) fun inputs hprivate => ?_
  have hprivateInput {x : NodeId} : x ∈ inputs ↔ PrivateInput g id x :=
    ht.wellFormed.linksMatch.mem_privateInputs_iff hn hprivate
  refine .bind (.foldlM_leading fun before x h hleading hbefore => ?_) fun g₁ hinputs => ?_
  · exact hnext h x (.input hroot hn hinner hprivate hleading hbefore)
  obtain ⟨ht₁, hsteps₁⟩ := ht.foldlM_destroyWithin
    (fun _ x hx => ((hprivateInput.1 hx).isExpression ht.hasLayouts ht.wellFormed.linksMatch).hasNoScopes) hinputs
  refine .bind (.mapM fun s hs => .bind (terminates_scope fun hw => ?_) fun _ _ => .pure _) fun content hlisted => ?_
  · rw [hnone hw] at hs
    cases hs
  refine .bind (.foldlM_leading fun before x h hleading hbefore => ?_) fun g₂ hcontent => ?_
  · exact hnext h x (.content hroot hn hinner hprivate hinputs hlisted hleading hbefore)
  have hempty (hw : well) : content.flatten = [] := by
    obtain rfl := hnone hw
    cases hlisted
    rfl
  obtain ⟨ht₂, hsteps₂⟩ := ht₁.foldlM_destroyWithin (fun hw x hx => by rw [hempty hw] at hx; cases hx) hcontent
  have hsteps : Steps clear g g₂ := hsteps₁.trans hsteps₂
  refine .bind (ht₂.remove (fun hw => ?_) fun m hm => ?_) fun g₃ hremove => ?_
  · rw [hempty hw] at hcontent
    cases hcontent
    obtain ⟨hinputsRemoved, hall⟩ :=
        (destroyAvoidsCircles k).inputsRemoved ht.wellFormed ht.hasLayouts (fun x => hprivateInput.1) hinputs
    refine Option.isSome_iff_exists.1 (Option.isSome_iff_ne_none.2 fun hgone => ?_)
    have hacc : Acc (fun b a => PrivateInput g a b) id := ⟨_, fun x hx => hall x (hprivateInput.2 hx)⟩
    exact not_rel_self_of_acc hacc.transGen (transGen_swap.1 (hinputsRemoved.of_gone hlive hgone))
  · exact ht₂.wellFormed.scopesOwned.innerScopes_of_survivorsKept hsteps.survivorsKept hinner hm
  have hremoved : Steps clear g g₃ := by
    refine hsteps.trans (remove_editSteps ht₂.wellFormed.toLinksScopesValid ?_ (fun m hm => ?_) hremove).steps
    · rw [hsteps.survivorsKept.root]
      exact hroot
    · exact ht₂.wellFormed.scopesOwned.innerScopes_of_survivorsKept hsteps.survivorsKept hinner hm
  have ht₃ : EditInvariant well g₃ := by
    refine ht.steps hremoved fun hw => ?_
    have hownsNoScope : OwnsNoScope g₂ id :=
      ht₂.wellFormed.scopesOwned.ownsNoScope ((hp hw).survivorsKept hsteps.survivorsKept)
    rw [hnone hw] at hremove
    exact (ht₂.consistent hw).remove hownsNoScope hremove
  exact ht₃.relink (bypassFlows_bypass ht.wellFormed.linksMatch hn hremoved.shapesKept)

theorem same_or_gone {ids : List NodeId} (hs : LinksScopesValid g)
    (hdestroy : ids.foldlM (destroyWithin true k) g = .ok h) :
    h = g ∨ ∃ y, (g.nodeAt? y).isSome ∧ h.nodeAt? y = none := by
  refine (foldlM_induction (P := fun h => Steps always g h ∧ (h = g ∨ ∃ y, (g.nodeAt? y).isSome ∧ h.nodeAt? y = none))
    hdestroy ⟨.refl, .inl rfl⟩ ?_).2
  rintro h₁ x - h₂ ⟨hsteps, hcases⟩ hstep
  by_cases hidle : x = h₁.root ∨ h₁.nodeAt? x = none
  · rw [destroyWithin_of_gone hidle hstep]
    exact ⟨hsteps, hcases⟩
  · obtain ⟨hroot, hlive⟩ := not_or.1 hidle
    have hs₁ := hs.steps hsteps
    refine ⟨hsteps.trans (destroyWithin_steps guards_always hs₁ hstep),
      .inr ⟨x, ?_, nodeAt?_destroyWithin hs₁ hroot hstep⟩⟩
    exact (Steps.survivorsKept hsteps).isSome (Option.isSome_iff_ne_none.2 hlive)

theorem DestroyReaches.same_or_gone (hb : DestroyReaches (g, id) (h, x)) (hs : LinksScopesValid g) :
    h = g ∨ ∃ y, (g.nodeAt? y).isSome ∧ h.nodeAt? y = none := by
  cases hb with
  | input hroot hn hinner hprivate hleading hbefore => exact Graph.same_or_gone hs hbefore
  | content hroot hn hinner hprivate hinputs hlisted hleading hbefore =>
    have hsteps₁ : Steps always g _ := (foldlM_destroyWithin_editSteps guards_always hs hinputs).steps
    have hs₁ := hs.steps hsteps₁
    have hsteps₂ : Steps always _ h := (foldlM_destroyWithin_editSteps guards_always hs₁ hbefore).steps
    rcases Graph.same_or_gone hs hinputs with rfl | ⟨y, hy, hgone⟩
    · exact Graph.same_or_gone hs hbefore
    · exact .inr ⟨y, hy, (Steps.survivorsKept hsteps₂).gone hgone⟩

theorem DestroyReaches.live (hb : DestroyReaches (g, id) (h, x)) : ∃ n, g.nodeAt? id = some n := by
  cases hb with
  | input _ hn => exact ⟨_, hn⟩
  | content _ hn => exact ⟨_, hn⟩

theorem length_lt_of_gone (hl : SurvivorsKept g h) (hy : (g.nodeAt? y).isSome) (hgone : h.nodeAt? y = none) :
    h.arena.length .node < g.arena.length .node := by
  have hlt : (y :: h.arena.handles .node).length < g.depthBound := by
    refine length_lt_depthBound (List.nodup_cons.2 ⟨fun hmem => ?_, Arena.nodup_handles _ _⟩) (List.forall_mem_cons.2
      ⟨Option.isSome_iff_exists.1 hy, fun x hx => ?_⟩)
    · obtain ⟨m, hm⟩ := Arena.exists_of_mem_handles hmem
      cases hgone.symm.trans hm
    · obtain ⟨m, hm⟩ := Arena.exists_of_mem_handles hx
      exact Option.isSome_iff_exists.1 (hl.isSome (Option.isSome_of_mem hm))
  rw [List.length_cons, Arena.handles, List.length_map] at hlt
  exact Nat.lt_of_succ_lt_succ hlt

/-- The nodes that a destruction is busy with, since something was removed, are different from one another. The next one
is new, or there are fewer of them. -/
theorem terminates_of_not_loop (ht : EditInvariant well g) (hp : well → HasNoScopes g id)
    (hloop : ∀ p, ReflTransGen DestroyReaches (g, id) p → ¬TransGen DestroyReaches p p) (above : List NodeId)
    (hnodup : above.Nodup) (hlive : AllLive g above) (habove : ∀ a ∈ above, TransGen DestroyReaches (g, a) (g, id))
    (hk : g.arena.length .node * g.arena.length .node + g.arena.length .node < k + above.length) :
    Terminates well (destroyWithin true k g id) := by
  induction k generalizing g id above with
  | zero =>
    have hfew : above.length < g.arena.length .node + 1 := length_lt_depthBound hnodup hlive
    generalize g.arena.length .node * g.arena.length .node = m at hk
    omega
  | succ k ih =>
    refine terminates_succ ht hp fun h x hb => ?_
    obtain ⟨ht', hsteps, hp'⟩ := hb.editInvariant ht hp
    have hloop' (p : Graph × NodeId) (hreach : ReflTransGen DestroyReaches (h, x) p) : ¬TransGen DestroyReaches p p :=
      hloop p (.head hb hreach)
    have hnew : (id :: above).Nodup := List.nodup_cons.2 ⟨fun hmem => hloop _ .refl (habove id hmem), hnodup⟩
    have hlive' : AllLive g (id :: above) := List.forall_mem_cons.2 ⟨hb.live, hlive⟩
    rcases hb.same_or_gone ht.wellFormed.toLinksScopesValid with rfl | ⟨y, hy, hgone⟩
    · refine ih ht' hp' hloop' (id :: above) hnew hlive'
        (List.forall_mem_cons.2 ⟨.single hb, fun a ha => (habove a ha).tail hb⟩) ?_
      rw [List.length_cons]
      omega
    · refine ih ht' hp' hloop' [] List.nodup_nil (fun _ hx => (List.not_mem_nil hx).elim)
        (fun _ hx => (List.not_mem_nil hx).elim) ?_
      have hfew : (id :: above).length < g.arena.length .node + 1 := length_lt_depthBound hnew hlive'
      have hlt := length_lt_of_gone (Steps.survivorsKept hsteps) hy hgone
      have hsquare : h.arena.length .node * (h.arena.length .node + 1) ≤ g.arena.length .node * g.arena.length .node :=
        Nat.mul_le_mul (Nat.le_of_lt hlt) hlt
      rw [Nat.mul_add_one] at hsquare
      rw [List.length_cons] at hfew
      rw [List.length_nil]
      omega

theorem length_le_live (g : Graph) : g.arena.length .node ≤ g.arena.live := by
  have hsub : (g.arena.handles .node).map Handle.raw ⊆ g.arena.records.keys := by
    intro i hi
    obtain ⟨x, hx, rfl⟩ := List.mem_map.1 hi
    obtain ⟨n, hn⟩ := Arena.exists_of_mem_handles hx
    obtain ⟨r, hr, -⟩ := Option.bind_eq_some_iff.1 (Arena.item?_eq_some_iff.1 hn)
    rw [Std.ExtTreeMap.mem_keys, Std.ExtTreeMap.mem_iff_isSome_getElem?, hr]
    rfl
  have hnodup : ((g.arena.handles .node).map Handle.raw).Nodup :=
    (Arena.nodup_handles _ _).map fun _ _ hraw => Handle.ext hraw
  have hle := (hnodup.subperm hsub).length_le
  rwa [List.length_map, Arena.handles, List.length_map, Std.ExtTreeMap.length_keys] at hle

theorem terminates_destroy (ht : EditInvariant well g) (hp : well → HasNoScopes g id)
    (hloop : ∀ p, ReflTransGen DestroyReaches (g, id) p → ¬TransGen DestroyReaches p p) :
    Terminates well (g.destroy id true) := by
  refine terminates_of_not_loop ht hp hloop [] List.nodup_nil (fun _ hx => (List.not_mem_nil hx).elim)
    (fun _ hx => (List.not_mem_nil hx).elim) ?_
  have hle := length_le_live g
  have hsquare : (g.arena.length .node + 1) * (g.arena.length .node + 1) ≤ g.destroyBound :=
    Nat.mul_le_mul (Nat.succ_le_succ hle) (Nat.succ_le_succ hle)
  rw [Nat.add_one_mul, Nat.mul_add_one] at hsquare
  rw [List.length_nil]
  omega

theorem DestroyReaches.privateInput_or_inside (hb : DestroyReaches (g, id) (g, x)) (hs : WellFormed g) :
    PrivateInput g id x ∨ Inside g id x := by
  cases hb with
  | input hroot hn hinner hprivate hleading hbefore =>
    exact .inl ((hs.linksMatch.mem_privateInputs_iff hn hprivate).1 (mem_of_leading hleading))
  | content hroot hn hinner hprivate hinputs hlisted hleading hbefore =>
    have hsteps₁ : Steps always g _ :=
      (foldlM_destroyWithin_editSteps guards_always hs.toLinksScopesValid hinputs).steps
    have hsteps₂ : Steps always _ g :=
      (foldlM_destroyWithin_editSteps guards_always (hs.toLinksScopesValid.steps hsteps₁) hbefore).steps
    rcases Graph.same_or_gone hs.toLinksScopesValid hinputs with rfl | ⟨y, hy, hgone⟩
    · exact .inr (((mem_content_iff hs.toRecordsValid hinner hlisted).1 (mem_of_leading hleading)).inside)
    · rw [(Steps.survivorsKept hsteps₂).gone hgone] at hy
      cases hy

theorem ParentsWellFounded.not_inside_self (hl : ParentsWellFounded g) (ho : ScopesOwned g) : ¬Inside g x x := by
  rintro ⟨s, hs, hsurrounds⟩
  obtain ⟨n, hn, hscope⟩ := homeAt?_eq_some_iff.1 hs
  have habove {t : ScopeId} (ht : Surrounds g x t) : TransGen (fun u t => g.parentScope? t = .ok (some u)) s t := by
    induction ht with
    | up hparent _ ih => exact ih.tail hparent
    | @here t sc hsc howner =>
      rw [scope_eq_ok_iff] at hsc
      subst howner
      cases hkind : sc.kind with
      | internal => exact .single (parentScope?_eq_ok_iff.2 ⟨sc, hsc, .inr ⟨hkind, n, hn, hscope.symm⟩⟩)
      | partition u i =>
        obtain ⟨su, hsu, howner, hinternal⟩ := ho.whole_of_part hsc hkind
        refine .tail (.single ?_) (parentScope?_eq_ok_iff.2 ⟨sc, hsc, .inl ⟨u, i, hkind, rfl⟩⟩)
        exact parentScope?_eq_ok_iff.2 ⟨su, hsu, .inr ⟨hinternal, n, howner ▸ hn, hscope.symm⟩⟩
  exact not_rel_self_of_acc (hl.apply s).transGen (habove hsurrounds)

theorem EditInvariant.of_destroyReaches {p q : Graph × NodeId} (hpq : ReflTransGen DestroyReaches p q)
    (ht : EditInvariant well p.1) (hp : well → HasNoScopes p.1 p.2) :
    EditInvariant well q.1 ∧ Steps clear p.1 q.1 ∧ (well → HasNoScopes q.1 q.2) := by
  induction hpq with
  | refl => exact ⟨ht, .refl, hp⟩
  | tail _ hb ih =>
    obtain ⟨ht₁, hsteps₁, hp₁⟩ := ih
    obtain ⟨ht₂, hsteps₂, hp₂⟩ := hb.editInvariant ht₁ hp₁
    exact ⟨ht₂, hsteps₁.trans hsteps₂, hp₂⟩

theorem DestroyReaches.privateInput_or_inside_or_less {p q : Graph × NodeId} (hb : DestroyReaches p q)
    (ht : EditInvariant False p.1) :
    q.1 = p.1 ∧ (PrivateInput p.1 p.2 q.2 ∨ Inside p.1 p.2 q.2) ∨ q.1.arena.length .node < p.1.arena.length .node := by
  obtain ⟨g, id⟩ := p
  obtain ⟨h, x⟩ := q
  obtain ⟨-, hsteps, -⟩ := hb.editInvariant ht False.elim
  rcases hb.same_or_gone ht.wellFormed.toLinksScopesValid with rfl | ⟨y, hy, hgone⟩
  · exact .inl ⟨rfl, hb.privateInput_or_inside ht.wellFormed⟩
  · exact .inr (length_lt_of_gone (Steps.survivorsKept hsteps) hy hgone)

theorem privateInput_or_inside {p q : Graph × NodeId} (hpq : TransGen DestroyReaches p q)
    (ht : EditInvariant False p.1) :
    q.1 = p.1 ∧ (TransGen (PrivateInput p.1) p.2 q.2 ∨ Inside p.1 p.2 q.2) ∨
    q.1.arena.length .node < p.1.arena.length .node := by
  induction hpq with
  | single hb => exact (hb.privateInput_or_inside_or_less ht).imp_left (And.imp_right (Or.imp_left .single))
  | @tail b c hpb hbc ih =>
    obtain ⟨htb, -, -⟩ := EditInvariant.of_destroyReaches hpb.to_reflTransGen ht False.elim
    rcases ih with ⟨hsame, hway⟩ | hless
    · rcases hbc.privateInput_or_inside_or_less htb with ⟨hsame', hstep⟩ | hless
      · rw [hsame] at hsame' hstep
        refine .inl ⟨hsame', ?_⟩
        rcases hway with hchain | hinside
        · rcases hstep with hprivateInput | hinside
          · exact .inl (hchain.tail hprivateInput)
          · obtain ⟨a, -, hprivateInput⟩ := TransGen.tail'_iff.1 hchain
            obtain ⟨m, hm, hplain, -⟩ := hprivateInput.isExpression ht.hasLayouts ht.wellFormed.linksMatch
            exact (ht.wellFormed.scopesOwned.not_inside hm hplain hinside).elim
        · rcases hstep with hprivateInput | hinner
          · obtain ⟨s, hs, hsurrounds⟩ := hinside
            exact .inr ⟨s, hprivateInput.home.trans hs, hsurrounds⟩
          · exact .inr (hinside.trans ht.wellFormed.scopesOwned hinner)
      · exact .inr (hsame ▸ hless)
    · rcases hbc.privateInput_or_inside_or_less htb with ⟨hsame', -⟩ | hless'
      · exact .inr (hsame' ▸ hless)
      · exact .inr (Nat.lt_trans hless' hless)

theorem circle_of_loop {p : Graph × NodeId} (hp : TransGen DestroyReaches p p) (ht : EditInvariant False p.1) :
    TransGen (PrivateInput p.1) p.2 p.2 := by
  rcases privateInput_or_inside hp ht with ⟨-, hchain | hinside⟩ | hless
  · exact hchain
  · exact (ht.parentsWellFounded.not_inside_self ht.wellFormed.scopesOwned hinside).elim
  · exact (Nat.lt_irrefl _ hless).elim

/-- From a node without scopes, all that is come to serves it, and served it before. -/
theorem privateInput_of_destroyReaches {p q : Graph × NodeId} (hpq : ReflTransGen DestroyReaches p q)
    (hs : WellFormed p.1) (hl : HasLayouts p.1) (hp : HasNoScopes p.1 p.2) :
    ReflTransGen (PrivateInput p.1) p.2 q.2 ∧ ∀ a b, PrivateInput q.1 a b → PrivateInput p.1 a b := by
  induction hpq using ReflTransGen.head_induction_on with
  | refl => exact ⟨.refl, fun _ _ hab => hab⟩
  | @head p r hb _ ih =>
    obtain ⟨g, id⟩ := p
    obtain ⟨h, x⟩ := r
    cases hb with
    | input hroot hn hinner hprivate hleading hbefore =>
      have hprivateInput {y : NodeId} (hy : y ∈ _) : PrivateInput g id y :=
        (hs.linksMatch.mem_privateInputs_iff hn hprivate).1 (hleading.subset hy)
      have hx := hprivateInput (List.mem_append_right _ List.mem_cons_self)
      obtain ⟨hinputsRemoved, -⟩ :=
          (destroyAvoidsCircles _).inputsRemoved hs hl (fun y hy => hprivateInput (List.mem_append_left _ hy)) hbefore
      have hs' := hs.steps hinputsRemoved.steps
      have hback (a b : NodeId) (hab : PrivateInput h a b) : PrivateInput g a b := by
        obtain ⟨ha, hb⟩ := hab.live hs'.linksMatch
        exact (hinputsRemoved.toOnlyRemoves.privateInput_iff hs.linksMatch hs'.linksMatch
          hinputsRemoved.flow hb ha).1 hab
      obtain ⟨hchain, hkept⟩ := ih hs' (hl.steps hinputsRemoved.steps)
        ((hx.isExpression hl hs.linksMatch).hasNoScopes.survivorsKept hinputsRemoved.toSurvivorsKept)
      exact ⟨.head hx (ReflTransGen.mono hback _ _ hchain), fun a b hab => hback a b (hkept a b hab)⟩
    | content hroot hn hinner hprivate hinputs hlisted hleading hbefore =>
      obtain rfl := (innerScopes_eq_nil_iff hinner hn).2 (hp _ hn)
      cases hlisted
      exact (List.not_mem_nil (mem_of_leading hleading)).elim

theorem exists_of_foldlM_destroyWithin {before as : List NodeId} {k' : Nat} {u : Graph}
    (hleading : before ++ [x] <+: as) (hbefore : before.foldlM (destroyWithin true k') g = .ok h)
    (hdestroy : as.foldlM (destroyWithin true k) g = .ok u) :
    ∃ v, destroyWithin true k h x = .ok v := by
  obtain ⟨t, v, ht, hv⟩ := exists_of_leading hleading hdestroy
  rcases foldlM_destroyWithin_or hbefore k with hfew | hsame
  · cases ht.symm.trans hfew
  · cases ht.symm.trans hsame
    exact ⟨v, hv⟩

theorem DestroyReaches.exists_ok {g' : Graph} (hb : DestroyReaches (g, id) (h, x)) (hs : LinksScopesValid g)
    (hdestroy : destroyWithin true k g id = .ok g') : ∃ k v, destroyWithin true k h x = .ok v := by
  cases k with
  | zero => cases hdestroy
  | succ k =>
    obtain ⟨heither, -⟩ | ⟨n, inner, inputs, content, g₁, g₂, g₃, -, hn, hinner, ⟨hprivate, hinputs, -⟩,
      ⟨hlisted, hcontent, -⟩, -⟩ := destroyWithin_deep guards_always hs hdestroy
    · cases hb with
      | input hroot hn => exact (heither.elim hroot fun hnone => by cases hn.symm.trans hnone).elim
      | content hroot hn => exact (heither.elim hroot fun hnone => by cases hn.symm.trans hnone).elim
    · cases hb with
      | input _ hn' _ hprivate' hleading hbefore =>
        cases hn.symm.trans hn'
        cases hprivate.symm.trans hprivate'
        exact ⟨k, exists_of_foldlM_destroyWithin hleading hbefore hinputs⟩
      | content _ hn' hinner' hprivate' hinputs' hlisted' hleading hbefore =>
        cases hn.symm.trans hn'
        cases hprivate.symm.trans hprivate'
        cases hinner.symm.trans hinner'
        rcases foldlM_destroyWithin_or hinputs' k with hfew | hsame
        · cases hinputs.symm.trans hfew
        cases hinputs.symm.trans hsame
        cases hlisted.symm.trans hlisted'
        exact ⟨k, exists_of_foldlM_destroyWithin hleading hbefore hcontent⟩

/-- No node of a circle is ever destroyed, nor is anything that comes to one. -/
theorem not_destroyed_of_circle {p q : Graph × NodeId} {g' : Graph} (hpq : ReflTransGen DestroyReaches p q)
    (ht : EditInvariant False p.1) (hcircle : TransGen (PrivateInput q.1) q.2 q.2) :
    destroyWithin true k p.1 p.2 ≠ .ok g' := by
  induction hpq using ReflTransGen.head_induction_on generalizing k g' with
  | refl =>
    intro hdestroy
    obtain ⟨a, -, hprivateInput⟩ := TransGen.tail'_iff.1 hcircle
    have hexpression := hprivateInput.isExpression ht.hasLayouts ht.wellFormed.linksMatch
    have hacc := destroyAvoidsCircles k ht.wellFormed ht.hasLayouts (hexpression.ne_root ht.wellFormed.rootIsEntryPoint)
        (hprivateInput.live ht.wellFormed.linksMatch).2 hdestroy
    exact not_rel_self_of_acc hacc.transGen (transGen_swap.1 hcircle)
  | head hb _ ih =>
    intro hdestroy
    obtain ⟨k', v, hv⟩ := hb.exists_ok ht.wellFormed.toLinksScopesValid hdestroy
    exact ih (hb.editInvariant ht False.elim).1 hv

/-- The first node reads the second one, which is no variable. -/
def ReadsExpression (g : Graph) (a b : NodeId) : Prop :=
  (∃ l ∈ g.valueLinks, l.tail.node = b ∧ l.head.node = a) ∧ ∃ n, g.nodeAt? b = some n ∧ n.isVariable = false

theorem PrivateInput.readsExpression (hxy : PrivateInput g x y) : ReadsExpression g x y := by
  obtain ⟨n, hn, hvariable, -⟩ := hxy.expression
  exact ⟨hxy.link, n, node_eq_ok_iff.1 hn, hvariable⟩

theorem ReadsExpression.of_linksOfSurvivors (hxy : ReadsExpression h x y)
    (hlinksOfSurvivors : LinksOfSurvivors .value g h) (hl : SurvivorsKept g h) : ReadsExpression g x y := by
  obtain ⟨⟨l, hlink, hjoins⟩, n', hn', hvariable⟩ := hxy
  obtain ⟨n, hn, hskeleton⟩ := hl.node hn'
  refine ⟨⟨l, ((hlinksOfSurvivors l).1 hlink).1, hjoins⟩, n, hn, ?_⟩
  rwa [Node.isVariable, ← (Node.of_skeleton hskeleton).1]

theorem linksOfSurvivors_foldlM_destroyWithin {ids : List NodeId} (hs : LinksScopesValid g)
    (hdestroy : ids.foldlM (destroyWithin true k) g = .ok h) :
    LinksOfSurvivors .value g h := by
  refine (foldlM_induction (P := fun h => Steps always g h ∧ LinksOfSurvivors .value g h) hdestroy ⟨.refl,
    hs.linksMatch.linksOfSurvivors .value⟩ ?_).2
  rintro h₁ x - h₂ ⟨hsteps, hlinksOfSurvivors⟩ hstep
  have hrest : Steps always h₁ h₂ := destroyWithin_steps guards_always (hs.steps hsteps) hstep
  exact ⟨hsteps.trans hrest, hlinksOfSurvivors.trans (linksOfSurvivors_destroyWithin (hs.steps hsteps) hstep)
    hrest.survivorsKept⟩

theorem DestroyReaches.linksOfSurvivors (hb : DestroyReaches (g, id) (h, x)) (hs : LinksScopesValid g) :
    LinksOfSurvivors .value g h := by
  cases hb with
  | input _ _ _ _ _ hbefore => exact linksOfSurvivors_foldlM_destroyWithin hs hbefore
  | content _ _ _ _ hinputs _ _ hbefore =>
    have hs₁ : LinksScopesValid _ := hs.steps (foldlM_destroyWithin_editSteps guards_always hs hinputs).steps
    have hsteps : Steps always _ h := (foldlM_destroyWithin_editSteps guards_always hs₁ hbefore).steps
    exact (linksOfSurvivors_foldlM_destroyWithin hs hinputs).trans (linksOfSurvivors_foldlM_destroyWithin hs₁ hbefore)
      hsteps.survivorsKept

theorem readsExpression_of_destroyReaches {p q : Graph × NodeId} (hpq : ReflTransGen DestroyReaches p q)
    (ht : EditInvariant False p.1) {a b : NodeId} (hab : ReadsExpression q.1 a b) : ReadsExpression p.1 a b := by
  induction hpq using ReflTransGen.head_induction_on with
  | refl => exact hab
  | head hb _ ih =>
    obtain ⟨ht', hsteps, -⟩ := hb.editInvariant ht False.elim
    exact (ih ht').of_linksOfSurvivors (hb.linksOfSurvivors ht.wellFormed.toLinksScopesValid)
      (Steps.survivorsKept hsteps)

/-- Destroying the node comes to another one, or to itself, for a second time, with nothing removed in between. -/
def DestroyRecurs (g : Graph) (id : NodeId) : Prop :=
  ∃ p, ReflTransGen DestroyReaches (g, id) p ∧ TransGen DestroyReaches p p

/-- Some private input of the node, or of one of those, is its own, if only through others. -/
def ReachesInputCircle (g : Graph) (id : NodeId) : Prop :=
  ∃ x, ReflTransGen (PrivateInput g) id x ∧ TransGen (PrivateInput g) x x

theorem HasNoScopes.ne_root (hr : RootFinitelyNested g) (hplain : HasNoScopes g id) : id ≠ g.root := by
  rintro rfl
  obtain ⟨s, hs, -⟩ := hr.root
  obtain ⟨n, hn, hinternal⟩ := rootScope_eq_ok_iff.1 hs
  cases (hplain n hn).symm.trans hinternal

theorem not_reachesInputCircle {g' : Graph} (ht : EditInvariant well g) (hplain : HasNoScopes g id)
    (hdestroy : destroyWithin true k g id = .ok g') :
    ¬ReachesInputCircle g id := by
  rintro ⟨x, hreach, hcircle⟩
  have hlive : (g.nodeAt? id).isSome := by
    rcases ReflTransGen.cases_head hreach with rfl | ⟨y, hprivateInput, -⟩
    · obtain ⟨y, hprivateInput, -⟩ := TransGen.head'_iff.1 hcircle
      exact (hprivateInput.live ht.wellFormed.linksMatch).1
    · exact (hprivateInput.live ht.wellFormed.linksMatch).1
  have hacc := destroyAvoidsCircles k ht.wellFormed ht.hasLayouts (hplain.ne_root ht.rootFinitelyNested) hlive hdestroy
  have hall : Acc (fun b a => PrivateInput g a b) x := by
    clear hcircle
    induction hreach with
    | refl => exact hacc
    | tail _ hprivateInput ih => exact ih.inv hprivateInput
  exact not_rel_self_of_acc hall.transGen (transGen_swap.1 hcircle)

/-- A raw destruction ends. One with side effects ends as well unless it comes back to a node with nothing removed in
between, and it does so only where expressions that it has come to serve each other in a circle. For a node without
scopes these are the expressions that serve the node at the beginning. -/
theorem destroy_ends_iff (hr : Reachable g) (hg : Consistent g) (id : NodeId) :
    (∃ g', g.destroy id false = .ok g') ∧
    (g.destroy id true ≠ .error .endless ↔ ¬DestroyRecurs g id) ∧
    (DestroyRecurs g id → (∀ k, destroyWithin true k g id = .error .endless) ∧ (∃ x, TransGen (ReadsExpression g) x x) ∧
      ∃ p, ReflTransGen DestroyReaches (g, id) p ∧ TransGen (PrivateInput p.1) p.2 p.2) ∧
    (∀ p, ReflTransGen DestroyReaches (g, id) p → TransGen (PrivateInput p.1) p.2 p.2 →
      ∀ k g', destroyWithin true k g id ≠ .ok g') ∧
    (HasNoScopes g id → ((∃ g', g.destroy id true = .ok g') ↔ ¬ReachesInputCircle g id)) := by
  have h := hr.editInvariant hg
  have hweak : EditInvariant False g := h.weaken False.elim
  have hcircle {p : Graph × NodeId} (hp : ReflTransGen DestroyReaches (g, id) p) (hloop : TransGen DestroyReaches p p) :
      TransGen (PrivateInput p.1) p.2 p.2 := circle_of_loop hloop (hweak.of_destroyReaches hp False.elim).1
  refine ⟨h.destroy_raw id, ⟨?_, fun hnot => ?_⟩, ?_, fun p hp hpcircle k g' => ?_, fun hplain => ⟨?_, fun hnot => ?_⟩⟩
  · rintro hends ⟨p, hp, hloop⟩
    exact hends (endless_of_loop hp hloop _)
  · exact (terminates_destroy hweak False.elim fun p hp hloop => hnot ⟨p, hp, hloop⟩).ne_endless
  · rintro ⟨p, hp, hloop⟩
    refine ⟨endless_of_loop hp hloop, ⟨p.2, ?_⟩, p, hp, hcircle hp hloop⟩
    exact TransGen.mono (fun _ _ hab => readsExpression_of_destroyReaches hp hweak (PrivateInput.readsExpression hab)) _
      _ (hcircle hp hloop)
  · exact not_destroyed_of_circle hp hweak hpcircle
  · rintro ⟨g', hdestroy⟩
    exact not_reachesInputCircle h hplain hdestroy
  · refine (terminates_destroy h (fun _ => hplain) fun p hp hloop => hnot ?_).exists_ok
    obtain ⟨hreach, hback⟩ := privateInput_of_destroyReaches hp h.wellFormed h.hasLayouts hplain
    exact ⟨p.2, hreach, TransGen.mono hback _ _ (hcircle hp hloop)⟩

def ring : Except Fault Graph := do
  let sum : Signature := ⟨"+", .int, [{ type := .int }, { type := .int }]⟩
  let g ← create {} {} .standard {}
  [.operator sum ⟨2⟩, .operator sum ⟨2⟩, .connect ⟨⟨4⟩, ⟨2⟩⟩ ⟨⟨3⟩, ⟨3⟩⟩ true,
    .connect ⟨⟨3⟩, ⟨2⟩⟩ ⟨⟨4⟩, ⟨3⟩⟩ true].foldlM perform g

theorem consistent_ring (h : ring = .ok g) : Reachable g ∧ Consistent g := by
  obtain ⟨g₀, hcreate, h⟩ := bind_eq_ok.1 h
  exact consistent_foldlM h (.create hcreate) (consistent_create hcreate) (by simp [Edit.destroys, Edit.block?])

theorem destroyReaches_ring :
    ∃ g n, ring = .ok g ∧ g.node ⟨3⟩ = .ok n ∧ DestroyReaches (g, ⟨3⟩) (g, ⟨4⟩) ∧ DestroyReaches (g, ⟨4⟩) (g, ⟨3⟩) := by
  obtain ⟨u, h⟩ := exists_of_isOk (x := do
    let g ← ring
    let n ← g.node ⟨3⟩
    let inner ← g.innerScopes ⟨3⟩
    let inputs ← g.privateInputs n
    let m ← g.node ⟨4⟩
    let inner' ← g.innerScopes ⟨4⟩
    let inputs' ← g.privateInputs m
    if ¬(⟨3⟩ ≠ g.root ∧ ⟨4⟩ ≠ g.root ∧ inputs = [⟨4⟩] ∧ inputs' = [⟨3⟩]) then throw .endless) (by decide +kernel)
  simp only [bind_eq_ok, node_eq_ok_iff] at h
  obtain ⟨g, hring, n, hn, inner, hinner, inputs, hinputs, m, hm, inner', hinner', inputs', hinputs', h⟩ := h
  split at h
  next => cases h
  next hfacts =>
    obtain ⟨hroot, hroot', rfl, rfl⟩ := not_not.1 hfacts
    refine ⟨g, n, hring, node_eq_ok_iff.2 hn, ?_, ?_⟩
    · exact @DestroyReaches.input 0 _ _ _ _ _ _ _ [] hroot hn hinner hinputs (List.prefix_refl _) rfl
    · exact @DestroyReaches.input 0 _ _ _ _ _ _ _ [] hroot' hm hinner' hinputs' (List.prefix_refl _) rfl

theorem destroy_ring : ∃ g n, Reachable g ∧ Consistent g ∧ g.node ⟨3⟩ = .ok n ∧ (∃ g', g.destroy ⟨3⟩ false = .ok g') ∧
    g.destroy ⟨3⟩ true = .error .endless := by
  obtain ⟨g, n, hring, hn, hthere, hback⟩ := destroyReaches_ring
  obtain ⟨hr, hg⟩ := consistent_ring hring
  obtain ⟨hraw, -, hloops, -⟩ := destroy_ends_iff hr hg ⟨3⟩
  exact ⟨g, n, hr, hg, hn, hraw, (hloops ⟨(g, ⟨3⟩), .refl, .tail (.single hthere) hback⟩).1 _⟩

/-- The destruction of a sum whose operands are in a circle does not end, and more levels do not help. -/
theorem not_destroyed_ring : ∃ g n, Reachable g ∧ Consistent g ∧ g.node ⟨3⟩ = .ok n ∧
    ∀ k, destroyWithin true k g ⟨3⟩ = .error .endless := by
  obtain ⟨g, n, hring, hn, hthere, hback⟩ := destroyReaches_ring
  obtain ⟨hr, hg⟩ := consistent_ring hring
  exact ⟨g, n, hr, hg, hn, endless_of_loop .refl (.tail (.single hthere) hback)⟩

end Graph

end FlowGraph
