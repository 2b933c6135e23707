import FlowGraph.Proofs.Sight

/-!
# Walks that terminate

Where scopes nest, every walk up or down comes to an end, and what an edit reads on its way is there. The scope of a
node is the exception: a destruction under way may have taken it. So that a computation terminates says two things at
once. In a graph whose scopes and nodes agree it gives a result, and elsewhere it may fail, but not for want of an end.
-/

namespace FlowGraph

theorem of_mem_filterMapM {ε α β : Type} {f : α → Except ε (Option β)} {as : List α} {bs : List β}
    (h : as.filterMapM f = .ok bs) {b : β} (hb : b ∈ bs) : ∃ a ∈ as, f a = .ok (some b) := by
  suffices hloop : ∀ acc, List.filterMapM.loop f as acc = .ok bs → b ∈ acc ∨ ∃ a ∈ as, f a = .ok (some b) from
    (hloop [] h).resolve_left List.not_mem_nil
  clear h
  induction as with
  | nil =>
    intro acc h
    obtain rfl : acc.reverse = bs := pure_eq_ok.1 h
    exact .inl (List.mem_reverse.1 hb)
  | cons a as ih =>
    intro acc h
    simp only [List.filterMapM.loop, bind_eq_ok] at h
    obtain ⟨found, hfound, h⟩ := h
    have hlater (h : ∃ a ∈ as, f a = .ok (some b)) : ∃ a' ∈ a :: as, f a' = .ok (some b) := by
      obtain ⟨a', ha', hf⟩ := h
      exact ⟨a', List.mem_cons_of_mem _ ha', hf⟩
    cases found with
    | none => exact (ih acc h).imp_right hlater
    | some c =>
      rcases ih (c :: acc) h with hacc | hrest
      · rcases List.mem_cons.1 hacc with rfl | hacc
        · exact .inr ⟨a, List.mem_cons_self, hfound⟩
        · exact .inl hacc
      · exact .inr (hlater hrest)

def Terminates {α : Type} (well : Prop) (x : Except Fault α) : Prop := ∀ e, x = .error e → ¬well ∧ e ≠ .endless

namespace Terminates

section

variable {α β σ : Type} {well : Prop} {x : Except Fault α}

theorem of_ok {a : α} (h : x = .ok a) : Terminates well x := by
  rintro e he
  cases h.symm.trans he

theorem pure (a : α) : Terminates well (Pure.pure a : Except Fault α) := of_ok rfl

theorem exists_ok (h : Terminates True x) : ∃ a, x = .ok a := by
  cases x with
  | error e => exact ((h e rfl).1 trivial).elim
  | ok a => exact ⟨a, rfl⟩

theorem ne_endless (h : Terminates well x) : x ≠ .error .endless := fun he => (h _ he).2 rfl

theorem bind {f : α → Except Fault β} (hx : Terminates well x) (hf : ∀ a, x = .ok a → Terminates well (f a)) :
    Terminates well (x >>= f) := by
  cases x with
  | error e =>
    rintro e' he
    cases he
    exact hx e rfl
  | ok a => exact hf a rfl

theorem mapM {f : α → Except Fault β} {as : List α} (h : ∀ a ∈ as, Terminates well (f a)) :
    Terminates well (as.mapM f) := by
  induction as with
  | nil => exact .pure _
  | cons a as ih =>
    rw [List.mapM_cons]
    refine .bind (h a List.mem_cons_self) fun b _ => .bind (ih fun a ha => h a (List.mem_cons_of_mem _ ha))
      fun bs _ => .pure _

theorem findM? {p : α → Except Fault Bool} {as : List α} (h : ∀ a ∈ as, Terminates well (p a)) :
    Terminates well (as.findM? p) := by
  induction as with
  | nil => exact .pure _
  | cons a as ih =>
    refine .bind (h a List.mem_cons_self) fun b _ => ?_
    cases b with
    | true => exact .pure _
    | false => exact ih fun a ha => h a (List.mem_cons_of_mem _ ha)

theorem filterM {p : α → Except Fault Bool} {as : List α} (h : ∀ a ∈ as, Terminates well (p a)) :
    Terminates well (as.filterM p) := by
  suffices haux : ∀ acc, Terminates well (as.filterAuxM p acc) from .bind (haux []) fun _ _ => .pure _
  induction as with
  | nil => exact fun acc => .pure _
  | cons a as ih =>
    intro acc
    rw [List.filterAuxM]
    exact .bind (h a List.mem_cons_self) fun _ _ => ih (fun a ha => h a (List.mem_cons_of_mem _ ha)) _

theorem filterMapM {f : α → Except Fault (Option β)} {as : List α} (h : ∀ a ∈ as, Terminates well (f a)) :
    Terminates well (as.filterMapM f) := by
  suffices hloop : ∀ acc, Terminates well (List.filterMapM.loop f as acc) from hloop []
  induction as with
  | nil => exact fun acc => .pure _
  | cons a as ih =>
    intro acc
    rw [List.filterMapM.loop]
    refine .bind (h a List.mem_cons_self) fun found _ => ?_
    cases found with
    | none => exact ih (fun a ha => h a (List.mem_cons_of_mem _ ha)) _
    | some b => exact ih (fun a ha => h a (List.mem_cons_of_mem _ ha)) _

theorem foldlM {P : σ → Prop} {f : σ → α → Except Fault σ} {as : List α} {s : σ} (start : P s)
    (step : ∀ s, ∀ a ∈ as, P s → Terminates well (f s a) ∧ ∀ t, f s a = .ok t → P t) :
    Terminates well (as.foldlM f s) := by
  induction as generalizing s with
  | nil => exact .pure _
  | cons a as ih =>
    rw [List.foldlM_cons]
    obtain ⟨hstep, hnext⟩ := step s a List.mem_cons_self start
    exact .bind hstep fun t ht => ih (hnext t ht) fun s a ha => step s a (List.mem_cons_of_mem _ ha)

end

end Terminates

namespace Graph

variable {g g' : Graph} {well : Prop} {id x : NodeId} {s t : ScopeId} {n : Node}

theorem terminates_node? (h : well → ∃ n, g.nodeAt? id = some n) : Terminates well (g.node? id) := by
  intro e he
  rw [node?] at he
  split at he
  next => cases he
  next e' hget =>
    cases he
    refine ⟨fun hw => ?_, by rintro ⟨⟩⟩
    obtain ⟨n, hn⟩ := h hw
    cases hget.symm.trans (Arena.get_eq_some_iff.2 hn)

theorem terminates_scope? (h : well → ∃ sc, g.scopeAt? s = some sc) : Terminates well (g.scope? s) := by
  intro e he
  rw [scope?] at he
  split at he
  next => cases he
  next e' hget =>
    cases he
    refine ⟨fun hw => ?_, by rintro ⟨⟩⟩
    obtain ⟨sc, hsc⟩ := h hw
    cases hget.symm.trans (Arena.get_eq_some_iff.2 hsc)

theorem terminates_node (h : well → ∃ n, g.nodeAt? id = some n) : Terminates well (g.node id) := by
  refine .bind (terminates_node? h) fun found hfound => ?_
  cases found with
  | some n => exact .pure n
  | none =>
    rintro e ⟨⟩
    refine ⟨fun hw => ?_, by rintro ⟨⟩⟩
    obtain ⟨n, hn⟩ := h hw
    cases (nodeAt?_of_node? hfound).symm.trans hn

theorem terminates_scope (h : well → ∃ sc, g.scopeAt? s = some sc) : Terminates well (g.scope s) := by
  refine .bind (terminates_scope? h) fun found hfound => ?_
  cases found with
  | some sc => exact .pure sc
  | none =>
    rintro e ⟨⟩
    refine ⟨fun hw => ?_, by rintro ⟨⟩⟩
    obtain ⟨sc, hsc⟩ := h hw
    cases (scopeAt?_of_scope? hfound).symm.trans hsc

structure EditInvariant (well : Prop) (g : Graph) : Prop where
  wellFormed : WellFormed g
  rootFinitelyNested : RootFinitelyNested g
  hasLayouts : HasLayouts g
  parentsWellFounded : ParentsWellFounded g
  consistent : well → Consistent g

theorem Reachable.editInvariant (hr : Reachable g) (hg : Consistent g) : EditInvariant True g :=
  ⟨hr.wellFormed, hr.rootFinitelyNested, hr.hasLayouts, (consistent_iff.1 hg).2.parentsWellFounded, fun _ => hg⟩

namespace EditInvariant

theorem steps (h : EditInvariant well g) (hsteps : Steps clear g g') (hwell : well → Consistent g') :
    EditInvariant well g' :=
  ⟨h.wellFormed.steps hsteps, h.rootFinitelyNested.steps h.wellFormed.rootIsEntryPoint hsteps,
  h.hasLayouts.steps hsteps, h.parentsWellFounded.steps hsteps, hwell⟩

theorem changes (h : EditInvariant well g) (hchanges : Changes clear g g') : EditInvariant well g' :=
  h.steps hchanges.steps fun hw => (h.consistent hw).changes hchanges

theorem moves (h : EditInvariant well g) (hmoves : Moves clear g g') : EditInvariant well g' := h.changes hmoves.changes

theorem weaken {well' : Prop} (h : EditInvariant well g) (hwell : well' → well) : EditInvariant well' g :=
  ⟨h.wellFormed, h.rootFinitelyNested, h.hasLayouts, h.parentsWellFounded, fun hw => h.consistent (hwell hw)⟩

theorem live_of_home (h : EditInvariant well g) (hw : well) (hx : g.homeAt? x = some s) :
    ∃ sc, g.scopeAt? s = some sc := by
  obtain ⟨n, hn, hs⟩ := homeAt?_eq_some_iff.1 hx
  obtain ⟨sc, hsc⟩ := (h.consistent hw).nodeScopesLive x n s (node_eq_ok_iff.2 hn) hs
  exact ⟨sc, scope_eq_ok_iff.1 hsc⟩

theorem live_of_parent (h : EditInvariant well g) (hw : well) (hparent : g.parentScope? s = .ok (some t)) :
    ∃ sc, g.scopeAt? t = some sc := by
  obtain ⟨sc, hsc, hup⟩ := parentScope?_eq_ok_iff.1 hparent
  rcases hup with ⟨_, i, hkind, ⟨⟩⟩ | ⟨-, n, hn, ht⟩
  · obtain ⟨st, hst, -⟩ := h.wellFormed.scopesOwned.whole_of_part hsc hkind
    exact ⟨st, hst⟩
  · exact h.live_of_home hw (homeAt?_eq_some_iff.2 ⟨n, hn, ht.symm⟩)

theorem parentScope? (h : EditInvariant well g) (hs : well → ∃ sc, g.scopeAt? s = some sc) :
    Terminates well (g.parentScope? s) := by
  refine .bind (terminates_scope hs) fun sc hsc => ?_
  cases sc.kind with
  | partition t i => exact .pure _
  | internal =>
    obtain ⟨n, -, -, hn, -⟩ := h.wellFormed.scopesOwned.home (scope_eq_ok_iff.1 hsc)
    exact .bind (.of_ok (node_eq_ok_iff.2 hn)) fun _ _ => .pure _

section

variable {α : Type}

theorem length_lt_walkBound (h : EditInvariant well g) {above : List ScopeId}
    (hway : (s :: above).IsChain fun t u => g.parentScope? t = .ok (some u))
    (hlive : ∀ t ∈ (s :: above).dropLast, ∃ sc, g.scopeAt? t = some sc) : above.length < g.walkBound := by
  have hnodup : (s :: above).dropLast.Nodup :=
    (nodup_of_isChain hway (h.parentsWellFounded.apply s)).sublist (List.dropLast_sublist _)
  have hlt := Graph.length_lt_walkBound hnodup hlive
  rwa [List.length_dropLast, List.length_cons, Nat.add_sub_cancel] at hlt

theorem up (h : EditInvariant well g) (look : Nat → ScopeId → Except Fault α)
    (hlook : ∀ k s, (well → ∃ sc, g.scopeAt? s = some sc) →
      (∀ t, g.parentScope? s = .ok (some t) → Terminates well (look k t)) → Terminates well (look (k + 1) s))
    (hs : well → ∃ sc, g.scopeAt? s = some sc) : Terminates well (look g.walkBound s) := by
  obtain ⟨above, hway, hlive, hwalk⟩ : ∃ above : List ScopeId,
      (s :: above).IsChain (fun t u => g.parentScope? t = .ok (some u)) ∧
      (∀ t ∈ (s :: above).dropLast, ∃ sc, g.scopeAt? t = some sc) ∧ ∀ k, above.length < k →
      Terminates well (look k s) := by
    induction s using h.parentsWellFounded.induction with
    | h s ih =>
      by_cases hparent : ∃ t, g.parentScope? s = .ok (some t)
      · obtain ⟨t, ht⟩ := hparent
        obtain ⟨above, hway, hlive, hwalk⟩ := ih t ht fun hw => h.live_of_parent hw ht
        obtain ⟨sc, hsc, -⟩ := parentScope?_eq_ok_iff.1 ht
        refine ⟨t :: above, List.isChain_cons_cons.2 ⟨ht, hway⟩, List.forall_mem_cons.2 ⟨⟨sc, hsc⟩, hlive⟩,
          fun k hk => ?_⟩
        rw [List.length_cons] at hk
        obtain ⟨k, rfl⟩ := Nat.exists_eq_succ_of_ne_zero (Nat.ne_zero_of_lt hk)
        refine hlook k s hs fun u hu => ?_
        cases ht.symm.trans hu
        exact hwalk k (Nat.lt_of_succ_lt_succ hk)
      · refine ⟨[], List.isChain_singleton s, fun t ht => (List.not_mem_nil ht).elim, fun k hk => ?_⟩
        obtain ⟨k, rfl⟩ := Nat.exists_eq_succ_of_ne_zero (Nat.ne_zero_of_lt hk)
        exact hlook k s hs fun t ht => (hparent ⟨t, ht⟩).elim
  exact hwalk g.walkBound (h.length_lt_walkBound hway hlive)

theorem down (h : EditInvariant well g) (look : Nat → ScopeId → Except Fault α)
    (hlook : ∀ k s, (well → ∃ sc, g.scopeAt? s = some sc) →
      (∀ t, g.parentScope? t = .ok (some s) → Terminates well (look k t)) → Terminates well (look (k + 1) s))
    (hs : well → ∃ sc, g.scopeAt? s = some sc) : Terminates well (look g.walkBound s) := by
  suffices hwalk : ∀ k s above, (s :: above).IsChain (fun t u => g.parentScope? t = .ok (some u)) →
      (∀ t ∈ (s :: above).dropLast, ∃ sc, g.scopeAt? t = some sc) → g.walkBound ≤ above.length + k →
      (well → ∃ sc, g.scopeAt? s = some sc) → Terminates well (look k s) from
    hwalk g.walkBound s [] (List.isChain_singleton s) (fun t ht => (List.not_mem_nil ht).elim) (Nat.le_add_left _ _) hs
  intro k
  induction k with
  | zero =>
    intro s above hway hlive hk _
    have hlt := h.length_lt_walkBound hway hlive
    omega
  | succ k ih =>
    intro s above hway hlive hk hs
    refine hlook k s hs fun t ht => ?_
    obtain ⟨st, hst, -⟩ := parentScope?_eq_ok_iff.1 ht
    refine ih t (s :: above) (List.isChain_cons_cons.2 ⟨ht, hway⟩) (List.forall_mem_cons.2 ⟨⟨st, hst⟩, hlive⟩) ?_
      fun _ => ⟨st, hst⟩
    rw [List.length_cons]
    omega

end

theorem anyOnPath (h : EditInvariant well g) (hs : well → ∃ sc, g.scopeAt? s = some sc)
    {p : ScopeId → Except Fault Bool} (hp : ∀ t, (well → ∃ sc, g.scopeAt? t = some sc) → Terminates well (p t)) :
    Terminates well (g.anyOnPath p s) := by
  refine h.up (g.anyOnPathWithin p) (fun k s hs hup => ?_) hs
  refine .bind (h.parentScope? hs) fun parent hparent => .bind (hp s hs) fun found _ => ?_
  cases found with
  | true => exact .pure _
  | false =>
    cases parent with
    | none => exact .pure _
    | some t => exact hup t hparent

theorem path (h : EditInvariant well g) (hs : well → ∃ sc, g.scopeAt? s = some sc) : Terminates well (g.path s) := by
  refine h.up g.pathWithin (fun k s hs hup => ?_) hs
  refine .bind (h.parentScope? hs) fun parent hparent => ?_
  cases parent with
  | none => exact .pure _
  | some t => exact .bind (hup t hparent) fun _ _ => .pure _

theorem findVariable (h : EditInvariant well g) (hs : well → ∃ sc, g.scopeAt? s = some sc) (name : String) :
    Terminates well (g.findVariable s name true) := by
  refine h.up (g.findVariableWithin name true) (fun k s hs hup => ?_) hs
  refine .bind (terminates_scope hs) fun sc hsc => .bind (.findM? fun v hv => ?_) fun found _ => ?_
  · have hscopeMatches := h.wellFormed.scopesMatchNodes.scopeMatchesNodes (scope_eq_ok_iff.1 hsc)
    obtain ⟨m, hm, -⟩ := hscopeMatches.child v (hscopeMatches.declared v hv).1
    exact .bind (.of_ok (node_eq_ok_iff.2 hm)) fun _ _ => .pure _
  · cases found with
    | some v => exact .pure _
    | none =>
      refine .bind (h.parentScope? hs) fun parent hparent => ?_
      cases parent with
      | none => exact .pure _
      | some t => exact hup t hparent

theorem targetError? (h : EditInvariant well g) (hs : well → ∃ found, g.scope? s = .ok found) (id : NodeId) :
    Terminates well (g.targetError? id s) := by
  have hweak : Terminates False (g.scope? s) := terminates_scope? False.elim
  have hlook : Terminates well (g.scope? s) := by
    intro e he
    refine ⟨fun hw => ?_, (hweak e he).2⟩
    obtain ⟨found, hfound⟩ := hs hw
    cases hfound.symm.trans he
  refine .bind hlook fun found hfound => ?_
  cases found with
  | none => exact .pure _
  | some sc =>
    have hsc := scopeAt?_of_scope? hfound
    refine .bind (h.anyOnPath (fun _ => ⟨sc, hsc⟩) fun t ht => .bind (terminates_scope ht) fun _ _ => .pure _)
      fun own _ => ?_
    cases own with
    | true => exact .pure _
    | false => exact .pure _

theorem childScopes (h : EditInvariant well g) (hs : well → ∃ sc, g.scopeAt? s = some sc) :
    Terminates well (g.childScopes s) := by
  refine .bind (terminates_scope hs) fun sc hsc => .bind (.filterMapM fun c hc => ?_) fun _ _ => .pure _
  obtain ⟨m, hm, -⟩ := (h.wellFormed.scopesMatchNodes.scopeMatchesNodes (scope_eq_ok_iff.1 hsc)).child c hc
  exact .bind (.of_ok (node_eq_ok_iff.2 hm)) fun _ _ => .pure _

theorem parent_of_mem_childScopes (h : EditInvariant well g) {inner : List ScopeId}
    (hinner : g.childScopes s = .ok inner) (ht : t ∈ inner) : g.parentScope? t = .ok (some s) := by
  simp only [Graph.childScopes, bind_eq_ok, scope_eq_ok_iff, pure_eq_ok] at hinner
  obtain ⟨sc, hsc, blocks, hblocks, rfl⟩ := hinner
  rcases List.mem_append.1 ht with ht | ht
  · obtain ⟨-, -, hup⟩ := h.rootFinitelyNested.parent_of_partition h.wellFormed.scopesOwned hsc ht
    exact hup
  · obtain ⟨c, hc, hinternal⟩ := of_mem_filterMapM hblocks ht
    simp only [bind_eq_ok, node_eq_ok_iff, pure_eq_ok] at hinternal
    obtain ⟨m, hm, hinternal⟩ := hinternal
    obtain ⟨m', hm', hscope⟩ := (h.wellFormed.scopesMatchNodes.scopeMatchesNodes hsc).child c hc
    cases hm.symm.trans hm'
    obtain ⟨-, -, hup⟩ := h.wellFormed.scopesOwned.parent_of_internal hm hinternal
    exact hup.trans (congrArg _ hscope)

theorem descendants (h : EditInvariant well g) (hs : well → ∃ sc, g.scopeAt? s = some sc) :
    Terminates well (g.descendants s none true) := by
  refine .bind (h.down (g.below (.error .endless)) (fun k s hs hdown => ?_) hs) fun _ _ => .pure _
  refine .bind (h.childScopes hs) fun inner hinner => .bind (.mapM fun t ht => ?_) fun _ _ => .pure _
  exact .bind (hdown t (h.parent_of_mem_childScopes hinner ht)) fun _ _ => .pure _

end EditInvariant

end Graph

end FlowGraph
