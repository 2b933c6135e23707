import FlowGraph.Proofs.Relinking

/-!
# Ancestors in common

The scopes around a scope are a chain that ends where nothing lies around any more. The ways up from several scopes,
read from there, begin alike as far as the scopes lie in the same ones. So the last scope of what they share is the
nearest one around them all, in whatever order they are taken in and however often.
-/

namespace FlowGraph.Graph

open Relation

section

variable {α : Type} [DecidableEq α]

theorem isPrefix_commonPrefix_iff {l as bs : List α} : l <+: commonPrefix as bs ↔ l <+: as ∧ l <+: bs := by
  induction as generalizing l bs with
  | nil =>
    have hnil : commonPrefix [] bs = [] := by cases bs <;> rfl
    rw [hnil, List.prefix_nil]
    exact ⟨fun h => ⟨h, h ▸ List.nil_prefix⟩, And.left⟩
  | cons a as ih =>
    cases bs with
    | nil => exact ⟨fun h => ⟨List.prefix_nil.1 h ▸ List.nil_prefix, h⟩, And.right⟩
    | cons b bs =>
      cases l with
      | nil => exact iff_of_true List.nil_prefix ⟨List.nil_prefix, List.nil_prefix⟩
      | cons c l =>
        rw [commonPrefix]
        split
        next hsame => rw [List.cons_prefix_cons, List.cons_prefix_cons, List.cons_prefix_cons, ih, hsame, and_and_left]
        next hother =>
          rw [List.prefix_nil, List.cons_prefix_cons, List.cons_prefix_cons]
          refine iff_of_false (List.cons_ne_nil _ _) ?_
          rintro ⟨⟨rfl, -⟩, rfl, -⟩
          exact hother rfl

end

variable {g : Graph} {s t c : ScopeId} {p q : List ScopeId}

inductive PathUp (g : Graph) : ScopeId → List ScopeId → Prop
  | top {s : ScopeId} : g.parentScope? s = .ok none → PathUp g s [s]
  | up {s t : ScopeId} {p : List ScopeId} : g.parentScope? s = .ok (some t) → PathUp g t p → PathUp g s (s :: p)

namespace PathUp

theorem of_pathWithin {k : Nat} (h : g.pathWithin k s = .ok p) : PathUp g s p := by
  induction k generalizing s p with
  | zero => cases h
  | succ k ih =>
    obtain ⟨parent, hparent, h⟩ := bind_eq_ok.1 h
    cases parent with
    | none =>
      cases h
      exact .top hparent
    | some t =>
      obtain ⟨rest, hrest, ⟨⟩⟩ := bind_eq_ok.1 h
      exact .up hparent (ih hrest)

theorem unique (h : PathUp g s p) (h' : PathUp g s q) : p = q := by
  induction h generalizing q with
  | top hparent =>
    cases h' with
    | top => rfl
    | up hparent' => cases hparent.symm.trans hparent'
  | up hparent _ ih =>
    cases h' with
    | top hparent' => cases hparent.symm.trans hparent'
    | up hparent' h' =>
      cases hparent.symm.trans hparent'
      rw [ih h']

theorem head? (h : PathUp g s p) : p.head? = some s := by
  cases h with
  | top => rfl
  | up => rfl

theorem ne_nil (h : PathUp g s p) : p ≠ [] := by
  rintro rfl
  cases h.head?

theorem suffix (h : PathUp g s p) (hwithin : Within g s t) : ∃ q, PathUp g t q ∧ q <:+ p := by
  induction h with
  | @top s hparent =>
    rcases hwithin.cases_head with rfl | ⟨u, hup, -⟩
    · exact ⟨[s], .top hparent, List.suffix_rfl⟩
    · cases hparent.symm.trans hup
  | @up s u p hparent hway ih =>
    rcases hwithin.cases_head with rfl | ⟨u', hup, hwithin⟩
    · exact ⟨s :: p, .up hparent hway, List.suffix_rfl⟩
    · cases hparent.symm.trans hup
      obtain ⟨q, hq, hsuffix⟩ := ih hwithin
      exact ⟨q, hq, hsuffix.trans (List.suffix_cons s p)⟩

theorem of_suffix (h : PathUp g s p) (hsuffix : q <:+ p) (hne : q ≠ []) : ∃ t, PathUp g t q ∧ Within g s t := by
  induction h with
  | @top s hparent =>
    rcases List.suffix_cons_iff.1 hsuffix with rfl | hnil
    · exact ⟨s, .top hparent, .refl⟩
    · exact (hne (List.suffix_nil.1 hnil)).elim
  | @up s u p hparent hway ih =>
    rcases List.suffix_cons_iff.1 hsuffix with rfl | hsuffix
    · exact ⟨s, .up hparent hway, .refl⟩
    · obtain ⟨t, ht, hwithin⟩ := ih hsuffix
      exact ⟨t, ht, .head hparent hwithin⟩

/-- A scope lies around another one if its way up is the rest of that one's. -/
theorem within_iff (h : PathUp g s p) : Within g s t ↔ ∃ q, PathUp g t q ∧ q <:+ p := by
  refine ⟨h.suffix, ?_⟩
  rintro ⟨q, hq, hsuffix⟩
  obtain ⟨t', ht', hwithin⟩ := h.of_suffix hsuffix hq.ne_nil
  cases Option.some.inj (hq.head?.symm.trans ht'.head?)
  exact hwithin

end PathUp

theorem EditInvariant.exists_pathUp (h : EditInvariant True g) (hs : ∃ sc, g.scopeAt? s = some sc) :
    ∃ p, g.path s = .ok p ∧ PathUp g s p := by
  obtain ⟨p, hp⟩ := (h.path fun _ => hs).exists_ok
  exact ⟨p, hp, .of_pathWithin hp⟩

theorem isAncestorOrSelf_iff_of_ok {b : Bool} (h : g.isAncestorOrSelf t s = .ok b) : b = true ↔ Within g s t := by
  rw [isAncestorOrSelf, anyOnPath] at h
  generalize g.walkBound = k at h
  induction k generalizing s with
  | zero => cases h
  | succ k ih =>
    obtain ⟨parent, hparent, h⟩ := bind_eq_ok.1 h
    simp only [pure_bind] at h
    split at h
    next hsame =>
      cases h
      cases beq_iff_eq.1 hsame
      exact iff_of_true rfl .refl
    next hother =>
      have hup : Within g s t ↔ ∃ u, g.parentScope? s = .ok (some u) ∧ Within g u t :=
        ReflTransGen.cases_head_iff.trans (or_iff_right fun hsame => hother (beq_iff_eq.2 hsame))
      rw [hup]
      cases parent with
      | none =>
        cases h
        refine iff_of_false Bool.false_ne_true ?_
        rintro ⟨u, hu, -⟩
        cases hparent.symm.trans hu
      | some u =>
        refine (ih h).trans ⟨fun hwithin => ⟨u, hparent, hwithin⟩, ?_⟩
        rintro ⟨u', hu', hwithin⟩
        cases hparent.symm.trans hu'
        exact hwithin

namespace EditInvariant

theorem exists_isAncestorOrSelf (h : EditInvariant True g) (hs : ∃ sc, g.scopeAt? s = some sc) (t : ScopeId) :
    ∃ b, g.isAncestorOrSelf t s = .ok b :=
  (h.anyOnPath (fun _ => hs) fun _ _ => .pure _).exists_ok

theorem isAncestorOrSelf_iff (h : EditInvariant True g) (hs : ∃ sc, g.scopeAt? s = some sc) :
    g.isAncestorOrSelf t s = .ok true ↔ Within g s t := by
  obtain ⟨b, hb⟩ := h.exists_isAncestorOrSelf hs t
  rw [← isAncestorOrSelf_iff_of_ok hb, hb, Except.ok.injEq]

theorem live_of_within (h : EditInvariant True g) (hs : ∃ sc, g.scopeAt? s = some sc) (hwithin : Within g s t) :
    ∃ sc, g.scopeAt? t = some sc := by
  induction hwithin with
  | refl => exact hs
  | tail _ hparent _ => exact h.live_of_parent trivial hparent

end EditInvariant

theorem ParentsWellFounded.eq_of_within (h : ParentsWellFounded g) (hst : Within g s t)
    (hts : Within g t s) : s = t := by
  by_contra hne
  have hloop : TransGen (fun t s => g.parentScope? s = .ok (some t)) s s := by
    have hup : TransGen (fun s t => g.parentScope? s = .ok (some t)) s s :=
      ((reflTransGen_iff_eq_or_transGen.1 hst).resolve_left (Ne.symm hne)).trans_left hts
    exact transGen_swap.1 hup
  exact not_rel_self_of_acc (h.transGen.apply s) hloop

def AncestorOfAll (g : Graph) (ss : List ScopeId) (t : ScopeId) : Prop := ∀ s ∈ ss, Within g s t

structure LowestAncestor (g : Graph) (ss : List ScopeId) (c : ScopeId) : Prop where
  common : AncestorOfAll g ss c
  nearest {t : ScopeId} : AncestorOfAll g ss t → Within g c t

theorem LowestAncestor.ancestorOfAll_iff {ss : List ScopeId} (h : LowestAncestor g ss c) :
    AncestorOfAll g ss t ↔ Within g c t :=
  ⟨h.nearest, fun hwithin s hs => (h.common s hs).trans hwithin⟩

theorem LowestAncestor.unique {ss : List ScopeId} {c' : ScopeId} (hparentsWellFounded : ParentsWellFounded g)
    (h : LowestAncestor g ss c) (h' : LowestAncestor g ss c') : c = c' :=
  hparentsWellFounded.eq_of_within (h.nearest h'.common) (h'.nearest h.common)

/-- The nearest common ancestor of what came of scopes before and one more. Without any it stays at that. -/
def lowestOfTwo (g : Graph) : Option ScopeId → ScopeId → Except Fault (Option ScopeId)
  | none, _ => .ok none
  | some c, s => g.lowestCommonAncestor [c, s]

theorem isPrefix_foldlM_iff {l start shared : List ScopeId} {ss : List ScopeId}
    (h : ss.foldlM (fun common s => do return commonPrefix common (← g.path s).reverse) start = .ok shared) :
    l <+: shared ↔ l <+: start ∧ ∀ s ∈ ss, ∃ p, PathUp g s p ∧ l <+: p.reverse := by
  induction ss generalizing start with
  | nil =>
    cases h
    exact ⟨fun hl => ⟨hl, fun _ hs => (List.not_mem_nil hs).elim⟩, And.left⟩
  | cons s ss ih =>
    rw [List.foldlM_cons] at h
    obtain ⟨common, hcommon, h⟩ := bind_eq_ok.1 h
    obtain ⟨p, hp, ⟨⟩⟩ := bind_eq_ok.1 hcommon
    have hway : PathUp g s p := .of_pathWithin hp
    rw [ih h, isPrefix_commonPrefix_iff, List.forall_mem_cons, and_assoc]
    refine and_congr_right fun _ => and_congr_left fun _ => ⟨fun hl => ⟨p, hway, hl⟩, ?_⟩
    rintro ⟨p', hway', hl⟩
    rwa [hway.unique hway']

def CommonSuffix (g : Graph) (ss way : List ScopeId) : Prop := ∀ q, q <:+ way ↔ ∀ s ∈ ss, ∃ p, PathUp g s p ∧ q <:+ p

theorem exists_commonSuffix {ss : List ScopeId} (hne : ss ≠ []) {found : Option ScopeId}
    (h : g.lowestCommonAncestor ss = .ok found) : ∃ way, CommonSuffix g ss way ∧ way.head? = found := by
  obtain ⟨first, rest, rfl⟩ := List.exists_cons_of_ne_nil hne
  obtain ⟨p, hp, h⟩ := bind_eq_ok.1 h
  obtain ⟨shared, hshared, hlast⟩ := bind_eq_ok.1 h
  have hway : PathUp g first p := .of_pathWithin hp
  refine ⟨shared.reverse, fun q => ?_, List.head?_reverse.trans (pure_eq_ok.1 hlast)⟩
  rw [← List.reverse_prefix, List.reverse_reverse, isPrefix_foldlM_iff hshared, List.forall_mem_cons]
  simp only [List.reverse_prefix]
  refine and_congr_left fun _ => ⟨fun hq => ⟨p, hway, hq⟩, ?_⟩
  rintro ⟨p', hway', hq⟩
  rwa [hway.unique hway']

namespace CommonSuffix

variable {ss way : List ScopeId} (h : CommonSuffix g ss way) (hne : ss ≠ [])

include h hne

theorem ancestorOfAll_iff (hways : ∀ s ∈ ss, ∃ p, PathUp g s p) :
    AncestorOfAll g ss t ↔ ∃ q, PathUp g t q ∧ q <:+ way := by
  constructor
  · intro ht
    obtain ⟨first, hfirst⟩ := List.exists_mem_of_ne_nil ss hne
    obtain ⟨p, hp⟩ := hways first hfirst
    obtain ⟨q, hq, -⟩ := hp.suffix (ht first hfirst)
    refine ⟨q, hq, (h q).2 fun s hs => ?_⟩
    obtain ⟨p', hp'⟩ := hways s hs
    obtain ⟨q', hq', hsuffix⟩ := hp'.suffix (ht s hs)
    exact ⟨p', hp', hq.unique hq' ▸ hsuffix⟩
  · rintro ⟨q, hq, hshared⟩ s hs
    obtain ⟨p, hp, hsuffix⟩ := (h q).1 hshared s hs
    exact hp.within_iff.2 ⟨q, hq, hsuffix⟩

theorem pathUp_of_head? (hc : way.head? = some c) : PathUp g c way := by
  obtain ⟨first, hfirst⟩ := List.exists_mem_of_ne_nil ss hne
  obtain ⟨p, hp, hsuffix⟩ := (h way).1 List.suffix_rfl first hfirst
  have hstart : way ≠ [] := by
    rintro rfl
    cases hc
  obtain ⟨t, ht, -⟩ := hp.of_suffix hsuffix hstart
  cases ht.head?.symm.trans hc
  exact ht

theorem lowest (hways : ∀ s ∈ ss, ∃ p, PathUp g s p) (hc : way.head? = some c) : LowestAncestor g ss c := by
  have hway := h.pathUp_of_head? hne hc
  exact ⟨(h.ancestorOfAll_iff hne hways).2 ⟨way, hway, List.suffix_rfl⟩,
    fun ht => hway.within_iff.2 ((h.ancestorOfAll_iff hne hways).1 ht)⟩

end CommonSuffix

namespace EditInvariant

theorem exists_lowestCommonAncestor (h : EditInvariant True g) {ss : List ScopeId} (hne : ss ≠ [])
    (hss : ∀ s ∈ ss, ∃ sc, g.scopeAt? s = some sc) : ∃ found, g.lowestCommonAncestor ss = .ok found ∧
      (found = none → ∀ t, ¬AncestorOfAll g ss t) ∧ ∀ c, found = some c → LowestAncestor g ss c := by
  obtain ⟨found, hfound⟩ := (h.findsLiveScope_lowestCommonAncestor fun _ => hss).terminates.exists_ok
  obtain ⟨way, hshared, rfl⟩ := exists_commonSuffix hne hfound
  have hways : ∀ s ∈ ss, ∃ p, PathUp g s p := fun s hs => (h.exists_pathUp (hss s hs)).imp fun _ => And.right
  refine ⟨way.head?, hfound, fun hnone t ht => ?_, fun c => hshared.lowest hne hways⟩
  obtain ⟨q, hq, hsuffix⟩ := (hshared.ancestorOfAll_iff hne hways).1 ht
  rw [List.head?_eq_none_iff.1 hnone] at hsuffix
  exact hq.ne_nil (List.suffix_nil.1 hsuffix)

/-- The nearest common ancestor is what is found, and nothing is found without one. -/
theorem lowestCommonAncestor_eq_iff (h : EditInvariant True g) {ss : List ScopeId} (hne : ss ≠ [])
    (hss : ∀ s ∈ ss, ∃ sc, g.scopeAt? s = some sc) {found : Option ScopeId} :
    g.lowestCommonAncestor ss = .ok found ↔ ∀ c, found = some c ↔ LowestAncestor g ss c := by
  obtain ⟨found', hfound, hnone, hsome⟩ := h.exists_lowestCommonAncestor hne hss
  have hiff (c : ScopeId) : found' = some c ↔ LowestAncestor g ss c := by
    refine ⟨hsome c, fun hc => ?_⟩
    cases found' with
    | none => exact (hnone rfl c hc.common).elim
    | some c' => rw [(hsome c' rfl).unique h.parentsWellFounded hc]
  rw [hfound, Except.ok.injEq]
  constructor
  · rintro rfl
    exact hiff
  · exact fun hc => Option.ext fun c => (hiff c).trans (hc c).symm

theorem lowestCommonAncestor_eq_none_iff (h : EditInvariant True g) {ss : List ScopeId} (hne : ss ≠ [])
    (hss : ∀ s ∈ ss, ∃ sc, g.scopeAt? s = some sc) :
    g.lowestCommonAncestor ss = .ok none ↔ ∀ t, ¬AncestorOfAll g ss t := by
  obtain ⟨found, hfound, hnone, hsome⟩ := h.exists_lowestCommonAncestor hne hss
  rw [hfound, Except.ok.injEq]
  refine ⟨hnone, fun hno => ?_⟩
  cases found with
  | none => rfl
  | some c => exact (hno c (hsome c rfl).common).elim

theorem lowestCommonAncestor_congr (h : EditInvariant True g) {ss ss' : List ScopeId} (hne : ss ≠ []) (hne' : ss' ≠ [])
    (hss : ∀ s ∈ ss, ∃ sc, g.scopeAt? s = some sc) (hss' : ∀ s ∈ ss', ∃ sc, g.scopeAt? s = some sc)
    (hancestorOfAll : ∀ t, AncestorOfAll g ss' t ↔ AncestorOfAll g ss t) :
    g.lowestCommonAncestor ss' = g.lowestCommonAncestor ss := by
  obtain ⟨found, hfound, -⟩ := h.exists_lowestCommonAncestor hne hss
  rw [hfound]
  refine (h.lowestCommonAncestor_eq_iff hne' hss').2 fun c => ?_
  rw [(h.lowestCommonAncestor_eq_iff hne hss).1 hfound c]
  exact ⟨fun hc => ⟨(hancestorOfAll c).2 hc.common, fun ht => hc.nearest ((hancestorOfAll _).1 ht)⟩,
    fun hc => ⟨(hancestorOfAll c).1 hc.common, fun ht => hc.nearest ((hancestorOfAll _).2 ht)⟩⟩

theorem lowestOfTwo_eq (h : EditInvariant True g) {ss : List ScopeId} {found : Option ScopeId} (hne : ss ≠ [])
    (hss : ∀ s' ∈ ss ++ [s], ∃ sc, g.scopeAt? s' = some sc) (hfound : g.lowestCommonAncestor ss = .ok found) :
    g.lowestOfTwo found s = g.lowestCommonAncestor (ss ++ [s]) := by
  have hss' : ∀ s ∈ ss, ∃ sc, g.scopeAt? s = some sc := fun s hs => hss s (List.mem_append_left _ hs)
  have hne' : ss ++ [s] ≠ [] := List.append_ne_nil_of_left_ne_nil hne _
  have happend (t : ScopeId) : AncestorOfAll g (ss ++ [s]) t ↔ AncestorOfAll g ss t ∧ Within g s t := by
    rw [AncestorOfAll, List.forall_mem_append, List.forall_mem_singleton, AncestorOfAll]
  cases found with
  | none =>
    have hno := (h.lowestCommonAncestor_eq_none_iff hne hss').1 hfound
    exact ((h.lowestCommonAncestor_eq_none_iff hne' hss).2 fun t ht => hno t ((happend t).1 ht).1).symm
  | some c =>
    have hc : LowestAncestor g ss c := ((h.lowestCommonAncestor_eq_iff hne hss').1 hfound c).1 rfl
    obtain ⟨first, hfirst⟩ := List.exists_mem_of_ne_nil ss hne
    have hlive : ∀ s' ∈ [c, s], ∃ sc, g.scopeAt? s' = some sc :=
      List.forall_mem_cons.2 ⟨h.live_of_within (hss' first hfirst) (hc.common first hfirst),
        List.forall_mem_singleton.2 (hss s (List.mem_append_right _ List.mem_cons_self))⟩
    refine h.lowestCommonAncestor_congr hne' (List.cons_ne_nil _ _) hss hlive fun t => ?_
    rw [happend, hc.ancestorOfAll_iff, AncestorOfAll, List.forall_mem_cons, List.forall_mem_singleton]

theorem foldlM_lowestOfTwo (h : EditInvariant True g) {ss rest : List ScopeId} {found : Option ScopeId} (hne : ss ≠ [])
    (hss : ∀ s ∈ ss ++ rest, ∃ sc, g.scopeAt? s = some sc) (hfound : g.lowestCommonAncestor ss = .ok found) :
    rest.foldlM g.lowestOfTwo found = g.lowestCommonAncestor (ss ++ rest) := by
  induction rest generalizing ss found with
  | nil => rw [List.append_nil, hfound, List.foldlM_nil, pure_eq_ok]
  | cons s rest ih =>
    rw [List.append_cons] at hss ⊢
    have hss' : ∀ s' ∈ ss ++ [s], ∃ sc, g.scopeAt? s' = some sc := fun s' hs' => hss s' (List.mem_append_left _ hs')
    have hne' : ss ++ [s] ≠ [] := List.append_ne_nil_of_left_ne_nil hne _
    obtain ⟨next, hnext, -⟩ := h.exists_lowestCommonAncestor hne' hss'
    rw [List.foldlM_cons, h.lowestOfTwo_eq hne hss' hfound, hnext]
    exact ih hne' hss hnext

end EditInvariant

/-- Scopes have a nearest common ancestor exactly if they have a common one, and it does not matter in what order and
how often they are named, nor whether they are taken in one by one. -/
theorem Reachable.lowestCommonAncestor_lowest (hr : Reachable g) (hg : Consistent g) {ss : List ScopeId} (hne : ss ≠ [])
    (hlive : ∀ s ∈ ss, ∃ sc, g.scope s = .ok sc) :
    (∀ s ∈ ss, ∀ t, ∃ b, g.isAncestorOrSelf t s = .ok b) ∧ ∃ found, g.lowestCommonAncestor ss = .ok found ∧
      (found = none ↔ ∀ t, ¬∀ s ∈ ss, g.isAncestorOrSelf t s = .ok true) ∧
      (∀ c, found = some c → (∀ s ∈ ss, g.isAncestorOrSelf c s = .ok true) ∧
        ∀ t, (∀ s ∈ ss, g.isAncestorOrSelf t s = .ok true) → g.isAncestorOrSelf t c = .ok true) ∧
      (∀ ss', (∀ s, s ∈ ss' ↔ s ∈ ss) → g.lowestCommonAncestor ss' = .ok found) ∧
      ∀ first rest, ss = first :: rest → rest.foldlM g.lowestOfTwo (some first) = .ok found := by
  have h := hr.editInvariant hg
  simp only [scope_eq_ok_iff] at hlive
  refine ⟨fun s hs t => h.exists_isAncestorOrSelf (hlive s hs) t, ?_⟩
  have hancestorOfAll (t : ScopeId) : (∀ s ∈ ss, g.isAncestorOrSelf t s = .ok true) ↔ AncestorOfAll g ss t :=
    forall₂_congr fun s hs => h.isAncestorOrSelf_iff (hlive s hs)
  obtain ⟨found, hfound, -, hsome⟩ := h.exists_lowestCommonAncestor hne hlive
  refine ⟨found, hfound, ?_, ?_, ?_, ?_⟩
  · rw [← Except.ok.injEq, ← hfound, h.lowestCommonAncestor_eq_none_iff hne hlive]
    exact forall_congr' fun t => not_congr (hancestorOfAll t).symm
  · intro c hc
    have hlowestAncestor := hsome c hc
    refine ⟨(hancestorOfAll c).2 hlowestAncestor.common, fun t ht => ?_⟩
    obtain ⟨first, hfirst⟩ := List.exists_mem_of_ne_nil ss hne
    have hthere := h.live_of_within (hlive first hfirst) (hlowestAncestor.common first hfirst)
    exact (h.isAncestorOrSelf_iff hthere).2 (hlowestAncestor.nearest ((hancestorOfAll t).1 ht))
  · intro ss' hsame
    have hne' : ss' ≠ [] := by
      obtain ⟨first, hfirst⟩ := List.exists_mem_of_ne_nil ss hne
      exact List.ne_nil_of_mem ((hsame first).2 hfirst)
    have hlive' : ∀ s ∈ ss', ∃ sc, g.scopeAt? s = some sc := fun s hs => hlive s ((hsame s).1 hs)
    rw [h.lowestCommonAncestor_congr hne hne' hlive hlive' fun t => forall_congr' fun s => by rw [hsame], hfound]
  · rintro first rest rfl
    have hfirst : g.lowestCommonAncestor [first] = .ok (some first) := by
      have hone : ∀ s ∈ [first], ∃ sc, g.scopeAt? s = some sc :=
        List.forall_mem_singleton.2 (hlive first List.mem_cons_self)
      refine (h.lowestCommonAncestor_eq_iff (List.cons_ne_nil _ _) hone).2 fun c => ?_
      have hself : LowestAncestor g [first] first :=
        ⟨List.forall_mem_singleton.2 .refl, fun ht => ht first List.mem_cons_self⟩
      exact ⟨fun hc => Option.some.inj hc ▸ hself, fun hc => congrArg some (hself.unique h.parentsWellFounded hc)⟩
    exact (h.foldlM_lowestOfTwo (List.cons_ne_nil _ _) hlive hfirst).trans hfound

/-- The branches 5 and 6 of an `if` share its block 4, which no other scope around both lies in. -/
theorem lowestCommonAncestor_lowest_wayBack : ∃ g, wayBack = .ok g ∧ Reachable g ∧ Consistent g ∧
    g.lowestCommonAncestor [⟨5⟩, ⟨6⟩] = .ok (some ⟨4⟩) ∧ g.lowestCommonAncestor [⟨6⟩, ⟨5⟩, ⟨6⟩] = .ok (some ⟨4⟩) ∧
    ∀ t, (∀ s ∈ [⟨5⟩, ⟨6⟩], g.isAncestorOrSelf t s = .ok true) → g.isAncestorOrSelf t ⟨4⟩ = .ok true := by
  obtain ⟨u, h⟩ := exists_of_isOk (x := do
    let g ← wayBack
    let _ ← g.scope ⟨5⟩
    let _ ← g.scope ⟨6⟩
    let found ← g.lowestCommonAncestor [⟨5⟩, ⟨6⟩]
    if ¬found = some ⟨4⟩ then throw .endless) (by decide +kernel)
  simp only [bind_eq_ok] at h
  obtain ⟨g, hg, sc, hsc, sc', hsc', found, hfound, h⟩ := h
  split at h
  next => cases h
  next heq =>
    obtain rfl := not_not.1 heq
    obtain ⟨hr, hc⟩ := consistent_wayBack hg
    have hlive : ∀ s ∈ [⟨5⟩, ⟨6⟩], ∃ sc, g.scope s = .ok sc :=
      List.forall_mem_cons.2 ⟨⟨sc, hsc⟩, List.forall_mem_singleton.2 ⟨sc', hsc'⟩⟩
    obtain ⟨-, found, hfound', -, hlowestAncestor, hsame, -⟩ :=
        hr.lowestCommonAncestor_lowest hc (List.cons_ne_nil _ _) hlive
    cases hfound.symm.trans hfound'
    refine ⟨g, hg, hr, hc, hfound, hsame _ fun s => ?_, (hlowestAncestor _ rfl).2⟩
    simp only [List.mem_cons, List.not_mem_nil, or_false]
    tauto

end FlowGraph.Graph
