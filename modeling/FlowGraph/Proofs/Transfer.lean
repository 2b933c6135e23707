import FlowGraph.Proofs.Refusals
import FlowGraph.Proofs.Stranding

/-!
# Moving the content of a scope

The nodes of a scope are moved one by one, each with its company. A scope that is inside of one of these nodes cannot
take that node in, and there is at most one node of the kind. If nobody of the scope is around the target, then all
come to the target. Otherwise those that are moved before the block is reached have gone already when it is refused,
or take the block out along with them.
-/

namespace FlowGraph.Graph

open Relation

/-- Every node of the source has come to the target and none is left, or no node has moved. -/
structure AllOrNothing (g g' : Graph) (source target : ScopeId) (r : Except ScopeError Unit) : Prop where
  all : r = .ok () → source ≠ target →
    ∀ x, g'.homeAt? x ≠ some source ∧ (g.homeAt? x = some source → g'.homeAt? x = some target)
  nothing {e : ScopeError} : r = .error e → ∀ x, g'.homeAt? x = g.homeAt? x

def AroundOnly (g : Graph) (s t : ScopeId) (p : NodeId → Prop) : Prop :=
  OwnersOnPath g (fun x => g.homeAt? x = some s → p x) t

variable {g g' left : Graph} {b c x : NodeId} {s t : ScopeId} {p : NodeId → Prop} {r : Except ScopeError Unit}
  {cs : List NodeId}

namespace AroundOnly

theorem clear (h : AroundOnly g s t p) (hx : g.homeAt? x = some s) (hp : ¬p x) : clear g x t := by
  refine h.mono fun y hy hyx => ?_
  subst hyx
  exact hp (hy hx)

theorem of_clear (ht : OwnersOnPath g (fun _ => True) t) (hp : ∀ x, g.homeAt? x = some s → ¬p x → Graph.clear g x t) :
    AroundOnly g s t p := by
  have havoid : OwnersOnPath g (fun x => ¬(g.homeAt? x = some s ∧ ¬p x)) t := ht.avoid fun x hx => hp x hx.1 hx.2
  exact havoid.mono fun x hx hhome => by_contra fun hnot => hx ⟨hhome, hnot⟩

end AroundOnly

/-- Two nodes of one scope are not both around another one. -/
theorem Consistent.around_unique (hg : Consistent g) (ht : OwnersOnPath g (fun _ => True) t) (hb : g.homeAt? b = some s)
    (hx : g.homeAt? x = some s) (hblocked : ¬clear g b t) (hblocked' : ¬clear g x t) : x = b := by
  induction ht with
  | part hsc hkind _ ih =>
    exact ih (fun hclear => hblocked (.part hsc hkind hclear)) fun hclear => hblocked' (.part hsc hkind hclear)
  | @out _ sc _ hsc hkind hn _ hnone =>
    have hb' : sc.owner = b := by_contra fun hne => hblocked (.out hsc hkind hn hne hnone)
    have hx' : sc.owner = x := by_contra fun hne => hblocked' (.out hsc hkind hn hne hnone)
    exact hx'.symm.trans hb'
  | @through v u sc n hsc hkind hn _ hu _ ih =>
    have habove {o : NodeId} (ho : ¬clear g o v) : sc.owner = o ∨ ¬clear g o u := by
      by_contra hnot
      obtain ⟨hne, hclear⟩ := not_or.1 hnot
      exact ho (.through hsc hkind hn hne hu (not_not.1 hclear))
    have hthere : g.homeAt? sc.owner = some u := by rw [homeAt?, hn, Option.bind_some, hu]
    have hbeyond {o : NodeId} (ho : g.homeAt? o = g.homeAt? sc.owner) : clear g o u :=
      hg.clear_of_home (ho.trans hthere)
    rcases habove hblocked with hob | hb' <;> rcases habove hblocked' with hox | hx'
    · exact hox.symm.trans hob
    · exact (hx' (hbeyond (by rw [hob, hb, hx]))).elim
    · exact (hb' (hbeyond (by rw [hox, hb, hx]))).elim
    · exact ih hb' hx'

theorem changeScope_same (hc : g.homeAt? c = some t) (h : g.changeScope c t = .ok (g', r)) : g' = g ∧ r = .ok () := by
  obtain ⟨n, hn, hscope⟩ := homeAt?_eq_some_iff.1 hc
  simp only [changeScope, node_eq_ok_iff.2 hn, ok_bind, if_pos hscope] at h
  cases h
  exact ⟨rfl, rfl⟩

theorem changeScope_blocked (hc : g.homeAt? c = some s) (hst : s ≠ t) (hlive : ∃ sc, g.scopeAt? t = some sc)
    (hblocked : ¬clear g c t) (h : g.changeScope c t = .ok (g', r)) : g' = g ∧ r = .error (.ownInternalScope c) := by
  obtain ⟨n, hn, hscope⟩ := homeAt?_eq_some_iff.1 hc
  obtain ⟨sc, hsc⟩ := hlive
  have hother : n.scope ≠ some t := fun ht => hst (Option.some.inj (hscope.symm.trans ht))
  simp only [changeScope, node_eq_ok_iff.2 hn, ok_bind, if_neg hother] at h
  obtain ⟨refused, hrefused, h⟩ := bind_eq_ok.1 h
  have hfound := hrefused
  simp only [targetError?, scope?_eq_some_iff.2 hsc, ok_bind] at hfound
  obtain ⟨found, -, hfound⟩ := bind_eq_ok.1 hfound
  cases found with
  | false =>
    cases hfound
    exact (hblocked (clear_of_check hrefused)).elim
  | true =>
    cases hfound
    cases h
    exact ⟨rfl, rfl⟩

structure CompanyMoved (s t : ScopeId) (c : NodeId) (g left g' : Graph) : Prop where
  allKept : AllKept g left
  companyLeft : CompanyLeft s c g left
  companyEntered : CompanyEntered t c left g'

theorem changeScope_companyMoved (ho : ScopesOwned g) (hc : g.homeAt? c = some s) (hst : s ≠ t) (hclear : clear g c t)
    (h : g.changeScope c t = .ok (g', r)) : r = .ok () ∧ ∃ left, CompanyMoved s t c g left g' := by
  obtain ⟨n, hn, hscope⟩ := homeAt?_eq_some_iff.1 hc
  obtain ⟨hr, hgone⟩ := changeScope_out hclear ho hn hscope hst h
  refine ⟨hr, ?_⟩
  rcases changeScope_walks ho h with rfl | ⟨left, -, hallKept, hfree, hcompanyEntered, rfl | ⟨s', hs', hcompanyLeft⟩⟩
  · exact (hgone n hn hscope).elim
  · cases hfree.symm.trans hc
  · obtain rfl := Option.some.inj (hs'.symm.trans hc)
    exact ⟨left, hallKept, hcompanyLeft, hcompanyEntered⟩

namespace CompanyMoved

variable (h : CompanyMoved s t c g left g') (hst : s ≠ t)

include h

theorem first : g'.homeAt? c = some t := h.companyEntered.first

theorem stays (hx : g.homeAt? x ≠ some s) : left.homeAt? x = g.homeAt? x := by
  rcases h.companyLeft.homes x with hsame | ⟨hs, -⟩
  · exact hsame
  · exact (hx hs).elim

theorem arrived (hst : s ≠ t) (hx : g.homeAt? x = some t) : g'.homeAt? x = some t := by
  have hkept : left.homeAt? x = some t := by
    rw [h.stays, hx]
    rw [hx]
    exact fun he => hst (Option.some.inj he).symm
  rcases h.companyEntered.homes x with hsame | ⟨-, hin, -⟩
  · exact hsame.trans hkept
  · exact hin

include hst

theorem source (hx : g'.homeAt? x = some s) : g.homeAt? x = some s := by
  rcases h.companyEntered.homes x with hsame | ⟨-, hin, -⟩
  · rcases h.companyLeft.homes x with hsame' | ⟨hs, -⟩
    · rw [← hsame', ← hsame, hx]
    · exact hs
  · exact (hst (Option.some.inj (hx.symm.trans hin))).elim

omit hst in
theorem way_left (hway : AroundOnly g s t p) : OwnersOnPath left (fun x => g.homeAt? x = some s → p x) t := by
  refine hway.transport (fun _ _ => h.allKept.scope_of) fun x n hn hpx => ⟨hpx, ?_⟩
  obtain ⟨n', hn', -⟩ := h.allKept.node_of hn
  have hleft : left.homeAt? x = n'.scope := by rw [homeAt?, hn', Option.bind_some]
  have hbefore : g.homeAt? x = n.scope := by rw [homeAt?, hn, Option.bind_some]
  refine ⟨n', hn', ?_⟩
  rw [← hleft, ← hbefore]
  exact (h.companyLeft.homes x).imp_right fun hgone => hgone.2.1

theorem aroundOnly (hway : AroundOnly g s t p) : AroundOnly g' s t p :=
  ((h.companyEntered.ways _).2 (h.way_left hway)).mono fun _ hx hhome => hx (h.source hst hhome)

omit hst in
theorem blocked (hway : AroundOnly g s t (· = b)) (hblocked : ¬clear g b t) : ¬clear g' b t := by
  intro hclear
  have hleft : clear left b t := (h.companyEntered.ways _).1 hclear
  have hapart : OwnersOnPath left (fun x => g.homeAt? x ≠ some s ∧ x ≠ b) t := by
    refine ((h.way_left hway).and hleft).mono ?_
    rintro x ⟨honly, hne⟩
    exact ⟨fun hhome => hne (honly hhome), hne⟩
  exact hblocked ((hapart.carry_back h.allKept fun _ hx => h.stays hx.1).mono fun _ => And.right)

omit hst in
theorem keeps (hg : Consistent g) (ho : ScopesOwned g) (hway : AroundOnly g s t fun _ => False)
    (hmove : g.changeScope c t = .ok (g', r)) (hc : g.homeAt? c = some s) (hx : g.homeAt? x = some s) :
    g'.homeAt? x = some s ∨ g'.homeAt? x = some t := by
  have hkept : g'.homeAt? x ≠ none := by
    rw [Ne, changeScope_strands hg ho hmove (by simp [hx])]
    rintro ⟨s', o, ⟨hs', -, htravelsWith, t', ht', hsurrounds⟩, -⟩
    obtain rfl := Option.some.inj (hc.symm.trans hs')
    obtain rfl := Option.some.inj (h.first.symm.trans ht')
    have ht : OwnersOnPath g (fun _ => True) t := hway.mono fun _ _ => trivial
    exact (surrounds_iff ho ht).1 hsurrounds (hway.clear (TravelsWith.homeAt?_eq htravelsWith hc) id)
  rcases h.companyEntered.homes x with hsame | ⟨-, hin, -⟩
  · rcases h.companyLeft.homes x with hsame' | ⟨-, hnone, -⟩
    · exact .inl (hsame.trans (hsame'.trans hx))
    · exact (hkept (hsame.trans hnone)).elim
  · exact .inr hin

end CompanyMoved

inductive TransferRuns (s t : ScopeId) : List NodeId → Graph → Graph → Except ScopeError Unit → Prop
  | done {g : Graph} : TransferRuns s t [] g g (.ok ())
  | gone {c : NodeId} {cs : List NodeId} {g g' : Graph} {r : Except ScopeError Unit} :
      g.homeAt? c ≠ some s → TransferRuns s t cs g g' r → TransferRuns s t (c :: cs) g g' r
  | moved {c : NodeId} {cs : List NodeId} {g left g₁ g' : Graph} {r : Except ScopeError Unit} :
      g.homeAt? c = some s → clear g c t → g.changeScope c t = .ok (g₁, .ok ()) → CompanyMoved s t c g left g₁ →
      TransferRuns s t cs g₁ g' r → TransferRuns s t (c :: cs) g g' r
  | refused {c : NodeId} {cs : List NodeId} {g : Graph} :
      g.homeAt? c = some s → ¬clear g c t → TransferRuns s t (c :: cs) g g (.error (.ownInternalScope c))

theorem transferRuns_of_transfer (ho : ScopesOwned g) (hst : s ≠ t) (hlive : ∃ sc, g.scopeAt? t = some sc)
    (h : transfer s t cs g = .ok (g', r)) : TransferRuns s t cs g g' r := by
  induction cs generalizing g with
  | nil =>
    cases h
    exact .done
  | cons c cs ih =>
    simp only [transfer, bind_eq_ok, node_eq_ok_iff] at h
    obtain ⟨n, hn, h⟩ := h
    have hhome : g.homeAt? c = n.scope := by rw [homeAt?, hn, Option.bind_some]
    split at h
    next hthere =>
      obtain ⟨⟨g₁, r₁⟩, hmove, h⟩ := bind_eq_ok.1 h
      have hc := hhome.trans hthere
      by_cases hclear : clear g c t
      · obtain ⟨rfl, left, hcompanyMoved⟩ := changeScope_companyMoved ho hc hst hclear hmove
        have hallKept := (changeScope_moves (guards_clear t) hmove).changes.allKept
        obtain ⟨sc, hsc⟩ := hlive
        obtain ⟨sc₁, hsc₁, -⟩ := hallKept.scope_of hsc
        exact .moved hc hclear hmove hcompanyMoved (ih (ho.allKept hallKept) ⟨sc₁, hsc₁⟩ h)
      · obtain ⟨rfl, rfl⟩ := changeScope_blocked hc hst hlive hclear hmove
        cases h
        exact .refused hc hclear
    next hother => exact .gone (hhome ▸ hother) (ih ho hlive h)

theorem transfer_same (h : transfer t t cs g = .ok (g', r)) : g' = g ∧ r = .ok () := by
  induction cs with
  | nil =>
    cases h
    exact ⟨rfl, rfl⟩
  | cons c cs ih =>
    simp only [transfer, bind_eq_ok, node_eq_ok_iff] at h
    obtain ⟨n, hn, h⟩ := h
    split at h
    next hthere =>
      obtain ⟨⟨g₁, r₁⟩, hmove, h⟩ := bind_eq_ok.1 h
      obtain ⟨rfl, rfl⟩ := changeScope_same (homeAt?_eq_some_iff.2 ⟨n, hn, hthere⟩) hmove
      exact ih h
    next => exact ih h

namespace TransferRuns

theorem source (h : TransferRuns s t cs g g' r) (hst : s ≠ t) (hx : g'.homeAt? x = some s) : g.homeAt? x = some s := by
  induction h with
  | done => exact hx
  | gone _ _ ih => exact ih hx
  | moved _ _ _ hcompanyMoved _ ih => exact hcompanyMoved.source hst (ih hx)
  | refused => exact hx

theorem arrived (h : TransferRuns s t cs g g' r) (hst : s ≠ t) (hx : g.homeAt? x = some t) : g'.homeAt? x = some t := by
  induction h with
  | done => exact hx
  | gone _ _ ih => exact ih hx
  | moved _ _ _ hcompanyMoved _ ih => exact ih (hcompanyMoved.arrived hst hx)
  | refused => exact hx

theorem emptied (h : TransferRuns s t cs g g' (.ok ())) (hst : s ≠ t) : ∀ x ∈ cs, g'.homeAt? x ≠ some s := by
  generalize hr : (.ok () : Except ScopeError Unit) = r at h
  induction h with
  | done => exact fun x hx => nomatch hx
  | gone hc hrest ih =>
    intro x hx hhome
    rcases List.mem_cons.1 hx with rfl | hx
    · exact hc (hrest.source hst hhome)
    · exact ih hr x hx hhome
  | moved _ _ _ hcompanyMoved hrest ih =>
    intro x hx hhome
    rcases List.mem_cons.1 hx with rfl | hx
    · exact hst (Option.some.inj ((hrest.source hst hhome).symm.trans hcompanyMoved.first))
    · exact ih hr x hx hhome
  | refused => cases hr

/-- If nobody of `s` is around the target, then nobody is refused, and all come there. -/
theorem all (h : TransferRuns s t cs g g' r) (hst : s ≠ t) (hg : Consistent g) (ho : ScopesOwned g)
    (hway : AroundOnly g s t fun _ => False) :
    r = .ok () ∧ ∀ x ∈ cs, g.homeAt? x = some s → g'.homeAt? x = some t := by
  induction h with
  | done => exact ⟨rfl, fun x hx => nomatch hx⟩
  | gone hc _ ih =>
    obtain ⟨hr, hall⟩ := ih hg ho hway
    refine ⟨hr, fun x hx hhome => ?_⟩
    rcases List.mem_cons.1 hx with rfl | hx
    · exact (hc hhome).elim
    · exact hall x hx hhome
  | @moved c cs g left g₁ g' r hc _ hmove hcompanyMoved hrest ih =>
    have hchanges := (changeScope_moves (guards_clear t) hmove).changes
    obtain ⟨hr, hall⟩ := ih (hg.changes hchanges) (ho.allKept hchanges.allKept) (hcompanyMoved.aroundOnly hst hway)
    refine ⟨hr, fun x hx hhome => ?_⟩
    rcases List.mem_cons.1 hx with rfl | hx
    · exact hrest.arrived hst hcompanyMoved.first
    · -- nobody is lost, so `x` has come along already or is still to be moved
      rcases hcompanyMoved.keeps hg ho hway hmove hc hhome with hleft | hcome
      · exact hall x hx hleft
      · exact hrest.arrived hst hcome
  | refused hc hblocked => exact (hblocked (hway.clear hc id)).elim

theorem blocked (h : TransferRuns s t cs g g' r) (hst : s ≠ t) (hway : AroundOnly g s t (· = b)) (hb : ¬clear g b t) :
    ¬clear g' b t := by
  induction h with
  | done => exact hb
  | gone _ _ ih => exact ih hway hb
  | moved _ _ _ hcompanyMoved _ ih => exact ih (hcompanyMoved.aroundOnly hst hway) (hcompanyMoved.blocked hway hb)
  | refused => exact hb

theorem allOrNothing (h : TransferRuns s t cs g g' r) (hst : s ≠ t) (hg : Consistent g) (ho : ScopesOwned g)
    (hcs : ∀ x, g.homeAt? x = some s → x ∈ cs) (hway : AroundOnly g s t fun _ => False) :
    AllOrNothing g g' s t r := by
  obtain ⟨rfl, hall⟩ := h.all hst hg ho hway
  constructor
  · intro _ _ x
    constructor
    · intro hhome
      exact h.emptied hst x (hcs x (h.source hst hhome)) hhome
    · intro hhome
      exact hall x (hcs x hhome) hhome
  · rintro e ⟨⟩

/-- Whoever is moved before the block comes to the target, and the block does not. -/
theorem not_allOrNothing (h : TransferRuns s t (c :: cs) g g' r) (hst : s ≠ t) (hg : Consistent g) (hg' : Consistent g')
    (hc : g.homeAt? c = some s) (hb : g.homeAt? b = some s) (hne : c ≠ b) (hblocked : ¬clear g b t)
    (ht : OwnersOnPath g (fun _ => True) t) : ¬AllOrNothing g g' s t r := by
  have hunique {x : NodeId} (hx : g.homeAt? x = some s) (hblocked' : ¬clear g x t) : x = b :=
    hg.around_unique ht hb hx hblocked hblocked'
  have hway : AroundOnly g s t (· = b) := .of_clear ht fun x hx hother => by_contra fun h => hother (hunique hx h)
  have hblocked' : ¬clear g' b t := h.blocked hst hway hblocked
  intro hwhole
  cases h with
  | gone hother => exact hother hc
  | refused _ hrefused => exact hne (hunique hc hrefused)
  | moved _ _ _ hcompanyMoved hrest =>
    have hcome : g'.homeAt? c = some t := hrest.arrived hst hcompanyMoved.first
    cases r with
    | ok _ => exact hblocked' (hg'.clear_of_home ((hwhole.all rfl hst b).2 hb))
    | error e =>
      have hsame : g'.homeAt? c = g.homeAt? c := hwhole.nothing rfl c
      rw [hcome, hc] at hsame
      exact hst (Option.some.inj hsame).symm

theorem refused_of_blocked (h : TransferRuns s t (c :: cs) g g' r) (hc : g.homeAt? c = some s)
    (hblocked : ¬clear g c t) : r = .error (.ownInternalScope c) ∧ g' = g := by
  cases h with
  | gone hother => exact (hother hc).elim
  | moved _ hclear => exact (hblocked hclear).elim
  | refused => exact ⟨rfl, rfl⟩

theorem allOrNothing_iff (h : TransferRuns s t cs g g' r) (hst : s ≠ t) (hg : Consistent g) (hg' : Consistent g')
    (ho : ScopesOwned g) (ht : OwnersOnPath g (fun _ => True) t) (hcs : ∀ x, x ∈ cs ↔ g.homeAt? x = some s)
    (hnodup : cs.Nodup) :
    AllOrNothing g g' s t r ↔ ∀ b ∈ cs.tail, clear g b t := by
  constructor
  · intro hwhole b hb
    by_contra hblocked
    cases cs with
    | nil => cases hb
    | cons c cs =>
      have hne : c ≠ b := by
        rintro rfl
        exact (List.nodup_cons.1 hnodup).1 hb
      exact h.not_allOrNothing hst hg hg' ((hcs c).1 List.mem_cons_self) ((hcs b).1 (List.mem_of_mem_tail hb)) hne
        hblocked ht hwhole
  · intro htail
    by_cases hall : ∀ x ∈ cs, clear g x t
    · exact h.allOrNothing hst hg ho (fun x => (hcs x).2) (.of_clear ht fun x hx _ => hall x ((hcs x).2 hx))
    · cases cs with
      | nil => exact (hall fun x hx => nomatch hx).elim
      | cons c cs =>
        have hblocked : ¬clear g c t := fun hc => hall (List.forall_mem_cons.2 ⟨hc, htail⟩)
        obtain ⟨rfl, rfl⟩ := h.refused_of_blocked ((hcs c).1 List.mem_cons_self) hblocked
        constructor
        · rintro ⟨⟩
        · exact fun _ _ => rfl

end TransferRuns

variable {source target : ScopeId} {sc st : Scope}

theorem Consistent.mem_children_iff (hg : Consistent g) (hs : g.scope s = .ok sc) :
    x ∈ sc.children ↔ g.homeAt? x = some s := by
  rw [homeAt?_eq_some_iff]
  constructor
  · intro hx
    obtain ⟨n, hn, hscope⟩ := hg.child hs hx
    exact ⟨n, node_eq_ok_iff.1 hn, hscope⟩
  · rintro ⟨n, hn, hscope⟩
    exact (consistent_iff.1 hg).1.listed hn hscope (scope_eq_ok_iff.1 hs)

/-- A content moves as a whole, or stays as a whole, exactly if no node of it but the first owns a scope around the
target. None is left in the source in any case where the move returns without an error, and none has moved if it is
the first one that is around the target. -/
theorem transferChildren_allOrNothing_iff (hr : Reachable g) (hg : Consistent g) (hs : g.scope source = .ok sc)
    (ht : g.scope target = .ok st) (h : g.transferChildren source target = .ok (g', r)) :
    (AllOrNothing g g' source target r ↔ ∀ c ∈ sc.children.tail, ¬Surrounds g c target) ∧
      Consistent g' ∧ (r = .ok () → source ≠ target → ∀ x, g'.homeAt? x ≠ some source) ∧
      ∀ c, sc.children.head? = some c → Surrounds g c target → r = .error (.ownInternalScope c) ∧ g' = g := by
  have ho := hr.wellFormed.scopesOwned
  have hway : OwnersOnPath g (fun _ => True) target := parentsEnd_iff.1 (hg.parentsEnd ht)
  have hg' : Consistent g' := hg.changes (transferChildren_editMoves (guards_clear target) h).moves.changes
  have hchild {x : NodeId} : x ∈ sc.children ↔ g.homeAt? x = some source := hg.mem_children_iff hs
  have hnodup : sc.children.Nodup := ((consistent_iff.1 hg).1.scopeMatchesNodes (scope_eq_ok_iff.1 hs)).children_nodup
  simp only [surrounds_iff ho hway, not_not]
  simp only [transferChildren, hs, ok_bind] at h
  by_cases hst : source = target
  · subst hst
    have hclear {x : NodeId} (hx : x ∈ sc.children) : clear g x source := hg.clear_of_home (hchild.1 hx)
    obtain ⟨rfl, rfl⟩ := transfer_same h
    have hall : AllOrNothing g' g' source source (.ok ()) := by
      constructor
      · exact fun _ hne => (hne rfl).elim
      · intro e he
        cases he
    refine ⟨iff_of_true hall ?_, hg', fun _ hne => (hne rfl).elim, ?_⟩
    · exact fun c hc => hclear (List.mem_of_mem_tail hc)
    · exact fun c hc hblocked => (hblocked (hclear (List.mem_of_mem_head? hc))).elim
  have htransferRuns := transferRuns_of_transfer ho hst ⟨st, scope_eq_ok_iff.1 ht⟩ h
  refine ⟨htransferRuns.allOrNothing_iff hst hg hg' ho hway (fun _ => hchild) hnodup, hg', ?_, ?_⟩
  · rintro rfl - x hx
    exact htransferRuns.emptied hst x (hchild.2 (htransferRuns.source hst hx)) hx
  · intro c hc hblocked
    obtain ⟨cs, hcs⟩ := List.head?_eq_some_iff.1 hc
    rw [hcs] at htransferRuns
    exact htransferRuns.refused_of_blocked (hchild.1 (List.mem_of_mem_head? hc)) hblocked

def procession (linked : Bool) : Except Fault Graph := do
  let g ← create {} {} default {}
  let g ← g.perform (.emptyInstruction ⟨2⟩)
  let _ ← g.scope ⟨2⟩
  let g ← g.perform (.conditional .ifElse ⟨2⟩)
  (if linked then [.connect ⟨⟨3⟩, ⟨1⟩⟩ ⟨⟨4⟩, ⟨0⟩⟩ true] else []).foldlM perform g

theorem consistent_procession {linked : Bool} (h : procession linked = .ok g) : Reachable g ∧ Consistent g := by
  simp only [procession, bind_eq_ok] at h
  obtain ⟨g₀, hcreate, g₁, hahead, sc, hsc, g₂, hblock, h⟩ := h
  have h₀ := consistent_create hcreate
  have h₁ : Consistent g₁ := h₀.perform rfl (by rintro t ⟨⟩) hahead
  have h₂ : Consistent g₂ := by
    refine h₁.perform rfl ?_ hblock
    rintro _ ⟨⟩
    exact ⟨sc, hsc⟩
  refine consistent_foldlM h (.edit _ (.edit _ (.create hcreate) hahead) hblock) h₂ ?_
  cases linked with
  | false => exact fun e he => nomatch he
  | true => exact List.forall_mem_singleton.2 ⟨rfl, rfl⟩

/-- The content of the root scope is moved into a branch. Node 3 comes there in either case. Node 4 is taken out
along with it, or refused after it. -/
theorem procession_closed (linked : Bool) : ∃ g g' sc st r, procession linked = .ok g ∧
    g.scope ⟨2⟩ = .ok sc ∧ g.scope ⟨7⟩ = .ok st ∧ g.transferChildren ⟨2⟩ ⟨7⟩ = .ok (g', r) ∧ r.isOk = linked ∧
    sc.children = [⟨3⟩, ⟨4⟩] ∧ g'.homeAt? ⟨3⟩ = some ⟨7⟩ ∧ (g'.homeAt? ⟨4⟩).isNone = linked := by
  obtain ⟨u, h⟩ := exists_of_isOk (x := do
    let g ← procession linked
    let sc ← g.scope ⟨2⟩
    let _ ← g.scope ⟨7⟩
    let x ← g.transferChildren ⟨2⟩ ⟨7⟩
    if ¬(x.2.isOk = linked ∧ sc.children = [⟨3⟩, ⟨4⟩] ∧ x.1.homeAt? ⟨3⟩ = some ⟨7⟩ ∧
      (x.1.homeAt? ⟨4⟩).isNone = linked) then throw .endless) (by revert linked; decide +kernel)
  simp only [bind_eq_ok] at h
  obtain ⟨g, hg, sc, hsc, st, hst, ⟨g', r⟩, hmove, h⟩ := h
  split at h
  next => cases h
  next hfacts => exact ⟨g, g', sc, st, r, hg, hsc, hst, hmove, not_not.1 hfacts⟩

/-- It is the block behind the first node that keeps the content from moving as a whole. -/
theorem surrounds_procession : ∃ g g' sc st r, Reachable g ∧ Consistent g ∧ g.scope ⟨2⟩ = .ok sc ∧
    g.scope ⟨7⟩ = .ok st ∧ g.transferChildren ⟨2⟩ ⟨7⟩ = .ok (g', r) ∧ ∃ c ∈ sc.children.tail, Surrounds g c ⟨7⟩ := by
  obtain ⟨g, g', sc, st, r, hg, hsc, hst, hmove, hok, hchildren, hfirst, hsecond⟩ := procession_closed true
  obtain ⟨hr, hc⟩ := consistent_procession hg
  obtain ⟨u, rfl⟩ := exists_of_isOk hok
  refine ⟨g, g', sc, st, .ok u, hr, hc, hsc, hst, hmove, ?_⟩
  by_contra hnone
  have hwhole : AllOrNothing g g' ⟨2⟩ ⟨7⟩ (.ok u) :=
    (transferChildren_allOrNothing_iff hr hc hsc hst hmove).1.2 fun c hc hsurrounds => hnone ⟨c, hc, hsurrounds⟩
  have hhome : g.homeAt? ⟨4⟩ = some ⟨2⟩ := (hc.mem_children_iff hsc).1 (by simp [hchildren])
  rw [(hwhole.all rfl (by decide) ⟨4⟩).2 hhome] at hsecond
  cases hsecond

/-- A move can return without an error and leave a node in no scope, and it can move a node and return an error. -/
theorem not_allOrNothing_procession :
    (¬∀ g g' s t sc st, Reachable g → Consistent g → g.scope s = .ok sc → g.scope t = .ok st → s ≠ t →
      g.transferChildren s t = .ok (g', .ok ()) →
      ∀ x, g'.homeAt? x ≠ some s ∧ (g.homeAt? x = some s → g'.homeAt? x = some t)) ∧
    ¬∀ g g' s t sc st e, Reachable g → Consistent g → g.scope s = .ok sc → g.scope t = .ok st →
      g.transferChildren s t = .ok (g', .error e) → ∀ x, g'.homeAt? x = g.homeAt? x := by
  constructor
  · intro hall
    obtain ⟨g, g', sc, st, r, hg, hsc, hst, hmove, hok, hchildren, -, hsecond⟩ := procession_closed true
    obtain ⟨hr, hc⟩ := consistent_procession hg
    obtain ⟨⟨⟩, rfl⟩ := exists_of_isOk hok
    have hhome : g.homeAt? ⟨4⟩ = some ⟨2⟩ := (hc.mem_children_iff hsc).1 (by simp [hchildren])
    rw [(hall g g' _ _ sc st hr hc hsc hst (by decide) hmove ⟨4⟩).2 hhome] at hsecond
    cases hsecond
  · intro hnothing
    obtain ⟨g, g', sc, st, r, hg, hsc, hst, hmove, hok, hchildren, hfirst, -⟩ := procession_closed false
    obtain ⟨hr, hc⟩ := consistent_procession hg
    cases r with
    | ok u => cases hok
    | error e =>
      have hhome : g.homeAt? ⟨3⟩ = some ⟨2⟩ := (hc.mem_children_iff hsc).1 (by simp [hchildren])
      rw [hnothing g g' _ _ sc st e hr hc hsc hst hmove ⟨3⟩, hhome] at hfirst
      cases hfirst

end FlowGraph.Graph
