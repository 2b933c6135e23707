import FlowGraph.Proofs.Demolition
import FlowGraph.Proofs.Heads

/-!
# Who goes along with a node

The companions of a node are told from the links alone, so they stay the same while nodes move. Taking a node out
of a scope takes out exactly those that can be reached from it through companions in that scope; putting it into
one brings in exactly those that can be reached through companions that are unscoped and do not own a scope around
the target.
-/

namespace FlowGraph

def Node.ties (n : Node) : NodeKind × List Slot := (n.kind, n.slots)

namespace Graph

open Relation

def Companion (g : Graph) (a b : NodeId) : Prop :=
  ∃ n, g.nodeAt? a = some n ∧
    (n.successor? = some b ∨ b ∈ n.inputs ∧ ∃ m, g.nodeAt? b = some m ∧ m.isVariable = false)

def SameLinkage (g g' : Graph) : Prop := ∀ x, (g'.nodeAt? x).map Node.ties = (g.nodeAt? x).map Node.ties

variable {g g' : Graph} {id x y : NodeId} {s t : ScopeId} {n : Node}

theorem mem_companions_iff {cs : List NodeId} (h : g.companions x = .ok cs) : y ∈ cs ↔ Companion g x y := by
  simp only [companions, bind_eq_ok, node_eq_ok_iff, pure_eq_ok] at h
  obtain ⟨n, hn, feeding, hfeeding, rfl⟩ := h
  rw [List.mem_append, Option.mem_toList, mem_filterM_iff hfeeding]
  simp only [bind_eq_ok, node_eq_ok_iff, pure_eq_ok, Bool.not_eq_true']
  constructor
  · exact fun hy => ⟨n, hn, hy⟩
  · rintro ⟨n', hn', hy⟩
    obtain rfl := Option.some.inj (hn.symm.trans hn')
    exact hy

namespace SameLinkage

theorem rfl : SameLinkage g g := fun _ => .refl _

theorem symm (h : SameLinkage g g') : SameLinkage g' g := fun x => (h x).symm

theorem trans {g₁ g₂ g₃ : Graph} (h : SameLinkage g₁ g₂) (h' : SameLinkage g₂ g₃) : SameLinkage g₁ g₃ :=
  fun x => (h' x).trans (h x)

theorem node (h : SameLinkage g g') (hn : g.nodeAt? x = some n) :
    ∃ n', g'.nodeAt? x = some n' ∧ n'.kind = n.kind ∧ n'.slots = n.slots := by
  have hx := h x
  rw [hn, Option.map_some, Option.map_eq_some_iff] at hx
  obtain ⟨n', hn', heq⟩ := hx
  exact ⟨n', hn', Prod.mk.inj heq⟩

theorem companion (h : SameLinkage g g') (hxy : Companion g x y) : Companion g' x y := by
  obtain ⟨n, hn, hy⟩ := hxy
  obtain ⟨n', hn', -, hslots⟩ := h.node hn
  refine ⟨n', hn', ?_⟩
  have hsuccessor : n'.successor? = n.successor? := by
    simp only [Node.successor?, Node.nextSlot?, Node.filterSlots, hslots]
  have hinputs : n'.inputs = n.inputs := by simp only [Node.inputs, Node.adjacentNodes, Node.filterSlots, hslots]
  rw [hsuccessor, hinputs]
  refine hy.imp_right fun hinput => ⟨hinput.1, ?_⟩
  obtain ⟨-, m, hm, hplain⟩ := hinput
  obtain ⟨m', hm', hkind, -⟩ := h.node hm
  exact ⟨m', hm', by rw [Node.isVariable, hkind]; exact hplain⟩

theorem companion_iff (h : SameLinkage g g') : Companion g' x y ↔ Companion g x y := ⟨h.symm.companion, h.companion⟩

theorem modifyNode {f : Node → Node} (hf : ∀ n, (f n).ties = n.ties) : SameLinkage g (g.modifyNode id f) := by
  intro x
  rw [nodeAt?_modifyNode]
  split
  next =>
    cases g.nodeAt? x with
    | none => exact .refl _
    | some n => exact congrArg some (hf n)
  next => exact .refl _

theorem modifyScope (f : Scope → Scope) : SameLinkage g (g.modifyScope s f) := fun x => by rw [nodeAt?_modifyScope]

theorem propertyWritten (h : PropertyWritten id g g') : SameLinkage g g' := by
  rcases h with rfl | ⟨i, f, rfl⟩
  · exact .rfl
  · exact .modifyNode fun _ => by rfl

theorem declarationsDiffer (h : DeclarationsDiffer g g') : SameLinkage g g' := fun x => by rw [h.nodeAt?]

theorem enter (h : g.enter id s = .ok g') : SameLinkage g g' := by
  have hplace : SameLinkage g (g.place id s) := (modifyNode fun _ => by rfl).trans (modifyScope _)
  exact fun x => (declarationsDiffer (enter_eq h).1 x).trans (hplace x)

theorem leave (h : g.leave id s = .ok g') : SameLinkage g g' := by
  have hdisplace : SameLinkage g (g.displace id s) := (modifyNode fun _ => by rfl).trans (modifyScope _)
  exact fun x => (declarationsDiffer (leave_eq h).1 x).trans (hdisplace x)

end SameLinkage

/-- The nodes that go along with the first one, as they are linked in the second graph, if they are in `s` in the
first. -/
def TravelsWith (g g' : Graph) (s : ScopeId) : NodeId → NodeId → Prop :=
  ReflTransGen fun a b => Companion g' a b ∧ g.homeAt? b = some s

theorem TravelsWith.homeAt?_eq (h : TravelsWith g g' s id x) (hid : g.homeAt? id = some s) : g.homeAt? x = some s := by
  cases h with
  | refl => exact hid
  | tail _ hx => exact hx.2

structure CompanyLeaving (s : ScopeId) (id : NodeId) (g g' : Graph) : Prop where
  sameLinkage : SameLinkage g g'
  first : g'.homeAt? id = none
  homes (x : NodeId) : g'.homeAt? x = g.homeAt? x ∨ g.homeAt? x = some s ∧ g'.homeAt? x = none ∧ TravelsWith g g s id x
  closed {x y : NodeId} : x ≠ id → g.homeAt? x = some s → g'.homeAt? x = none → Companion g x y →
    g'.homeAt? y ≠ some s

structure CompanyLeft (s : ScopeId) (id : NodeId) (g g' : Graph) : Prop extends CompanyLeaving s id g g' where
  visited {y : NodeId} : Companion g id y → g'.homeAt? y ≠ some s

namespace CompanyLeaving

theorem leave (h : g.leave id s = .ok g') (hid : g.homeAt? id = some s) : CompanyLeaving s id g g' := by
  have hhomes := (leave_views h).2
  refine ⟨.leave h, by rw [hhomes, if_pos rfl], fun x => ?_, fun {x y} hx hhome hnone => ?_⟩
  · rw [hhomes]
    split
    next hx =>
      subst hx
      exact .inr ⟨hid, rfl, .refl⟩
    next => exact .inl rfl
  · rw [hhomes, if_neg hx, hhome] at hnone
    cases hnone

theorem kept (h : CompanyLeaving s id g g') (hx : g.homeAt? x ≠ some s) : g'.homeAt? x ≠ some s := by
  rcases h.homes x with hsame | ⟨-, hnone, -⟩
  · rwa [hsame]
  · rw [hnone]
    simp

theorem trans {g₁ g₂ : Graph} {c : NodeId} (h : CompanyLeaving s id g g₁) (hc : Companion g id c)
    (hhome : g₁.homeAt? c = some s) (h' : CompanyLeft s c g₁ g₂) : CompanyLeaving s id g g₂ := by
  have hback {x : NodeId} (hx : g₁.homeAt? x = some s) : g.homeAt? x = some s := by
    rcases h.homes x with hsame | ⟨hx', -⟩
    · exact hsame.symm.trans hx
    · exact hx'
  have htravelsWith {x : NodeId} (hx : TravelsWith g₁ g₁ s c x) : TravelsWith g g s id x := by
    refine .head ⟨hc, hback hhome⟩ (ReflTransGen.mono ?_ _ _ hx)
    exact fun a b hab => ⟨h.sameLinkage.companion_iff.1 hab.1, hback hab.2⟩
  refine ⟨h.sameLinkage.trans h'.sameLinkage, ?_, fun x => ?_, fun {x y} hx hhome hnone hxy => ?_⟩
  · rcases h'.homes id with hsame | ⟨-, hnone, -⟩
    · exact hsame.trans h.first
    · exact hnone
  · rcases h'.homes x with hsame | ⟨hx, hnone, hreached⟩
    · rw [hsame]
      exact h.homes x
    · exact .inr ⟨hback hx, hnone, htravelsWith hreached⟩
  · rcases h.homes x with hsame | ⟨-, hnone₁, -⟩
    · have hxy₁ := h.sameLinkage.companion hxy
      by_cases hxc : x = c
      · subst hxc
        exact h'.visited hxy₁
      · exact h'.closed hxc (hsame.trans hhome) hnone hxy₁
    · exact h'.toCompanyLeaving.kept (h.closed hx hhome hnone₁ hxy)

end CompanyLeaving

/-- The walk takes out all that it can reach. -/
theorem detachWithin_companyLeft {k : Nat} (h : detachWithin k g id s = .ok g') (hid : g.homeAt? id = some s) :
    CompanyLeft s id g g' := by
  induction k generalizing g id g' with
  | zero => cases h
  | succ k ih =>
    simp only [detachWithin, bind_eq_ok] at h
    obtain ⟨left, hleft, cs, hcs, h⟩ := h
    have hfirst := CompanyLeaving.leave hleft hid
    have hcompanion {c : NodeId} : c ∈ cs ↔ Companion g id c :=
      (mem_companions_iff hcs).trans hfirst.sameLinkage.companion_iff
    obtain ⟨hwalk, hvisited⟩ : CompanyLeaving s id g g' ∧ ∀ c ∈ cs, g'.homeAt? c ≠ some s := by
      refine foldlM_visits (P := CompanyLeaving s id g) (Q := fun c g₁ => g₁.homeAt? c ≠ some s) h hfirst ?_
      intro g₁ c hc g₂ hwalk hvisit
      simp only [bind_eq_ok, node_eq_ok_iff] at hvisit
      obtain ⟨m, hm, hvisit⟩ := hvisit
      have hhome : g₁.homeAt? c = m.scope := by rw [homeAt?, hm]; rfl
      split at hvisit
      next hthere =>
        have hrest := ih hvisit (hhome.trans hthere)
        refine ⟨hwalk.trans (hcompanion.1 hc) (hhome.trans hthere) hrest, ?_, fun b => hrest.kept⟩
        rw [hrest.first]
        simp
      next hgone =>
        obtain rfl := pure_eq_ok.1 hvisit
        exact ⟨hwalk, hhome ▸ hgone, fun _ hb => hb⟩
    exact ⟨hwalk, fun hy => hvisited _ (hcompanion.2 hy)⟩

namespace CompanyLeft

theorem homeAt?_of_travelsWith (h : CompanyLeft s id g g') (hid : g.homeAt? id = some s) (hx : TravelsWith g g s id x) :
    g'.homeAt? x = none := by
  induction hx with
  | refl => exact h.first
  | @tail a b ha hab ih =>
    have hb : g'.homeAt? b ≠ some s := by
      by_cases hfirst : a = id
      · subst hfirst
        exact h.visited hab.1
      · exact h.closed hfirst (TravelsWith.homeAt?_eq ha hid) ih hab.1
    rcases h.homes b with hsame | ⟨-, hnone, -⟩
    · exact (hb (hsame.trans hab.2)).elim
    · exact hnone

theorem homeAt?_eq_none_iff (h : CompanyLeft s id g g') (hid : g.homeAt? id = some s) :
    g'.homeAt? x = none ↔ g.homeAt? x = none ∨ TravelsWith g g s id x := by
  constructor
  · intro hnone
    rcases h.homes x with hsame | ⟨-, -, htravelsWith⟩
    · exact .inl (hsame.symm.trans hnone)
    · exact .inr htravelsWith
  · rintro (hnone | htravelsWith)
    · rcases h.homes x with hsame | ⟨-, hnone', -⟩
      · exact hsame.trans hnone
      · exact hnone'
    · exact h.homeAt?_of_travelsWith hid htravelsWith

theorem homeAt?_of_not_travelsWith (h : CompanyLeft s id g g') (hx : ¬TravelsWith g g s id x) :
    g'.homeAt? x = g.homeAt? x := by
  rcases h.homes x with hsame | ⟨-, -, htravelsWith⟩
  · exact hsame
  · exact (hx htravelsWith).elim

end CompanyLeft

theorem OwnersOnPath.carry {p : NodeId → Prop} (h : OwnersOnPath g p t) (hs : AllKept g g')
    (hhomes : ∀ x, p x → g'.homeAt? x = g.homeAt? x) : OwnersOnPath g' p t := by
  refine h.transport (fun _ _ => hs.scope_of) fun x n hn hp => ⟨hp, ?_⟩
  obtain ⟨n', hn', -⟩ := hs.node_of hn
  have hx := hhomes x hp
  rw [homeAt?, homeAt?, hn', hn] at hx
  exact ⟨n', hn', .inl hx⟩

theorem OwnersOnPath.carry_back {p : NodeId → Prop} (h : OwnersOnPath g' p t) (hs : AllKept g g')
    (hhomes : ∀ x, p x → g'.homeAt? x = g.homeAt? x) : OwnersOnPath g p t := by
  refine h.transport (fun _ _ hsc' => ?_) fun x n' hn' hp => ⟨hp, ?_⟩
  · obtain ⟨sc, hsc, hskeleton⟩ := hs.scope hsc'
    exact ⟨sc, hsc, hskeleton.symm⟩
  · obtain ⟨n, hn, -⟩ := hs.node hn'
    have hx := hhomes x hp
    rw [homeAt?, homeAt?, hn', hn] at hx
    exact ⟨n, hn, .inl hx.symm⟩

def AdmittedWith (g : Graph) (t : ScopeId) : NodeId → NodeId → Prop :=
  ReflTransGen fun a b => Companion g a b ∧ g.homeAt? b = none ∧ clear g b t

theorem AdmittedWith.homeAt?_eq (h : AdmittedWith g t id x) (hid : g.homeAt? id = none) : g.homeAt? x = none := by
  cases h with
  | refl => exact hid
  | tail _ hx => exact hx.2.1

structure CompanyEntering (t : ScopeId) (id : NodeId) (g g' : Graph) : Prop where
  sameLinkage : SameLinkage g g'
  allKept : AllKept g g'
  first : g'.homeAt? id = some t
  homes (x : NodeId) : g'.homeAt? x = g.homeAt? x ∨ g.homeAt? x = none ∧ g'.homeAt? x = some t ∧ AdmittedWith g t id x
  closed {x y : NodeId} : x ≠ id → g.homeAt? x = none → g'.homeAt? x = some t → Companion g x y →
    g'.homeAt? y = none → ¬clear g y t
  ways (p : NodeId → Prop) : OwnersOnPath g' p t ↔ OwnersOnPath g p t

structure CompanyEntered (t : ScopeId) (id : NodeId) (g g' : Graph) : Prop extends CompanyEntering t id g g' where
  visited {y : NodeId} : Companion g id y → g'.homeAt? y = none → ¬clear g y t

namespace CompanyEntering

theorem enter (h : g.enter id t = .ok g') (hn : g.nodeAt? id = some n) (hnone : n.scope = none)
    (hclear : clear g id t) : CompanyEntering t id g g' := by
  have hhomes := (enter_views h hn).2
  have hmoves : Moves always g g' := enter_moves h hn hnone trivial
  have hallKept : AllKept g g' := hmoves.changes.allKept
  have hapart {x : NodeId} (hx : x ≠ id) : g'.homeAt? x = g.homeAt? x := by rw [hhomes, if_neg hx]
  refine ⟨.enter h, hallKept, by rw [hhomes, if_pos rfl], fun x => ?_, fun {x y} hx hnone' hhome => ?_, fun p => ?_⟩
  · by_cases hx : x = id
    · subst hx
      refine .inr ⟨by rw [homeAt?, hn]; exact hnone, by rw [hhomes, if_pos rfl], .refl⟩
    · exact .inl (hapart hx)
  · rw [hapart hx, hnone'] at hhome
    cases hhome
  · have hclear' : OwnersOnPath g' (· ≠ id) t := hclear.carry hallKept fun x => hapart
    constructor
    · exact fun hp => ((hp.and hclear').carry_back hallKept fun x hx => hapart hx.2).mono fun _ => And.left
    · exact fun hp => ((hp.and hclear).carry hallKept fun x hx => hapart hx.2).mono fun _ => And.left

theorem left_behind (h : CompanyEntering t id g g') (hx : g'.homeAt? x = none) : g.homeAt? x = none := by
  rcases h.homes x with hsame | ⟨hnone, -⟩
  · exact hsame.symm.trans hx
  · exact hnone

theorem trans {g₁ g₂ : Graph} {c : NodeId} (h : CompanyEntering t id g g₁) (hc : Companion g id c)
    (hnone : g₁.homeAt? c = none) (hclear : clear g₁ c t) (h' : CompanyEntered t c g₁ g₂) :
    CompanyEntering t id g g₂ := by
  have hadmittedWith {x : NodeId} (hx : AdmittedWith g₁ t c x) : AdmittedWith g t id x := by
    refine .head ⟨hc, h.left_behind hnone, (h.ways _).1 hclear⟩ (ReflTransGen.mono ?_ _ _ hx)
    exact fun a b hab => ⟨h.sameLinkage.companion_iff.1 hab.1, h.left_behind hab.2.1, (h.ways _).1 hab.2.2⟩
  refine ⟨h.sameLinkage.trans h'.sameLinkage, h.allKept.trans h'.allKept, ?_, fun x => ?_,
    fun {x y} hx hfree hin hxy hout => ?_,
    fun p => (h'.ways p).trans (h.ways p)⟩
  · rcases h'.homes id with hsame | ⟨-, hin, -⟩
    · exact hsame.trans h.first
    · exact hin
  · rcases h'.homes x with hsame | ⟨hfree, hin, hreached⟩
    · rw [hsame]
      exact h.homes x
    · exact .inr ⟨h.left_behind hfree, hin, hadmittedWith hreached⟩
  · rcases h'.homes x with hsame | ⟨hfree₁, -, -⟩
    · exact h.closed hx hfree (hsame.symm.trans hin) hxy (h'.left_behind hout)
    · have hxy₁ := h.sameLinkage.companion hxy
      rw [clear, ← h.ways]
      by_cases hxc : x = c
      · subst hxc
        exact h'.visited hxy₁ hout
      · exact h'.closed hxc hfree₁ hin hxy₁ hout

end CompanyEntering

/-- The walk brings in all that it can reach. -/
theorem insertWithin_companyEntered {k : Nat} (h : insertWithin k g id t = .ok g') (ho : ScopesOwned g)
    (hn : g.nodeAt? id = some n) (hnone : n.scope = none) (hclear : clear g id t) : CompanyEntered t id g g' := by
  induction k generalizing g id g' n with
  | zero => cases h
  | succ k ih =>
    simp only [insertWithin, bind_eq_ok] at h
    obtain ⟨entered, hentered, cs, hcs, h⟩ := h
    have hfirst := CompanyEntering.enter hentered hn hnone hclear
    have hcompanion {c : NodeId} : c ∈ cs ↔ Companion g id c :=
      (mem_companions_iff hcs).trans hfirst.sameLinkage.companion_iff
    obtain ⟨hwalk, hvisited⟩ : CompanyEntering t id g g' ∧ ∀ c ∈ cs, g'.homeAt? c = none → ¬clear g c t := by
      refine foldlM_visits (P := CompanyEntering t id g) (Q := fun c g₁ => g₁.homeAt? c = none →
        ¬clear g c t) h hfirst ?_
      intro g₁ c hc g₂ hwalk hvisit
      simp only [bind_eq_ok, node_eq_ok_iff] at hvisit
      obtain ⟨m, hm, hvisit⟩ := hvisit
      have hhome : g₁.homeAt? c = m.scope := by rw [homeAt?, hm]; rfl
      split at hvisit
      next hscoped =>
        obtain rfl := pure_eq_ok.1 hvisit
        refine ⟨hwalk, fun hout => ?_, fun _ hb => hb⟩
        rw [← hhome, hout] at hscoped
        cases hscoped
      next hfree =>
        have hfree' : m.scope = none := by simpa using hfree
        obtain ⟨refused, hrefused, hvisit⟩ := bind_eq_ok.1 hvisit
        split at hvisit
        next hsome =>
          obtain rfl := pure_eq_ok.1 hvisit
          refine ⟨hwalk, fun _ hclear' => ?_, fun _ hb => hb⟩
          rw [OwnersOnPath.not_refused ((hwalk.ways _).2 hclear') (ho.allKept hwalk.allKept) hrefused] at hsome
          cases hsome
        next hallowed =>
          obtain rfl : refused = none := by simpa using hallowed
          have hclear₁ := clear_of_check hrefused
          have hrest := ih hvisit (ho.allKept hwalk.allKept) hm hfree' hclear₁
          refine ⟨hwalk.trans (hcompanion.1 hc) (hhome.trans hfree') hclear₁ hrest, fun hout => ?_, fun b hb hout => ?_⟩
          · cases hrest.first.symm.trans hout
          · exact hb (hrest.left_behind hout)
    exact ⟨hwalk, fun hy => hvisited _ (hcompanion.2 hy)⟩

namespace CompanyEntered

theorem homeAt?_of_admittedWith (h : CompanyEntered t id g g') (hid : g.homeAt? id = none)
    (hx : AdmittedWith g t id x) :
    g'.homeAt? x = some t := by
  induction hx with
  | refl => exact h.first
  | @tail a b ha hab ih =>
    obtain ⟨hcompanion, hfree, hclear⟩ := hab
    rcases h.homes b with hsame | ⟨-, hin, -⟩
    · have hout := hsame.trans hfree
      by_cases hfirst : a = id
      · subst hfirst
        exact (h.visited hcompanion hout hclear).elim
      · exact (h.closed hfirst (AdmittedWith.homeAt?_eq ha hid) ih hcompanion hout hclear).elim
    · exact hin

theorem homeAt?_eq_none_iff (h : CompanyEntered t id g g') (hid : g.homeAt? id = none) :
    g'.homeAt? x = none ↔ g.homeAt? x = none ∧ ¬AdmittedWith g t id x := by
  constructor
  · intro hout
    refine ⟨h.left_behind hout, fun hx => ?_⟩
    cases (h.homeAt?_of_admittedWith hid hx).symm.trans hout
  · rintro ⟨hfree, hnot⟩
    rcases h.homes x with hsame | ⟨-, -, hx⟩
    · exact hsame.trans hfree
    · exact (hnot hx).elim

end CompanyEntered

end Graph

end FlowGraph
