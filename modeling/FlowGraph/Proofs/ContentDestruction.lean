import FlowGraph.Proofs.Expressions
import FlowGraph.Proofs.Junctions

/-!
# Destroying a block with its content

The content of a block is listed before the first of it goes, and a node that is linked in the place of another one may
move meanwhile. As long as nodes take along none but those inside the block, whoever moves is on a list already.
-/

namespace FlowGraph.Graph

open Relation

variable {g g' h h' : Graph} {id a b d e x y : NodeId} {s t : ScopeId} {n : Node} {k : Nat} {begun : NodeId → Prop}
  {inner : List ScopeId}

def StaysInside (g : Graph) (id a b : NodeId) : Prop :=
  Inside g id b ∧ ∀ d, Inside g d b → d = a ∨ Inside g d a

/-- The entry point is not inside, and nodes inside have their companions inside, in blocks that they are in or own. -/
structure SelfContained (g : Graph) (id : NodeId) : Prop where
  entry : ¬Inside g id g.root
  companion {a b : NodeId} : Inside g id a → Companion g a b → StaysInside g id a b

theorem InScopeOf.eq_or_inside (ho : ScopesOwned g) (hx : InScopeOf g d x) (he : Inside g e x) :
    e = d ∨ Inside g e d := by
  obtain ⟨s, sc, hs, hsc, rfl⟩ := hx
  obtain ⟨s', hs', hsurrounds⟩ := he
  cases hs.symm.trans hs'
  clear hs hs'
  induction hsurrounds generalizing sc with
  | here hsc' howner =>
    cases hsc.symm.trans hsc'
    exact .inl howner.symm
  | up hparent hrest ih =>
    obtain ⟨sc', hsc', ⟨t, i, hkind, hp⟩ | ⟨-, n, hn, hp⟩⟩ := parentScope?_eq_ok_iff.1 hparent
    · cases (scope_eq_ok_iff.1 hsc).symm.trans hsc'
      cases hp
      obtain ⟨st, hst, howner, -⟩ := ho.whole_of_part hsc' hkind
      rw [← howner]
      exact ih _ (scope_eq_ok_iff.2 hst)
    · cases (scope_eq_ok_iff.1 hsc).symm.trans hsc'
      exact .inr ⟨_, homeAt?_eq_some_iff.2 ⟨n, hn, hp.symm⟩, hrest⟩

theorem Inside.exists_inScopeOf (ho : ScopesOwned g) (hx : Inside g id x) :
    ∃ d, InScopeOf g d x ∧ (id = d ∨ Inside g id d) := by
  have hinside := hx
  obtain ⟨s, hs, hsurrounds⟩ := hx
  have hlive : ∃ sc, g.scope s = .ok sc := by
    cases hsurrounds with
    | here hsc _ => exact ⟨_, hsc⟩
    | up hparent _ =>
      obtain ⟨sc, hsc, -⟩ := parentScope?_eq_ok_iff.1 hparent
      exact ⟨sc, scope_eq_ok_iff.2 hsc⟩
  obtain ⟨sc, hsc⟩ := hlive
  have hd : InScopeOf g sc.owner x := ⟨s, sc, hs, hsc, rfl⟩
  exact ⟨sc.owner, hd, hd.eq_or_inside ho hinside⟩

theorem ParentsWellFounded.not_inScopeOf_self (hl : ParentsWellFounded g) (ho : ScopesOwned g) : ¬InScopeOf g x x := by
  rintro ⟨s, sc, hs, hsc, rfl⟩
  obtain ⟨n, hn, hscope⟩ := homeAt?_eq_some_iff.1 hs
  rw [scope_eq_ok_iff] at hsc
  cases hkind : sc.kind with
  | internal =>
    have hparent := parentScope?_eq_ok_iff.2 ⟨sc, hsc, .inr ⟨hkind, n, hn, hscope.symm⟩⟩
    exact hl.asymmetric _ _ hparent hparent
  | partition t i =>
    obtain ⟨st, hst, howner, hinternal⟩ := ho.whole_of_part hsc hkind
    have hparent := parentScope?_eq_ok_iff.2 ⟨sc, hsc, .inl ⟨t, i, hkind, rfl⟩⟩
    exact hl.asymmetric _ _ hparent (parentScope?_eq_ok_iff.2 ⟨st, hst, .inr ⟨hinternal, n, howner ▸ hn, hscope.symm⟩⟩)

theorem Consistent.not_inside_self (hg : Consistent g) (ho : ScopesOwned g) : ¬Inside g x x := by
  rintro ⟨s, hs, hsurrounds⟩
  have hclear := hg.clear_of_home hs
  exact (surrounds_iff ho (hclear.mono fun _ _ => trivial)).1 hsurrounds hclear

theorem HasLayouts.nextSlot?_eq (hl : HasLayouts g) (hn : g.nodeAt? a = some n) {i : Nat} {slot : Slot}
    (hi : n.slots[i]? = some slot) (hflow : slot.kind = .flow) (hprimary : slot.isPrimary = true)
    (hplain : slot.isBranch = false) :
    n.nextSlot? = some slot := by
  have hmem : slot ∈ n.filterSlots .flowOut :=
    List.mem_filter.2 ⟨List.mem_of_getElem? hi, slot.hasFlags_flowOut_iff.2 ⟨hflow, hprimary⟩⟩
  obtain ⟨next, hnext⟩ := Option.isSome_iff_exists.1
    (List.find?_isSome (p := fun slot => !slot.isBranch).2 ⟨slot, hmem, by rw [hplain]; rfl⟩)
  obtain ⟨hmem', hflags⟩ := List.mem_filter.1 (List.mem_of_find?_eq_some hnext)
  obtain ⟨hflow', hprimary'⟩ := next.hasFlags_flowOut_iff.1 hflags
  obtain ⟨j, hj⟩ := List.getElem?_of_mem hmem'
  have hsecond {i : Nat} {slot : Slot} (hi : n.slots[i]? = some slot) (hflow : slot.kind = .flow)
      (hprimary : slot.isPrimary = true) (hplain : slot.isBranch = false) : i = 1 :=
    congrArg SlotId.index
      (hl.flowSlot_of_primary (r := ⟨a, ⟨i⟩⟩) (Option.bind_eq_some_iff.2 ⟨n, hn, hi⟩) hflow hprimary hplain).2
  obtain rfl := hsecond hi hflow hprimary hplain
  obtain rfl := hsecond hj hflow' hprimary' (by simpa using List.find?_some hnext)
  exact hnext.trans (hj.symm.trans hi)

theorem companion_iff_link (hw : LinksMatch g) (hl : HasLayouts g) : Companion g a b ↔
    (∃ l ∈ g.flowLinks, l.tail.node = a ∧ l.head.node = b ∧ ∃ slot, g.slotAt? l.tail = some slot ∧
    slot.isBranch = false) ∨
    ∃ l ∈ g.valueLinks, l.tail.node = b ∧ l.head.node = a ∧ ∃ m, g.nodeAt? b = some m ∧ m.isVariable = false := by
  constructor
  · rintro ⟨n, hn, hsuccessor | ⟨hinput, m, hm, hplain⟩⟩
    · obtain ⟨r, hr, rfl⟩ := Option.map_eq_some_iff.1 hsuccessor
      obtain ⟨slot, hnext, hfirst⟩ := Option.bind_eq_some_iff.1 hr
      obtain ⟨hmem, hflags⟩ := List.mem_filter.1 (List.mem_of_find?_eq_some hnext)
      obtain ⟨hflow, hprimary⟩ := slot.hasFlags_flowOut_iff.1 hflags
      obtain ⟨i, hi⟩ := List.getElem?_of_mem hmem
      have hslot : g.slotAt? ⟨a, ⟨i⟩⟩ = some slot := Option.bind_eq_some_iff.2 ⟨n, hn, hi⟩
      have hlink := hw.registered hslot (List.mem_of_mem_head? hfirst)
      rw [Slot.linkTo, if_pos hprimary, hflow] at hlink
      exact .inl ⟨_, hlink, rfl, rfl, slot, hslot, by simpa using List.find?_some hnext⟩
    · obtain ⟨l, hlink, htail, hhead⟩ := (hw.mem_inputs_iff hn).1 hinput
      exact .inr ⟨l, hlink, htail, hhead, m, hm, hplain⟩
  · rintro (⟨l, hlink, rfl, rfl, slot, hslot, hplain⟩ | ⟨l, hlink, htail, rfl, m, hm, hplain⟩)
    · obtain ⟨-, -, out, -, hout, -, hflow, -, hprimary, -, hadjacent, -⟩ := hw.joined (k := .flow) hlink
      cases hslot.symm.trans hout
      obtain ⟨n, hn, hindex⟩ := Option.bind_eq_some_iff.1 hslot
      obtain ⟨hshape, -⟩ := hl.flowSlot_of_primary hslot hflow hprimary hplain
      obtain ⟨hroom, -⟩ := hw.roomKnown hslot
      rw [show slot.capacity = 1 from congrArg Slot.capacity hshape] at hroom
      obtain ⟨r, hr⟩ := List.length_eq_one_iff.1 (Nat.le_antisymm hroom (List.length_pos_of_mem hadjacent))
      rw [hr, List.mem_singleton] at hadjacent
      refine ⟨n, hn, .inl ?_⟩
      rw [Node.successor?, hl.nextSlot?_eq hn hindex hflow hprimary hplain, Option.bind_some,
        Slot.first?, hr, hadjacent]
      rfl
    · obtain ⟨-, -, -, inp, -, hinp, -⟩ := hw.joined (k := .value) hlink
      obtain ⟨n, hn, -⟩ := Option.bind_eq_some_iff.1 hinp
      exact ⟨n, hn, .inr ⟨(hw.mem_inputs_iff hn).2 ⟨l, hlink, htail, rfl⟩, m, hm, hplain⟩⟩

/-- Companions are new only where a flow link is. -/
theorem Companion.of_steps {may : Graph → NodeId → ScopeId → Prop} (hc : Companion g' a b) (hs : LinksScopesValid g)
    (hl : HasLayouts g) (hsteps : Steps may g g') (hvalue : ∀ l ∈ g'.valueLinks, l ∈ g.valueLinks) :
    Companion g a b ∨ ∃ l ∈ g'.flowLinks, l ∉ g.flowLinks ∧ l.head.node = b := by
  obtain ⟨l, hlink, htail, hhead, slot', hslot', hplain⟩ | ⟨l, hlink, htail, hhead, m', hm', hplain⟩ :=
    (companion_iff_link (hs.steps hsteps).linksMatch (hl.steps hsteps)).1 hc
  · by_cases hold : l ∈ g.flowLinks
    · obtain ⟨slot, hslot, hshape⟩ := hsteps.shapesKept.slot hslot'
      have hsame : slot.shape.isBranch = slot'.shape.isBranch := congrArg Slot.isBranch hshape
      exact .inl ((companion_iff_link hs.linksMatch hl).2
        (.inl ⟨l, hold, htail, hhead, slot, hslot, hsame.trans hplain⟩))
    · exact .inr ⟨l, hlink, hold, hhead⟩
  · obtain ⟨m, hm, hskeleton⟩ := hsteps.survivorsKept.node hm'
    refine .inl ((companion_iff_link hs.linksMatch hl).2 (.inr ⟨l, hvalue l hlink, htail, hhead, m, hm, ?_⟩))
    rw [Node.isVariable, ← (Node.of_skeleton hskeleton).1]
    exact hplain

/-- A move changes nothing for who is not reached through companions in the same scope or in none. -/
theorem homeAt?_changeScope_of_closed {S : NodeId → Prop} {r : Except ScopeError Unit} (ho : ScopesOwned g)
    (hmove : g.changeScope id t = .ok (g', r)) (hid : S id)
    (hclosed : ∀ a b, S a → Companion g a b → g.homeAt? b = none ∨ g.homeAt? b = g.homeAt? a → S b) (hx : ¬S x) :
    g'.homeAt? x = g.homeAt? x := by
  obtain rfl | ⟨left, -, -, -, hcompanyEntered, hleft⟩ := changeScope_walks ho hmove
  · rfl
  have hsameLinkage : SameLinkage g left := by
    obtain rfl | ⟨s, -, hcompanyLeft⟩ := hleft
    · exact .rfl
    · exact hcompanyLeft.sameLinkage
  have hgone {y : NodeId} (hy : ¬S y) : left.homeAt? y = g.homeAt? y := by
    obtain rfl | ⟨s, hs, hcompanyLeft⟩ := hleft
    · rfl
    refine hcompanyLeft.homeAt?_of_not_travelsWith fun htravelsWith => hy ?_
    clear hy
    induction htravelsWith with
    | refl => exact hid
    | tail ha hab ih => exact hclosed _ _ ih hab.1 (.inr (hab.2.trans (TravelsWith.homeAt?_eq ha hs).symm))
  obtain hsame | ⟨-, -, hadmittedWith⟩ := hcompanyEntered.homes x
  · exact hsame.trans (hgone hx)
  · refine (hx ?_).elim
    clear hx
    induction hadmittedWith with
    | refl => exact hid
    | @tail a b _ hab ih =>
      by_contra hb
      exact hb (hclosed a b ih (hsameLinkage.companion_iff.1 hab.1) (.inl ((hgone hb).symm.trans hab.2.1)))

def Scheduled (g : Graph) (begun : NodeId → Prop) (x : NodeId) : Prop := ∃ d, begun d ∧ InScopeOf g d x

structure BegunFromOutside (g : Graph) (id : NodeId) (begun : NodeId → Prop) : Prop where
  within {d : NodeId} : begun d → d = id ∨ Inside g id d
  around {d e : NodeId} : begun d → Inside g e d → e = id ∨ Inside g id e → begun e

namespace BegunFromOutside

theorem first (hg : Consistent g) (ho : ScopesOwned g) : BegunFromOutside g id (· = id) := by
  refine ⟨.inl, ?_⟩
  rintro d e rfl he (rfl | hinside)
  · rfl
  · exact (hg.not_inside_self ho (hinside.trans ho he)).elim

theorem inside (hb : BegunFromOutside g id begun) (ho : ScopesOwned g) (hx : Scheduled g begun x) : Inside g id x := by
  obtain ⟨d, hd, hx⟩ := hx
  obtain rfl | hinside := hb.within hd
  · exact hx.inside
  · exact hinside.trans ho hx.inside

theorem insert (hb : BegunFromOutside g id begun) (ho : ScopesOwned g) (hx : Scheduled g begun x) :
    BegunFromOutside g id fun d => d = x ∨ begun d := by
  refine ⟨?_, ?_⟩
  · rintro d (rfl | hd)
    · exact .inr (hb.inside ho hx)
    · exact hb.within hd
  · rintro d e (rfl | hd) he hid
    · obtain ⟨d, hd, hx⟩ := hx
      obtain rfl | hinside := hx.eq_or_inside ho he
      · exact .inr hd
      · exact .inr (hb.around hd hinside hid)
    · exact .inr (hb.around hd he hid)

theorem scheduled (hb : BegunFromOutside g id begun) (ho : ScopesOwned g) (ha : Scheduled g begun a)
    (hab : StaysInside g id a b) :
    Scheduled g begun b ∨ InScopeOf g a b := by
  obtain ⟨hinside, haround⟩ := hab
  obtain ⟨e, hbe, hid⟩ := hinside.exists_inScopeOf ho
  obtain rfl | hea := haround e hbe.inside
  · exact .inr hbe
  · obtain ⟨d, hd, had⟩ := ha
    refine .inl ⟨e, ?_, hbe⟩
    obtain rfl | hed := had.eq_or_inside ho hea
    · exact hd
    · exact hb.around hd hed (hid.imp_left Eq.symm)

end BegunFromOutside

structure KeepsUnscheduled (g : Graph) (id : NodeId) (begun : NodeId → Prop) (h : Graph) : Prop where
  steps : Steps clear g h
  home {x : NodeId} : (h.nodeAt? x).isSome → ¬Scheduled g begun x → h.homeAt? x = g.homeAt? x
  owner {x d : NodeId} : (h.nodeAt? x).isSome → ¬Scheduled g begun x → InScopeOf g d x → (h.nodeAt? d).isSome
  companion {a x : NodeId} : ¬Scheduled g begun x → Inside g id a → Companion h a x → StaysInside g id a x

namespace KeepsUnscheduled

theorem start (ho : ScopesOwned g) (hself : SelfContained g id) : KeepsUnscheduled g id (fun _ => False) g := by
  refine ⟨.refl, fun _ _ => rfl, ?_, fun _ => hself.companion⟩
  rintro x d - - ⟨s, sc, -, hsc, rfl⟩
  obtain ⟨n, -, -, hn, -⟩ := ho.home (scope_eq_ok_iff.1 hsc)
  exact Option.isSome_of_mem hn

theorem mono {begun' : NodeId → Prop} (hk : KeepsUnscheduled g id begun h) (hmono : ∀ d, begun d → begun' d) :
    KeepsUnscheduled g id begun' h := by
  have hnot {x : NodeId} (hx : ¬Scheduled g begun' x) : ¬Scheduled g begun x := by
    rintro ⟨d, hd, hin⟩
    exact hx ⟨d, hmono d hd, hin⟩
  exact ⟨hk.steps, fun hlive hx => hk.home hlive (hnot hx), fun hlive hx => hk.owner hlive (hnot hx),
    fun hx => hk.companion (hnot hx)⟩

/-- A node that nobody off the lists was in a scope of may go with its links. -/
theorem onlyRemoves (hs : WellFormed g) (hl : HasLayouts g) (hk : KeepsUnscheduled g id begun h)
    (hsteps : Steps clear h h') (honlyRemoves : OnlyRemoves h h') (hflow : ∀ l ∈ h'.flowLinks, l ∈ h.flowLinks)
    (howner : ∀ x d, ¬Scheduled g begun x → InScopeOf g d x → (h.nodeAt? d).isSome → (h'.nodeAt? d).isSome) :
    KeepsUnscheduled g id begun h' := by
  have hs₁ := hs.steps hk.steps
  refine ⟨hk.steps.trans hsteps, fun hlive hx => ?_, fun {x d} hlive hx hd => ?_, fun hx ha hc => ?_⟩
  · exact (honlyRemoves.homes hlive).trans (hk.home (honlyRemoves.toSurvivorsKept.isSome hlive) hx)
  · exact howner x d hx hd (hk.owner (honlyRemoves.toSurvivorsKept.isSome hlive) hx hd)
  · have hvalue (l : Link) (hlink : l ∈ h'.valueLinks) : l ∈ h.valueLinks :=
      ((honlyRemoves.linksOfSurvivors l).1 hlink).1
    obtain hold | ⟨l, hlink, hnew, -⟩ := hc.of_steps hs₁.toLinksScopesValid (hl.steps hk.steps) hsteps hvalue
    · exact hk.companion hx ha hold
    · exact (hnew (hflow l hlink)).elim

theorem scope_of_owner (ho : ScopesOwned g) (ho' : ScopesOwned h) (hsurvivorsKept : SurvivorsKept g h) {sc : Scope}
    (hsc : g.scopeAt? s = some sc) (hm : (h.nodeAt? sc.owner).isSome) :
    ∃ sc', h.scopeAt? s = some sc' ∧ sc'.owner = sc.owner := by
  obtain ⟨m, hm⟩ := Option.isSome_iff_exists.1 hm
  obtain ⟨n, i, si, hn, hi, hsi, -⟩ := ho.home hsc
  have hinner : g.innerScopes sc.owner = .ok (i :: si.partitions) :=
    innerScopes_eq_ok_iff.2 ⟨n, hn, .inr ⟨i, si, hi, hsi, rfl⟩⟩
  exact ho'.live_of_inner (ho'.innerScopes_of_survivorsKept hsurvivorsKept hinner hm)
    ((ho.mem_innerScopes hinner hsc).2 rfl)

theorem destroy_inputs {inputs : List NodeId} (hs : WellFormed g) (hl : HasLayouts g)
    (hk : KeepsUnscheduled g id begun h) (hn : h.nodeAt? x = some n) (hprivate : h.privateInputs n = .ok inputs)
    (hinputs : inputs.foldlM (destroyWithin true k) h = .ok h') (hsteps : Steps clear h h') :
    KeepsUnscheduled g id begun h' := by
  have hs₁ := hs.steps hk.steps
  have hl₁ := hl.steps hk.steps
  obtain ⟨hinputsRemoved, -⟩ := DestroyAvoidsCircles.inputsRemoved (destroyAvoidsCircles k) hs₁ hl₁
      (fun y => (hs₁.linksMatch.mem_privateInputs_iff hn hprivate).1) hinputs
  refine hk.onlyRemoves hs hl hsteps hinputsRemoved.toOnlyRemoves (fun l => (hinputsRemoved.flow l).1)
    fun y d _ hd hlive => ?_
  by_contra hgone
  obtain ⟨c, -, hcd⟩ := TransGen.tail'_iff.1 (hinputsRemoved.of_gone hlive (Option.not_isSome_iff_eq_none.1 hgone))
  obtain ⟨m, hm, hplain, -⟩ := hcd.isExpression hl₁ hs₁.linksMatch
  obtain ⟨s, sc, -, hsc, rfl⟩ := hd
  obtain ⟨n, i, -, hn, hi, -⟩ := hs.scopesOwned.home (scope_eq_ok_iff.1 hsc)
  obtain ⟨n', hn', hskeleton⟩ := hk.steps.survivorsKept.node hm
  cases hn.symm.trans hn'
  cases hplain.symm.trans ((Node.of_skeleton hskeleton).2.2.trans hi)

/-- The content of a block is on lists when the block has been begun, and all of it goes before the block does. -/
theorem destroy_content {content : List (List NodeId)} {h₁ h₂ h₃ : Graph} (hs : WellFormed g) (hl : HasLayouts g)
    (hself : SelfContained g id) (hb : BegunFromOutside g id fun d => d = x ∨ begun d)
    (hrec : ∀ {h h' : Graph} {c : NodeId}, KeepsUnscheduled g id (fun d => d = x ∨ begun d) h →
      Scheduled g (fun d => d = x ∨ begun d) c → destroyWithin true k h c = .ok h' →
      KeepsUnscheduled g id (fun d => d = x ∨ begun d) h')
    (hk : KeepsUnscheduled g id begun h₁) (hinner : h.innerScopes x = .ok inner)
    (hlisted : inner.mapM (fun s => do return (← h₁.scope s).children) = .ok content)
    (hcontent : content.flatten.foldlM (destroyWithin true k) h₁ = .ok h₂) (hremove : h₂.remove x inner = .ok h₃)
    (hsteps₁ : Steps clear h h₁) (hsteps₂ : Steps clear h₁ h₂) (hsteps₃ : Steps clear h₂ h₃) :
    KeepsUnscheduled g id begun h₃ := by
  have hs₁ := hs.steps hk.steps
  have hinner := innerScopes_of_remove hs₁.scopesOwned hsteps₁.survivorsKept hsteps₂.survivorsKept hinner hremove
  have hmem {y : NodeId} : y ∈ content.flatten ↔ InScopeOf h₁ x y := mem_content_iff hs₁.toRecordsValid hinner hlisted
  have hscheduled (c : NodeId) (hc : c ∈ content.flatten) : Scheduled g (fun d => d = x ∨ begun d) c := by
    by_contra hnot
    obtain ⟨s, sc, hhome, hsc, howner⟩ := hmem.1 hc
    obtain ⟨m, hm, -⟩ := homeAt?_eq_some_iff.1 hhome
    obtain ⟨sc', hsc', hskeleton⟩ := hk.steps.survivorsKept.scope (scope_eq_ok_iff.1 hsc)
    have hsame := (hk.mono fun _ => .inr).home (Option.isSome_of_mem hm) hnot
    exact hnot ⟨x, .inl rfl, s, sc', hsame.symm.trans hhome, scope_eq_ok_iff.2 hsc',
      (Scope.of_skeleton hskeleton).1.symm.trans howner⟩
  obtain ⟨hk₂, hgone⟩ : KeepsUnscheduled g id (fun d => d = x ∨ begun d) h₂ ∧ ∀ c ∈ content.flatten,
      h₂.nodeAt? c = none := by
    refine foldlM_visits (P := KeepsUnscheduled g id fun d => d = x ∨ begun d) (Q :=
      fun c h => h.nodeAt? c = none) hcontent
      (hk.mono fun _ => .inr) fun f c hc f' hkept hdestroy => ?_
    have hsf := hs.steps hkept.steps
    refine ⟨hrec hkept (hscheduled c hc) hdestroy,
      nodeAt?_destroyWithin hsf.toLinksScopesValid ?_ hdestroy, fun b => ?_⟩
    · rw [hkept.steps.survivorsKept.root]
      rintro rfl
      exact hself.entry (hb.inside hs.scopesOwned (hscheduled _ hc))
    · exact (destroyWithin_steps guards_clear hsf.toLinksScopesValid hdestroy).survivorsKept.gone
  have hs₂ := hs.steps hk₂.steps
  have hlive {y : NodeId} : (h₃.nodeAt? y).isSome ↔ y ≠ x ∧ (h₂.nodeAt? y).isSome := isSome_remove hremove y
  have hk₃ : KeepsUnscheduled g id (fun d => d = x ∨ begun d) h₃ := by
    refine hk₂.onlyRemoves hs hl hsteps₃ ⟨hsteps₃.survivorsKept, linksOfSurvivors_remove hs₂.linksMatch hremove .value,
      fun hy => homeAt?_remove hs₂.linksMatch hremove (hlive.1 hy).1⟩ (fun l hlink => ?_)
        fun y d hy hd hd₂ => hlive.2 ⟨?_, hd₂⟩
    · exact ((linksOfSurvivors_remove hs₂.linksMatch hremove .flow l).1 hlink).1
    · rintro rfl
      exact hy ⟨d, .inl rfl, hd⟩
  -- who is left was in no scope of the block, unless on a list before
  have hlist {y : NodeId} (hy : (h₃.nodeAt? y).isSome) (hnot : ¬Scheduled g begun y) :
      ¬Scheduled g (fun d => d = x ∨ begun d) y := by
    rintro ⟨d, rfl | hd, hin⟩
    · have hy₂ : (h₂.nodeAt? y).isSome := (hlive.1 hy).2
      have hy₁ := hsteps₂.survivorsKept.isSome hy₂
      obtain ⟨s, sc, hhome, hsc, rfl⟩ := hin
      obtain ⟨sc', hsc', howner⟩ :=
          scope_of_owner hs.scopesOwned hs₁.scopesOwned hk.steps.survivorsKept (scope_eq_ok_iff.1 hsc)
        (hk.owner hy₁ hnot ⟨s, sc, hhome, hsc, rfl⟩)
      have hin₁ : InScopeOf h₁ sc.owner y := ⟨s, sc', (hk.home hy₁ hnot).trans hhome, scope_eq_ok_iff.2 hsc', howner⟩
      rw [hgone y (hmem.2 hin₁)] at hy₂
      cases hy₂
    · exact hnot ⟨d, hd, hin⟩
  refine ⟨hk₃.steps, fun hy hnot => hk₃.home hy (hlist hy hnot), fun hy hnot => hk₃.owner hy (hlist hy hnot),
    fun {a y} hnot ha hc => hk₃.companion (hlist ?_ hnot) ha hc⟩
  obtain ⟨m, hm⟩ := node_of_companion (hs.steps hk₃.steps).linksMatch hc
  exact Option.isSome_of_mem hm

/-- Nobody stays in a scope of their own, so who is in a scope of a node does not come along with it. -/
theorem apart (hs : WellFormed g) (hl : ParentsWellFounded g) (hk : KeepsUnscheduled g id begun h)
    (hout : ¬Scheduled g begun b) (hin : InScopeOf g a b) (hc : Companion h a b) :
    ¬(h.homeAt? b = none ∨ h.homeAt? b = h.homeAt? a) := by
  have hs₁ := hs.steps hk.steps
  obtain ⟨m, hm⟩ := node_of_companion hs₁.linksMatch hc
  have ⟨n, hn, _⟩ := hc
  obtain ⟨s, sc, hhome, hsc, rfl⟩ := hin
  rw [hk.home (Option.isSome_of_mem hm) hout, hhome]
  rintro (hnone | hsame)
  · cases hnone
  · obtain ⟨sc', hsc', howner⟩ := scope_of_owner hs.scopesOwned hs₁.scopesOwned hk.steps.survivorsKept
        (scope_eq_ok_iff.1 hsc) (Option.isSome_of_mem hn)
    exact (hl.steps hk.steps).not_inScopeOf_self hs₁.scopesOwned ⟨s, sc', hsame.symm, scope_eq_ok_iff.2 hsc', howner⟩

theorem relink {slots : Option (SlotRef × SlotRef)} (hs : WellFormed g) (hl : HasLayouts g) (hg : Consistent g)
    (hb : BegunFromOutside g id begun) (hk : KeepsUnscheduled g id begun h) (hbypassFlows : h.BypassFlows slots)
    (hhead : ∀ a b, slots = some (a, b) → (h.nodeAt? b.node).isSome → Scheduled g begun b.node)
    (hrelink : h.relink slots = .ok h') : KeepsUnscheduled g id begun h' := by
  have hsteps : Steps clear h h' := (relink_changes guards_clear hrelink).steps
  have hs₁ := hs.steps hk.steps
  have hl₁ := hl.steps hk.steps
  obtain rfl | ⟨l, rfl, hflow, hvalid, hmoved⟩ := relink_flow hbypassFlows hrelink
  · exact hk
  obtain ⟨slot, hslot⟩ : ∃ slot, h.slotAt? l.head = some slot := by
    obtain ⟨-, slot, -, hslot, -⟩ := validateLink_eq_ok_iff.1 hvalid
    exact ⟨slot, hslot⟩
  obtain ⟨m, hm, -⟩ := Option.bind_eq_some_iff.1 hslot
  have hhead : Scheduled g begun l.head.node := hhead _ _ rfl (Option.isSome_of_mem hm)
  have hlinks (k : SlotKind) : h'.links k = (h.addLink l).links k :=
    links_moves (onFlowConnected_editMoves guards_clear hmoved).moves k
  have hadd : Steps clear h (h.addLink l) := Changes.steps (.single (.link hvalid))
  have hold {f : Graph} {a b : NodeId} (hsteps : Steps clear h f) (hsame : ∀ k, f.links k = (h.addLink l).links k)
      (hbout : ¬Scheduled g begun b) (hc : Companion f a b) : Companion h a b := by
    have hvalue (l' : Link) (hlink : l' ∈ f.links .value) : l' ∈ h.links .value := by
      rwa [hsame, links_addLink, hflow, if_neg SlotKind.noConfusion] at hlink
    obtain hold | ⟨l', hlink, hnew, rfl⟩ := hc.of_steps hs₁.toLinksScopesValid hl₁ hsteps hvalue
    · exact hold
    have hlink : l' ∈ f.links .flow := hlink
    rw [hsame, links_addLink, if_pos hflow.symm, List.mem_append, List.mem_singleton] at hlink
    obtain hlink | rfl := hlink
    · exact (hnew hlink).elim
    · exact (hbout hhead).elim
  have hhome {y : NodeId} (hy : ¬Scheduled g begun y) : h'.homeAt? y = h.homeAt? y := by
    obtain ⟨tails, -, moved, hmovedOrSame, hlead⟩ := onFlowConnected_eq hmoved
    have hlast : h'.homeAt? y = moved.homeAt? y := by
      obtain rfl | ⟨target, -, -, -, hreset⟩ := hlead
      · rfl
      · obtain ⟨head, -, hreset⟩ := bind_eq_ok.1 hreset
        cases hreset
        exact homeAt?_lead head y
    refine hlast.trans (Eq.trans ?_ ((sameFrames_addLink h l).homeAt? y))
    obtain rfl | ⟨t, r, hchange⟩ := hmovedOrSame
    · rfl
    refine homeAt?_changeScope_of_closed (S := Scheduled g begun) (hs₁.steps hadd).scopesOwned hchange hhead
      (fun a b ha hc hb' => ?_) hy
    by_contra hbout
    have hc := hold hadd (fun _ => rfl) hbout hc
    obtain hin | hin := hb.scheduled hs.scopesOwned ha (hk.companion hbout (hb.inside hs.scopesOwned ha) hc)
    · exact hbout hin
    · rw [(sameFrames_addLink h l).homeAt?, (sameFrames_addLink h l).homeAt?] at hb'
      exact hk.apart hs (consistent_iff.1 hg).2.parentsWellFounded hbout hin hc hb'
  refine ⟨hk.steps.trans hsteps, fun hlive hy => ?_, fun hlive hy hd => ?_, fun hy ha hc => ?_⟩
  · exact (hhome hy).trans (hk.home (hsteps.survivorsKept.isSome hlive) hy)
  · rw [(relink_changes guards_clear hrelink).allKept.isSome_iff]
    exact hk.owner (hsteps.survivorsKept.isSome hlive) hy hd
  · exact hk.companion hy ha (hold hsteps hlinks hy hc)

theorem companion_of_bypass (hn : g.nodeAt? x = some n) {p q : SlotRef} (h : bypass n = some (p, q)) :
    Companion g x q.node := by
  simp only [bypass, Option.bind_eq_bind, Option.bind_eq_some_iff] at h
  obtain ⟨_, -, _, ⟨slot, hnext, hsingle⟩, hpair⟩ := h
  cases hpair
  obtain ⟨-, hq⟩ := Option.ite_none_right_eq_some.1 hsingle
  refine ⟨n, hn, .inl ?_⟩
  rw [Node.successor?, hnext, Option.bind_some, hq]
  rfl

theorem destroy (hs : WellFormed g) (hl : HasLayouts g) (hg : Consistent g) (hself : SelfContained g id)
    (hb : BegunFromOutside g id begun) (hk : KeepsUnscheduled g id begun h) (hx : Scheduled g begun x)
    (hdestroy : destroyWithin true k h x = .ok h') :
    KeepsUnscheduled g id begun h' := by
  induction k generalizing begun h x h' with
  | zero => cases hdestroy
  | succ k ih =>
    have hs₁ := hs.steps hk.steps
    obtain ⟨-, rfl⟩ | ⟨n, inner, inputs, content, h₁, h₂, h₃, -, hn, hinner, ⟨hprivate, hinputs, heditSteps₁⟩,
      ⟨hlisted, hcontent, heditSteps₂⟩, ⟨hremove, heditSteps₃⟩, hrelink, hbypassFlows⟩ :=
      destroyWithin_deep guards_clear hs₁.toLinksScopesValid hdestroy
    · exact hk
    have hk₁ := hk.destroy_inputs hs hl hn hprivate hinputs heditSteps₁.steps
    have hb' := hb.insert hs.scopesOwned hx
    have hk₃ : KeepsUnscheduled g id begun h₃ :=
      hk₁.destroy_content hs hl hself hb' (fun hk hx hdestroy => ih hb' hk hx hdestroy) hinner hlisted hcontent hremove
        heditSteps₁.steps heditSteps₂.steps heditSteps₃.steps
    refine hk₃.relink hs hl hg hb hbypassFlows (fun p q hslots hlive => ?_) hrelink
    have hc : Companion h x q.node := companion_of_bypass hn hslots
    by_contra hout
    obtain hin | hin := hb.scheduled hs.scopesOwned hx (hk.companion hout (hb.inside hs.scopesOwned hx) hc)
    · exact hout hin
    · have := hk₃.owner hlive hout hin
      exact ((isSome_remove hremove x).1 this).1 rfl

theorem nodeScopesLive (hs : WellFormed g) (hg : Consistent g) (hk : KeepsUnscheduled g id (fun _ => False) h) :
    NodeScopesLive h := by
  intro x m t hm ht
  have hx : ¬Scheduled g (fun _ => False) x := fun ⟨_, hd, _⟩ => hd
  have hlive := Option.isSome_of_mem (node_eq_ok_iff.1 hm)
  have hhome : g.homeAt? x = some t :=
    (hk.home hlive hx).symm.trans (homeAt?_eq_some_iff.2 ⟨m, node_eq_ok_iff.1 hm, ht⟩)
  obtain ⟨n, hn, hscope⟩ := homeAt?_eq_some_iff.1 hhome
  obtain ⟨sc, hsc, -⟩ := hg.placed (node_eq_ok_iff.2 hn) hscope
  obtain ⟨sc', hsc', -⟩ :=
      scope_of_owner hs.scopesOwned (hs.steps hk.steps).scopesOwned hk.steps.survivorsKept (scope_eq_ok_iff.1 hsc)
    (hk.owner hlive hx ⟨t, sc, hhome, hsc, rfl⟩)
  exact ⟨sc', scope_eq_ok_iff.2 hsc'⟩

end KeepsUnscheduled

theorem SelfContained.consistent_destroy (hself : SelfContained g id) (hs : WellFormed g) (hl : HasLayouts g)
    (hg : Consistent g) (hdestroy : g.destroy id true = .ok g') : Consistent g' := by
  obtain ⟨k, hdestroy⟩ := destroyWithin_of_destroy hdestroy
  obtain ⟨-, rfl⟩ | ⟨n, inner, inputs, content, g₁, g₂, g₃, -, hn, hinner, ⟨hprivate, hinputs, heditSteps₁⟩,
    ⟨hlisted, hcontent, heditSteps₂⟩, ⟨hremove, heditSteps₃⟩, hrelink, -⟩ :=
    destroyWithin_deep guards_clear hs.toLinksScopesValid hdestroy
  · exact hg
  have hk₁ := (KeepsUnscheduled.start hs.scopesOwned hself).destroy_inputs hs hl hn hprivate hinputs heditSteps₁.steps
  have hb : BegunFromOutside g id fun d => d = id ∨ False := by
    simpa only [or_false] using BegunFromOutside.first hg hs.scopesOwned
  have hk₃ :=
    hk₁.destroy_content hs hl hself hb (fun hk => hk.destroy hs hl hg hself hb) hinner hlisted hcontent hremove
    heditSteps₁.steps heditSteps₂.steps heditSteps₃.steps
  have hg₃ : Consistent g₃ := by
    refine ((hs.steps hk₃.steps).toRecordsValid.consistent_iff ?_).2 (hk₃.nodeScopesLive hs hg)
    exact (consistent_iff.1 hg).2.parentsWellFounded.steps hk₃.steps
  exact hg₃.changes (relink_changes guards_clear hrelink)

/-- All that a destruction can do to a consistent graph is to leave nodes in scopes that have gone, and it does
not do so unless it takes the content of a block along that has companions outside. -/
theorem consistent_destroy_iff {sideEffects : Bool} (hr : Reachable g) (h : Consistent g)
    (hdestroy : g.destroy id sideEffects = .ok g') :
    (Consistent g' ↔ NodeScopesLive g') ∧
      (∀ n, g.node id = .ok n → n.internalScope = none → Consistent g') ∧
      (∀ n r, sideEffects = false → g.node id = .ok n → g.node g.root = .ok r →
        n.scope ≠ none ∨ r.scope = none → Consistent g') ∧
      (sideEffects = true → SelfContained g id → Consistent g') := by
  have hs := hr.wellFormed.toRecordsValid
  have hsteps := destroy_steps guards_clear hs.toLinksScopesValid hdestroy
  refine ⟨(hs.steps hsteps).consistent_iff ((consistent_iff.1 h).2.parentsWellFounded.steps hsteps), ?_, ?_, ?_⟩
  · intro n hn hplain
    refine h.destroyWithin hs.toLinksScopesValid hr.hasLayouts (fun m hm => ?_) hdestroy
    obtain rfl := Option.some.inj ((node_eq_ok_iff.1 hn).symm.trans hm)
    exact hplain
  · rintro n r rfl hn hroot htop
    exact h.destroy_raw hs hr.hasLayouts (node_eq_ok_iff.1 hn) (node_eq_ok_iff.1 hroot) htop hdestroy
  · rintro rfl hself
    exact hself.consistent_destroy hr.wellFormed hr.hasLayouts h hdestroy

/-- An `if` is node 3, with the partitions 5 and 6. Nodes 7 and 8 are in the second one, one after the other. -/
def closedBranch : Except Fault Graph := do
  let g ← create {} {} default {}
  let s ← g.rootScope
  let _ ← g.scope s
  let g ← g.perform (.conditional .ifElse s)
  [.emptyInstruction ⟨6⟩, .connect ⟨⟨3⟩, ⟨3⟩⟩ ⟨⟨7⟩, ⟨0⟩⟩ true, .emptyInstruction ⟨6⟩,
    .connect ⟨⟨7⟩, ⟨1⟩⟩ ⟨⟨8⟩, ⟨0⟩⟩ true].foldlM perform g

theorem consistent_closedBranch (h : closedBranch = .ok g) : Reachable g ∧ Consistent g := by
  simp only [closedBranch, bind_eq_ok] at h
  obtain ⟨g₀, hcreate, s, -, sc, hsc, g₁, hblock, h⟩ := h
  have h₁ : Consistent g₁ := by
    refine (consistent_create hcreate).perform rfl ?_ hblock
    rintro _ ⟨⟩
    exact ⟨sc, hsc⟩
  refine consistent_foldlM h (.edit _ (.create hcreate) hblock) h₁ fun e he => ?_
  simp only [List.mem_cons, List.not_mem_nil, or_false] at he
  rcases he with rfl | rfl | rfl | rfl <;> exact ⟨rfl, rfl⟩

theorem selfContained_of_sameHome (hroot : g.homeAt? g.root = none)
    (h : ∀ a b, Companion g a b → g.homeAt? b = g.homeAt? a) : SelfContained g id := by
  refine ⟨?_, fun {a b} ha hc => ?_⟩
  · rintro ⟨s, hs, -⟩
    cases hroot.symm.trans hs
  · have hinside {d : NodeId} : Inside g d b ↔ Inside g d a := by rw [Inside, Inside, h a b hc]
    exact ⟨hinside.2 ha, fun d hd => .inr (hinside.1 hd)⟩

/-- Brought out by a raw destruction, nobody is left behind, and neither is anybody of a branch that all of goes. -/
theorem consistent_destroy_branches :
    (∃ g g', openBranch = .ok g ∧ Reachable g ∧ Consistent g ∧ g.destroy ⟨3⟩ false = .ok g' ∧ Consistent g') ∧
    ∃ g g', closedBranch = .ok g ∧ Reachable g ∧ Consistent g ∧ SelfContained g ⟨3⟩ ∧ g.destroy ⟨3⟩ true = .ok g' ∧
      Consistent g' := by
  constructor
  · obtain ⟨g', h⟩ := exists_of_isOk (x := do
      let g ← openBranch
      let n ← g.node ⟨3⟩
      let _ ← g.node g.root
      if n.scope = none then throw .endless
      g.destroy ⟨3⟩ false) (by decide +kernel)
    simp only [bind_eq_ok] at h
    obtain ⟨g, hg, n, hn, r, hr, h⟩ := h
    split at h
    next => cases h
    next hscoped =>
      obtain ⟨hreachable, hconsistent⟩ := consistent_openBranch hg
      exact ⟨g, g', hg, hreachable, hconsistent, h,
        (consistent_destroy_iff hreachable hconsistent h).2.2.1 n r rfl hn hr (.inl hscoped)⟩
  · obtain ⟨g', h⟩ := exists_of_isOk (x := do
      let g ← closedBranch
      let alike ← g.nodes.mapM fun a => do return (← g.companions a).all fun b => g.homeAt? b = g.homeAt? a
      if ¬(g.homeAt? g.root = none ∧ alike.all id) then throw .endless
      g.destroy ⟨3⟩ true) (by decide +kernel)
    simp only [bind_eq_ok] at h
    obtain ⟨g, hg, alike, hsameFrames, h⟩ := h
    split at h
    next => cases h
    next hfacts =>
      obtain ⟨hroot, hall⟩ := not_not.1 hfacts
      obtain ⟨hreachable, hconsistent⟩ := consistent_closedBranch hg
      have hself : SelfContained g ⟨3⟩ := by
        refine selfContained_of_sameHome hroot fun a b hc => ?_
        have ⟨n, hn, _⟩ := hc
        obtain ⟨same, hmem, hsame⟩ :=
          exists_of_mem_mapM hsameFrames (hreachable.wellFormed.nodesListed.mem_nodes_iff.2 (Option.isSome_of_mem hn))
        obtain ⟨cs, hcs, hsame⟩ := bind_eq_ok.1 hsame
        cases hsame
        have htrue := List.all_eq_true.1 (List.all_eq_true.1 hall _ hmem) b ((mem_companions_iff hcs).2 hc)
        exact of_decide_eq_true htrue
      exact ⟨g, g', hg, hreachable, hconsistent, hself, h,
        (consistent_destroy_iff hreachable hconsistent h).2.2.2 rfl hself⟩

/-- With side effects node 8 is linked in the place of node 7, and comes to be in scope 6. -/
theorem not_consistent_openBranch : ∃ g g' n, openBranch = .ok g ∧ Reachable g ∧ Consistent g ∧
    g.destroy ⟨3⟩ true = .ok g' ∧ g'.node ⟨8⟩ = .ok n ∧ n.scope = some ⟨6⟩ ∧ ¬Consistent g' := by
  obtain ⟨n, h⟩ := exists_of_isOk (x := do
    let g ← openBranch
    let g' ← g.destroy ⟨3⟩ true
    let n ← g'.node ⟨8⟩
    if n.scope ≠ some ⟨6⟩ ∨ (g'.scope ⟨6⟩).isOk then throw .endless
    return n) (by decide +kernel)
  simp only [bind_eq_ok] at h
  obtain ⟨g, hg, g', hdestroy, m, hm, h⟩ := h
  split at h
  next => cases h
  next hscope =>
    obtain ⟨hscope, hgone⟩ := not_or.1 hscope
    rw [not_not] at hscope
    obtain ⟨hreachable, hconsistent⟩ := consistent_openBranch hg
    refine ⟨g, g', m, hg, hreachable, hconsistent, hdestroy, hm, hscope, fun h' => hgone ?_⟩
    obtain ⟨sc, hsc⟩ := h'.nodeScopesLive _ m _ hm hscope
    rw [hsc]
    rfl

end FlowGraph.Graph
