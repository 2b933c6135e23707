import FlowGraph.Proofs.Gates

/-!
# Heads

A scope keeps its head, the node that its backbone starts at, while its branch slot can be linked anew at any time.
With side effects the head is never a wrong one: it is what the branch leads to, or there is none. It is recorded when
the branch is linked to a node that nothing else leads to, and only then. So a node that had another predecessor is not
the head, although the branch leads to it, and its scope has an empty backbone.
-/

namespace FlowGraph.Graph

open Relation

variable {may : Graph → NodeId → ScopeId → Prop} {g g' : Graph} {id x : NodeId} {s t : ScopeId} {n : Node} {l : Link}

/-- The head that a scope has recorded. -/
def headAt? (g : Graph) (s : ScopeId) : Option NodeId := (g.scopeAt? s).bind (·.head)

theorem SameFrames.headAt? (h : SameFrames g g') (s : ScopeId) : g'.headAt? s = g.headAt? s := by
  rw [Graph.headAt?, h.scopes, Graph.headAt?]

theorem SameFrames.homeAt? (h : SameFrames g g') (x : NodeId) : g'.homeAt? x = g.homeAt? x := by
  have hframe (g : Graph) : g.homeAt? x = ((g.nodeAt? x).map Node.frame).bind (·.scope) := by
    rw [Graph.homeAt?]
    cases g.nodeAt? x <;> rfl
  rw [hframe, h.nodes, ← hframe]

theorem DeclarationsDiffer.headAt? (h : DeclarationsDiffer g g') (s : ScopeId) : g'.headAt? s = g.headAt? s := by
  have hdeclared (g : Graph) : g.headAt? s = ((g.scopeAt? s).map ({ · with declared := [] })).bind (·.head) := by
    rw [Graph.headAt?]
    cases g.scopeAt? s <;> rfl
  rw [hdeclared, h.scopeAt?, ← hdeclared]

theorem DeclarationsDiffer.homeAt? (h : DeclarationsDiffer g g') (x : NodeId) : g'.homeAt? x = g.homeAt? x := by
  rw [Graph.homeAt?, h.nodeAt?, Graph.homeAt?]

theorem headAt?_lead (head : Option NodeId) (s : ScopeId) :
    (g.modifyScope t ({ · with head })).headAt? s =
      if s = t then (g.scopeAt? t).bind fun _ => head else g.headAt? s := by
  rw [headAt?, scopeAt?_modifyScope]
  split
  next hs =>
    subst hs
    cases g.scopeAt? s <;> rfl
  next => rfl

theorem homeAt?_lead (head : Option NodeId) (x : NodeId) :
    (g.modifyScope t ({ · with head })).homeAt? x = g.homeAt? x := by
  rw [homeAt?, nodeAt?_modifyScope, homeAt?]

theorem enter_views (h : g.enter id t = .ok g') (hn : g.nodeAt? id = some n) :
    (∀ s, g'.headAt? s = g.headAt? s) ∧ ∀ x, g'.homeAt? x = if x = id then some t else g.homeAt? x := by
  obtain ⟨hdeclarationsDiffer, -⟩ := enter_eq h
  refine ⟨fun s => ?_, fun x => ?_⟩
  · rw [hdeclarationsDiffer.headAt?]
    show ((g.place id t).scopeAt? s).bind _ = _
    rw [scopeAt?_place, headAt?]
    split
    next => cases g.scopeAt? s <;> rfl
    next => rfl
  · rw [hdeclarationsDiffer.homeAt?]
    show ((g.place id t).nodeAt? x).bind _ = _
    rw [nodeAt?_place, homeAt?]
    split
    next hx =>
      rw [hx, hn]
      rfl
    next => rfl

theorem leave_views (h : g.leave id t = .ok g') :
    (∀ s, g'.headAt? s = if s = t ∧ g.headAt? s = some id then none else g.headAt? s) ∧
      ∀ x, g'.homeAt? x = if x = id then none else g.homeAt? x := by
  obtain ⟨hdeclarationsDiffer, -⟩ := leave_eq h
  refine ⟨fun s => ?_, fun x => ?_⟩
  · rw [hdeclarationsDiffer.headAt?]
    show ((g.displace id t).scopeAt? s).bind _ = _
    rw [scopeAt?_displace, headAt?]
    by_cases hs : s = t
    · simp only [hs, if_true, true_and]
      cases g.scopeAt? t <;> rfl
    · simp only [hs, if_false, false_and]
  · rw [hdeclarationsDiffer.homeAt?]
    show ((g.displace id t).nodeAt? x).bind _ = _
    rw [nodeAt?_displace, homeAt?]
    split
    next => cases g.nodeAt? x <;> rfl
    next => rfl

theorem Entries.headAt? (h : Entries may t g g') (s : ScopeId) : g'.headAt? s = g.headAt? s := by
  induction h with
  | refl => rfl
  | tail _ henters ih =>
    obtain ⟨hn, -, -, henter⟩ := henters
    exact ((enter_views henter hn).1 s).trans ih

theorem Entries.of_homeAt? (h : Entries may t g g') (hx : g'.homeAt? x = some s) : g.homeAt? x = some s ∨ s = t := by
  induction h with
  | refl => exact .inl hx
  | tail _ henters ih =>
    obtain ⟨hn, -, -, henter⟩ := henters
    rw [(enter_views henter hn).2] at hx
    split at hx
    next => exact .inr (Option.some.inj hx).symm
    next => exact ih hx

theorem Exits.of_headAt? (h : Exits t g g') (hx : g'.headAt? s = some x) : g.headAt? s = some x := by
  induction h with
  | refl => exact hx
  | tail _ hleaves ih =>
    obtain ⟨-, -, hleave⟩ := hleaves
    rw [(leave_views hleave).1] at hx
    split at hx
    next => cases hx
    next => exact ih hx

theorem Exits.headAt? (h : Exits t g g') (hx : g.headAt? s = some x) :
    g'.headAt? s = some x ∨ s = t ∧ g'.homeAt? x = none := by
  induction h with
  | refl => exact .inl hx
  | tail _ hleaves ih =>
    obtain ⟨-, -, hleave⟩ := hleaves
    obtain ⟨hhead, hhome⟩ := leave_views hleave
    rw [hhead, hhome]
    rcases ih with ih | ⟨hs, ih⟩
    · split
      next hgone =>
        rw [ih] at hgone
        exact .inr ⟨hgone.1, if_pos (Option.some.inj hgone.2)⟩
      next => exact .inl ih
    · exact .inr ⟨hs, by rw [ih, ite_self]⟩

theorem MovedOrSame.of_headAt? (h : MovedOrSame id g g') (hx : g'.headAt? s = some x) : g.headAt? s = some x := by
  rcases h with rfl | ⟨target, r, h⟩
  · exact hx
  rcases changeScope_eq (guards_always target) h with
    rfl | ⟨n, left, -, -, ⟨-, rfl⟩ | ⟨current, -, hexits⟩, hentries⟩
  · exact hx
  · rwa [hentries.headAt?] at hx
  · rw [hentries.headAt?] at hx
    exact hexits.of_headAt? hx

theorem MovedOrSame.headAt? (h : MovedOrSame id g g') (hx : g.headAt? s = some x) (hhome : g'.homeAt? x = some s) :
    g'.headAt? s = some x := by
  rcases h with rfl | ⟨target, r, h⟩
  · exact hx
  rcases changeScope_eq (guards_always target) h with
    rfl | ⟨n, left, -, hother, ⟨-, rfl⟩ | ⟨current, hscope, hexits⟩, hentries⟩
  · exact hx
  · rwa [hentries.headAt?]
  rw [hentries.headAt?]
  rcases hexits.headAt? hx with hx | ⟨rfl, hgone⟩
  · exact hx
  · rcases hentries.of_homeAt? hhome with hhome | rfl
    · cases hgone.symm.trans hhome
    · exact (hother hscope).elim

def HeadIsLinked (g : Graph) (s : ScopeId) (x : NodeId) : Prop := g.headAt? s = some x → BranchLeadsTo g s x

theorem BranchLeadsTo.mono (h : BranchLeadsTo g s x) (hbranchSlotOf : ∀ r, BranchSlotOf g s r → BranchSlotOf g' s r)
    (hlinks : ∀ l ∈ g.links .flow, BranchSlotOf g s l.tail → l.head.node = x → l ∈ g'.links .flow)
    (hhome : g'.homeAt? x = some s) : BranchLeadsTo g' s x := by
  obtain ⟨l, hl, htail, hhead, -⟩ := h
  exact ⟨l, hlinks l hl htail hhead, hbranchSlotOf _ htail, hhead, hhome⟩

theorem BranchLeadsTo.home (h : BranchLeadsTo g s x) : g.homeAt? x = some s := by
  obtain ⟨l, -, -, -, hhome⟩ := h
  exact hhome

theorem BranchLeadsTo.live (h : BranchLeadsTo g s x) : ∃ sc, g.scopeAt? s = some sc := by
  obtain ⟨l, -, ⟨sc, -, hsc, -⟩, -⟩ := h
  exact ⟨sc, hsc⟩

theorem BranchLeadsTo.changes (h : BranchLeadsTo g s x) (hchanges : Changes may g g')
    (hlinks : ∀ l ∈ g.links .flow, BranchSlotOf g s l.tail → l.head.node = x → l ∈ g'.links .flow)
    (hhome : g'.homeAt? x = some s) : BranchLeadsTo g' s x :=
  h.mono (fun _ => (branchSlotOf_changes hchanges).2) hlinks hhome

theorem BranchLeadsTo.moves (h : BranchLeadsTo g s x) (hmoves : Moves may g g') (hhome : g'.homeAt? x = some s) :
    BranchLeadsTo g' s x :=
  h.changes hmoves.changes (fun l hl _ _ => by rwa [links_moves hmoves]) hhome

theorem resetHead_eq (h : g.resetHead t = .ok g') :
    ∃ head, g.headOf t = .ok head ∧ g' = g.modifyScope t ({ · with head }) := by
  simp only [resetHead, bind_eq_ok, pure_eq_ok] at h
  obtain ⟨head, hhead, rfl⟩ := h
  exact ⟨head, hhead, rfl⟩

theorem HeadIsLinked.enters (h : HeadIsLinked g s x) (henters : Enters may t g g') : HeadIsLinked g' s x := by
  intro hx
  have hmoves := (EditMove.enter henters).moves
  obtain ⟨hn, hnone, -, henter⟩ := henters
  obtain ⟨hhead, hhome⟩ := enter_views henter hn
  have hleads := h ((hhead s).symm.trans hx)
  refine hleads.moves hmoves ((hhome x).trans ((if_neg ?_).trans hleads.home))
  rintro rfl
  obtain ⟨m, hm, hscope⟩ := homeAt?_eq_some_iff.1 hleads.home
  cases hn.symm.trans hm
  cases hnone.symm.trans hscope

theorem HeadIsLinked.leaves (h : HeadIsLinked g s x) (hleaves : Leaves t g g') : HeadIsLinked g' s x := by
  intro hx
  have hmoves := hleaves.moves
  obtain ⟨hn, hscope, hleave⟩ := hleaves
  obtain ⟨hhead, hhome⟩ := leave_views hleave
  rw [hhead] at hx
  split at hx
  next => cases hx
  next hother =>
    have hleads := h hx
    refine hleads.moves hmoves ((hhome x).trans ((if_neg ?_).trans hleads.home))
    rintro rfl
    obtain ⟨m, hm, hscope'⟩ := homeAt?_eq_some_iff.1 hleads.home
    cases hn.symm.trans hm
    exact hother ⟨Option.some.inj (hscope'.symm.trans hscope), hx⟩

theorem HeadIsLinked.entries (h : HeadIsLinked g s x) (hentries : Entries may t g g') : HeadIsLinked g' s x := by
  induction hentries with
  | refl => exact h
  | tail _ henters ih => exact ih.enters henters

theorem HeadIsLinked.exits (h : HeadIsLinked g s x) (hexits : Exits t g g') : HeadIsLinked g' s x := by
  induction hexits with
  | refl => exact h
  | tail _ hleaves ih => exact ih.leaves hleaves

theorem HeadIsLinked.editMove (h : HeadIsLinked g s x) (hf : WellFormedLayout g) (hshift : EditMove may g g') :
    HeadIsLinked g' s x := by
  have hmoves := hshift.moves
  cases hshift with
  | enter henters => exact h.enters henters
  | leave hleaves => exact h.leaves hleaves
  | lead hreset =>
    intro hx
    obtain ⟨head, hhead, rfl⟩ := resetHead_eq hreset
    rw [headAt?_lead] at hx
    split at hx
    next hs =>
      subst hs
      obtain ⟨-, -, rfl⟩ := Option.bind_eq_some_iff.1 hx
      have hleads := (headOf_eq_some_iff hf).1 hhead
      exact hleads.moves hmoves ((homeAt?_lead _ x).trans hleads.home)
    next => exact (h hx).moves hmoves ((homeAt?_lead _ x).trans (h hx).home)
  | unlead hsc =>
    intro hx
    rw [headAt?_lead] at hx
    split at hx
    next => simp at hx
    next => exact (h hx).moves hmoves ((homeAt?_lead _ x).trans (h hx).home)

theorem HeadIsLinked.editMoves (h : HeadIsLinked g s x) (hf : WellFormedLayout g) (heditMoves : EditMoves may g g') :
    HeadIsLinked g' s x := by
  have hseries : HeadIsLinked g' s x ∧ WellFormedLayout g' := by
    induction heditMoves with
    | refl => exact ⟨h, hf⟩
    | tail _ hshift ih => exact ⟨ih.1.editMove ih.2 hshift, ih.2.changes hshift.moves.changes⟩
  exact hseries.1

theorem HeadIsLinked.sameFrames (h : HeadIsLinked g s x) (hsameFrames : SameFrames g g') (hchanges : Changes may g g')
    (hlinks : ∀ l ∈ g.links .flow, BranchSlotOf g s l.tail → l.head.node = x → l ∈ g'.links .flow) :
    HeadIsLinked g' s x := by
  intro hx
  rw [hsameFrames.headAt?] at hx
  exact (h hx).changes hchanges hlinks ((hsameFrames.homeAt? x).trans (h hx).home)

structure HeadsLinked (g : Graph) : Prop extends WellFormedLayout g where
  headIsLinked (s : ScopeId) (x : NodeId) : HeadIsLinked g s x

structure LinksFirst (g : Graph) (l : Link) (s : ScopeId) : Prop where
  branch : g.isBranchSlot l.tail = .ok true
  scope : g.branchScope l.tail = .ok (some s)
  alone : g.predecessors l.head = .ok []

/-- The heads after an edit that has made a link, or none: those there were, and the one that the link has
introduced, as far as the branches lead to them. -/
def HeadsFollow (g : Graph) (made : Option Link) (g' : Graph) : Prop :=
  ∀ s x, g'.headAt? s = some x ↔ g'.headOf s = .ok (some x) ∧
    (g.headAt? s = some x ∨ ∃ l ∈ made, l.head.node = x ∧ LinksFirst g l s)

theorem HeadsLinked.headsFollow {made : Option Link} (h : HeadsLinked g')
    (hfewer : ∀ s x, g'.headAt? s = some x → g.headAt? s = some x ∨ ∃ l ∈ made, l.head.node = x ∧ LinksFirst g l s)
    (hkept : ∀ s x, BranchLeadsTo g' s x → g.headAt? s = some x → g'.headAt? s = some x)
    (hmade : ∀ s x, BranchLeadsTo g' s x → ∀ l ∈ made, l.head.node = x → LinksFirst g l s → g'.headAt? s = some x) :
    HeadsFollow g made g' := by
  intro s x
  rw [headOf_eq_some_iff h.toWellFormedLayout]
  constructor
  · intro hx
    exact ⟨h.headIsLinked s x hx, hfewer s x hx⟩
  · rintro ⟨hleads, hx | ⟨l, hl, hhead, hlinksFirst⟩⟩
    · exact hkept s x hleads hx
    · exact hmade s x hleads l hl hhead hlinksFirst

structure HeadsKept (g g' : Graph) : Prop where
  headIsLinked (s : ScopeId) (x : NodeId) : HeadIsLinked g' s x
  of_headAt? {s : ScopeId} {x : NodeId} : g'.headAt? s = some x → g.headAt? s = some x
  headAt? {s : ScopeId} {x : NodeId} : BranchLeadsTo g' s x → g.headAt? s = some x → g'.headAt? s = some x

theorem HeadsKept.headsFollow (h : HeadsKept g g') (hf : WellFormedLayout g') :
    HeadsLinked g' ∧ HeadsFollow g none g' := by
  have hheadsLinked : HeadsLinked g' := ⟨hf, h.headIsLinked⟩
  exact ⟨hheadsLinked, hheadsLinked.headsFollow (fun _ _ hx => .inl (h.of_headAt? hx)) (fun _ _ => h.headAt?)
    fun _ _ _ _ hnone => nomatch hnone⟩

theorem HeadsKept.of_headAt?_eq (hhead : ∀ s, g'.headAt? s = g.headAt? s) (hheadIsLinked : ∀ s x, HeadIsLinked g' s x) :
    HeadsKept g g' :=
  ⟨hheadIsLinked, fun hx => (hhead _).symm.trans hx, fun _ hx => (hhead _).trans hx⟩

theorem HeadIsLinked.addLink {a b : SlotRef} (h : HeadIsLinked g s x) (hl : g.validateLink a b = .ok (.ok l)) :
    HeadIsLinked (g.addLink l) s x := by
  have hchanges : Changes always g (g.addLink l) := .single (.link hl)
  refine h.sameFrames (sameFrames_addLink g l) hchanges fun l' hl' _ _ => ?_
  rw [links_addLink]
  split
  next => exact List.mem_append_left _ hl'
  next => exact hl'

theorem HeadsLinked.addLink {a b : SlotRef} (h : HeadsLinked g) (hl : g.validateLink a b = .ok (.ok l)) :
    HeadsLinked (g.addLink l) := by
  have hchanges : Changes always g (g.addLink l) := .single (.link hl)
  exact ⟨h.toWellFormedLayout.changes hchanges, fun s x => (h.headIsLinked s x).addLink hl⟩

theorem HeadsLinked.editMoves (h : HeadsLinked g) (heditMoves : EditMoves may g g') : HeadsLinked g' :=
  ⟨h.toWellFormedLayout.changes heditMoves.moves.changes,
  fun s x => (h.headIsLinked s x).editMoves h.toWellFormedLayout heditMoves⟩

theorem PropertyWritten.sameFrames (h : PropertyWritten id g g') : SameFrames g g' := by
  rcases h with rfl | ⟨i, f, rfl⟩
  · exact .rfl
  · exact sameFrames_modifyNode fun _ => rfl

theorem HeadsLinked.propertyWritten (h : HeadsLinked g) (hpropertyWritten : PropertyWritten id g g') :
    HeadsLinked g' := by
  have hchanges : Changes always g g' := hpropertyWritten.editChanges.changes
  refine ⟨h.toWellFormedLayout.changes hchanges, fun s x => ?_⟩
  refine (h.headIsLinked s x).sameFrames hpropertyWritten.sameFrames hchanges fun l hl _ _ => ?_
  rwa [hpropertyWritten.links]

theorem predecessors_eq {r : SlotRef} {slot : Slot} (h : g.slotAt? r = some slot) :
    g.predecessors r = .ok slot.adjacent := by
  obtain ⟨n, hn, hslot⟩ := Option.bind_eq_some_iff.1 h
  rw [predecessors, slot?, node?_eq_some_iff.2 hn]
  show Except.ok ((n.slot? r.slot).elim [] (·.adjacent)) = _
  rw [hslot, Option.elim_some]

theorem predecessors_addLink {a b : SlotRef} (hl : g.validateLink a b = .ok (.ok l)) :
    ∃ before, g.predecessors l.head = .ok before ∧ (g.addLink l).predecessors l.head = .ok (before ++ [l.tail]) := by
  obtain ⟨out, inp, hlinkable⟩ := linkable_of_validateLink hl
  have hne : l.tail ≠ l.head := fun he => hlinkable.nodes (congrArg SlotRef.node he)
  have hslot : (g.addLink l).slotAt? l.head = some (inp.attach l.tail) := by
    rw [slotAt?_addLink hne, if_neg hne.symm, if_pos rfl, hlinkable.head, Option.map_some]
  exact ⟨inp.adjacent, predecessors_eq hlinkable.head, predecessors_eq hslot⟩

theorem mem_addLink (l : Link) : l ∈ (g.addLink l).links l.kind := by
  rw [links_addLink, if_pos rfl]
  exact List.mem_append_right _ List.mem_cons_self

theorem isBranchSlot_of_shapesKept {r : SlotRef} (hm : ShapesKept g g') (h : g'.isBranchSlot r = .ok true) :
    g.isBranchSlot r = .ok true := by
  obtain ⟨slot', hslot', hbranch⟩ := isBranchSlot_eq_true_iff.1 h
  obtain ⟨slot, hslot, hsame⟩ := hm.slot hslot'
  exact isBranchSlot_eq_true_iff.2 ⟨slot, hslot, (congrArg Slot.isBranch hsame).trans hbranch⟩

theorem changeScope_refused {e : ScopeError} (h : g.changeScope id s = .ok (g', .error e)) :
    g' = g ∧ g.homeAt? id ≠ some s := by
  simp only [changeScope, bind_eq_ok, node_eq_ok_iff] at h
  obtain ⟨n, hn, h⟩ := h
  split at h
  next => cases h
  next hother =>
    refine ⟨?_, ?_⟩
    · simp only [bind_eq_ok] at h
      obtain ⟨refused, -, h⟩ := h
      cases refused with
      | some _ =>
        cases h
        rfl
      | none =>
        exfalso
        cases hscope : n.scope
        all_goals
          simp only [hscope, bind_eq_ok] at h
          obtain ⟨_, -, _, -, ⟨⟩⟩ := h
    · rwa [homeAt?, hn]

theorem headAt?_resetHead (hf : WellFormedLayout g) (h : g.resetHead s = .ok g') (hleads : BranchLeadsTo g' s x) :
    g'.headAt? s = some x := by
  have hmoves : Moves always g g' := resetHead_moves h
  obtain ⟨head, hhead, rfl⟩ := resetHead_eq h
  obtain ⟨l, hl, hbranchSlot, hlx, hhome⟩ := hleads
  rw [links_moves hmoves] at hl
  rw [homeAt?_lead] at hhome
  have hbranchSlot := (branchSlotOf_changes hmoves.changes).1 hbranchSlot
  obtain ⟨sc, -, hsc, -⟩ := id hbranchSlot
  cases hhead.symm.trans ((headOf_eq_some_iff hf).2 ⟨l, hl, hbranchSlot, hlx, hhome⟩)
  rw [headAt?_lead, if_pos rfl, hsc, Option.bind_some]

theorem HeadsLinked.onValueConnected {a b : SlotRef} (h : HeadsLinked g) (hl : g.validateLink a b = .ok (.ok l))
    (hkind : l.kind = .value) (hvalue : (g.addLink l).onValueConnected l = .ok g') :
    HeadsLinked g' ∧ HeadsFollow g (some l) g' := by
  obtain ⟨_, moved, -, hmoved, hpropertyWritten⟩ := onValueConnected_eq hvalue
  have hhead := (sameFrames_addLink g l).headAt?
  have hheadsLinked : HeadsLinked g' :=
    ((h.addLink hl).editMoves (hmoved.editMoves guards_always)).propertyWritten hpropertyWritten
  refine ⟨hheadsLinked, hheadsLinked.headsFollow ?_ ?_ ?_⟩
  · intro s x hx
    rw [hpropertyWritten.sameFrames.headAt?] at hx
    exact .inl ((hhead s).symm.trans (hmoved.of_headAt? hx))
  · intro s x hleads hx
    rw [hpropertyWritten.sameFrames.headAt?]
    exact hmoved.headAt? ((hhead s).trans hx) ((hpropertyWritten.sameFrames.homeAt? x).symm.trans hleads.home)
  · rintro s x - _ ⟨⟩ - hlinksFirst
    obtain ⟨out, inp, hlinkable⟩ := linkable_of_validateLink hl
    obtain ⟨slot, hslot, hbranch⟩ := isBranchSlot_eq_true_iff.1 hlinksFirst.branch
    cases hlinkable.tail.symm.trans hslot
    obtain ⟨n, hn, hindex⟩ := Option.bind_eq_some_iff.1 hslot
    obtain ⟨hflow, -⟩ := h.toHasLayouts.traits_of_branch hn hindex hbranch
    cases hkind.symm.trans (hlinkable.tail_kind.symm.trans hflow)

section

variable {a b : SlotRef} (h : HeadsLinked g) (hl : g.validateLink a b = .ok (.ok l))
variable (hflow : (g.addLink l).onFlowConnected l = .ok g')

include h hl hflow

theorem of_headAt?_onFlowConnected (hkind : l.kind = .flow) (hx : g'.headAt? s = some x) :
    g.headAt? s = some x ∨ l.head.node = x ∧ LinksFirst g l s := by
  have hadded : Changes always g (g.addLink l) := .single (.link hl)
  have hhead := (sameFrames_addLink g l).headAt? s
  have h₁ := h.addLink hl
  have heditMoves : EditMoves always (g.addLink l) g' := onFlowConnected_editMoves guards_always hflow
  obtain ⟨tails, htails, moved, hmoved, rfl | ⟨target, htarget, hsingle, hbranch, hreset⟩⟩ := onFlowConnected_eq hflow
  · exact .inl (hhead.symm.trans (hmoved.of_headAt? hx))
  obtain ⟨l', hl', hbranchSlotOf', hlx, -⟩ := (h₁.editMoves heditMoves).headIsLinked s x hx
  obtain ⟨head, -, rfl⟩ := resetHead_eq hreset
  rw [headAt?_lead] at hx
  split at hx
  next hs =>
    subst hs
    -- the link is the only one that leads to the node, so it is through its tail that the scope is the target
    obtain ⟨before, hbefore, hafter⟩ := predecessors_addLink hl
    cases hafter.symm.trans htails
    obtain rfl : before = [] := by simpa using hsingle
    have hbranch₁ := isBranchSlot_of_shapesKept (hmoved.editMoves guards_always).moves.changes.shapesKept hbranch
    have hscope₁ : (g.addLink l).branchScope l.tail = .ok (some s) := by
      simpa only [List.nil_append, scopeAfter, hbranch₁, ok_bind, if_true] using htarget
    have hbranchSlotOf₁ : BranchSlotOf (g.addLink l) s l.tail :=
      (branchSlotOf_iff h₁.toWellFormedLayout).2 ⟨hbranch₁, hscope₁⟩
    obtain ⟨hbranch, hscope⟩ :=
        (branchSlotOf_iff h.toWellFormedLayout).1 ((branchSlotOf_changes hadded).1 hbranchSlotOf₁)
    refine .inr ⟨?_, hbranch, hscope, hbefore⟩
    rw [links_moves heditMoves.moves] at hl'
    have hmem : l ∈ (g.addLink l).links .flow := hkind ▸ mem_addLink l
    cases eq_of_branchSlotOf h₁.toWellFormedLayout hl' hmem
      ((branchSlotOf_changes heditMoves.moves.changes).1 hbranchSlotOf') hbranchSlotOf₁
    exact hlx
  next => exact .inl (hhead.symm.trans (hmoved.of_headAt? hx))

theorem headAt?_onFlowConnected (hleads : BranchLeadsTo g' s x) (hx : g.headAt? s = some x) :
    g'.headAt? s = some x := by
  rw [← (sameFrames_addLink g l).headAt? s] at hx
  obtain ⟨tails, -, moved, hmoved, rfl | ⟨target, -, -, -, hreset⟩⟩ := onFlowConnected_eq hflow
  · exact hmoved.headAt? hx hleads.home
  by_cases hs : s = target
  · subst hs
    exact headAt?_resetHead ((h.addLink hl).editMoves (hmoved.editMoves guards_always)).toWellFormedLayout hreset hleads
  · obtain ⟨head, -, rfl⟩ := resetHead_eq hreset
    rw [headAt?_lead, if_neg hs]
    exact hmoved.headAt? hx ((homeAt?_lead _ x).symm.trans hleads.home)

theorem headAt?_introduced (hleads : BranchLeadsTo g' s l.head.node) (hlinksFirst : LinksFirst g l s) :
    g'.headAt? s = some l.head.node := by
  have hadded : Changes always g (g.addLink l) := .single (.link hl)
  have h₁ := h.addLink hl
  obtain ⟨before, hbefore, hafter⟩ := predecessors_addLink hl
  cases hbefore.symm.trans hlinksFirst.alone
  have hbranchSlotOf : BranchSlotOf g s l.tail :=
    (branchSlotOf_iff h.toWellFormedLayout).2 ⟨hlinksFirst.branch, hlinksFirst.scope⟩
  obtain ⟨hbranch₁, hscope₁⟩ :=
      (branchSlotOf_iff h₁.toWellFormedLayout).1 ((branchSlotOf_changes hadded).2 hbranchSlotOf)
  simp only [Graph.onFlowConnected, hafter, ok_bind, List.nil_append, scopeAfter, hbranch₁, if_true, hscope₁,
    bind_eq_ok] at hflow
  obtain ⟨⟨moved, result⟩, hmoved, hflow⟩ := hflow
  have hmovedOrSame : MovedOrSame l.head.node (g.addLink l) moved := .inr ⟨s, result, hmoved⟩
  have hmoves : Moves always (g.addLink l) moved := (hmovedOrSame.editMoves guards_always).moves
  cases result with
  | error e =>
    cases hflow
    obtain ⟨rfl, hout⟩ := changeScope_refused hmoved
    exact (hout hleads.home).elim
  | ok _ =>
    have h₂ : HeadsLinked moved := h₁.editMoves (hmovedOrSame.editMoves guards_always)
    obtain ⟨hbranch₂, -⟩ := (branchSlotOf_iff h₂.toWellFormedLayout).1
        ((branchSlotOf_changes (hadded.trans hmoves.changes)).2 hbranchSlotOf)
    simp only [List.length_singleton, if_true, hbranch₂, ok_bind] at hflow
    exact headAt?_resetHead h₂.toWellFormedLayout hflow hleads

theorem HeadsLinked.onFlowConnected (hkind : l.kind = .flow) : HeadsLinked g' ∧ HeadsFollow g (some l) g' := by
  have hheadsLinked : HeadsLinked g' := (h.addLink hl).editMoves (onFlowConnected_editMoves guards_always hflow)
  refine ⟨hheadsLinked, hheadsLinked.headsFollow ?_ ?_ ?_⟩
  · intro s x hx
    exact (of_headAt?_onFlowConnected h hl hflow hkind hx).imp_right fun hintroduced => ⟨l, rfl, hintroduced⟩
  · exact fun s x hleads hx => headAt?_onFlowConnected h hl hflow hleads hx
  · rintro s x hleads _ ⟨⟩ rfl hlinksFirst
    exact headAt?_introduced h hl hflow hleads hlinksFirst

end

theorem HeadsLinked.headsKept (h : HeadsLinked g) : HeadsKept g g := .of_headAt?_eq (fun _ => rfl) h.headIsLinked

theorem HeadsLinked.connect {a b : SlotRef} {r : Except ConnectError Link} (h : HeadsLinked g)
    (hconnect : g.connect a b true = .ok (g', r)) : HeadsLinked g' ∧ HeadsFollow g r.toOption g' := by
  rcases connect_eq hconnect with ⟨rfl, e, rfl⟩ | ⟨l, rfl, hl, ⟨⟨⟩, -⟩ | ⟨-, hkind, hflow⟩ | ⟨-, hkind, hvalue⟩⟩
  · exact h.headsKept.headsFollow h.toWellFormedLayout
  · exact h.onFlowConnected hl hflow hkind
  · exact h.onValueConnected hl hkind hvalue

theorem HeadIsLinked.removeLink (h : HeadIsLinked g s x) (hl : l ∈ g.links l.kind)
    (hother : g.headAt? s = some x → l.kind = .flow → BranchSlotOf g s l.tail → l.head.node ≠ x) :
    HeadIsLinked (g.removeLink l) s x := by
  have hsameFrames := sameFrames_removeLink g l
  have hchanges : Changes always g (g.removeLink l) := .single (.unlink hl)
  intro hx
  rw [hsameFrames.headAt?] at hx
  refine (h hx).changes hchanges (fun l' hl' hbranchSlotOf hlx => ?_) ((hsameFrames.homeAt? x).trans (h hx).home)
  rw [links_removeLink]
  split
  next hkind =>
    refine (List.mem_erase_of_ne ?_).2 hl'
    rintro rfl
    exact hother hx hkind.symm hbranchSlotOf hlx
  next => exact hl'

theorem HeadsLinked.onValueDisconnected (h : HeadsLinked g) (hl : l ∈ g.links l.kind) (hkind : l.kind = .value)
    (hvalue : (g.removeLink l).onValueDisconnected l = .ok g') : HeadsKept g g' := by
  have hremoved : Changes always g (g.removeLink l) := .single (.unlink hl)
  have hpropertyWritten := onValueDisconnected_eq hvalue
  have h₁ : HeadsLinked (g.removeLink l) := by
    refine ⟨h.toWellFormedLayout.changes hremoved, fun s x => (h.headIsLinked s x).removeLink hl fun _ hflow => ?_⟩
    cases hkind.symm.trans hflow
  have hhead (s : ScopeId) : g'.headAt? s = g.headAt? s :=
    (hpropertyWritten.sameFrames.headAt? s).trans ((sameFrames_removeLink g l).headAt? s)
  exact .of_headAt?_eq hhead (h₁.propertyWritten hpropertyWritten).headIsLinked

/-- The scope whose branch the link was is no more led by the node that it went to. -/
theorem BranchHeadCleared.headAt? (h : BranchHeadCleared l g g') (hf : WellFormedLayout g) :
    g'.headAt? s = some x ↔ g.headAt? s = some x ∧ ¬(BranchSlotOf g s l.tail ∧ l.head.node = x) := by
  rw [branchSlotOf_iff hf]
  cases h with
  | other hother =>
    refine ⟨fun hx => ⟨hx, ?_⟩, And.left⟩
    rintro ⟨⟨hbranch, hscope⟩, rfl⟩
    obtain ⟨sc, hsc, hhead⟩ := Option.bind_eq_some_iff.1 hx
    exact hother s sc hbranch hscope hsc hhead
  | @unlead branch sc hbranch hscope hsc hhead =>
    have hled : g.headAt? branch = some l.head.node := by rw [Graph.headAt?, hsc, Option.bind_some, hhead]
    rw [headAt?_lead]
    split
    next hs =>
      subst hs
      refine ⟨fun hx => by simp at hx, fun ⟨hx, hnot⟩ => (hnot ⟨⟨hbranch, hscope⟩, ?_⟩).elim⟩
      exact Option.some.inj (hled.symm.trans hx)
    next hs =>
      refine ⟨fun hx => ⟨hx, ?_⟩, And.left⟩
      rintro ⟨⟨-, hscope'⟩, -⟩
      exact hs (Option.some.inj (Except.ok.inj (hscope'.symm.trans hscope)))

theorem HeadsLinked.onFlowDisconnected (h : HeadsLinked g) (hl : l ∈ g.links l.kind) (hkind : l.kind = .flow)
    (hflow : (g.removeLink l).onFlowDisconnected l = .ok g') : HeadsKept g g' := by
  have hremoved : Changes always g (g.removeLink l) := .single (.unlink hl)
  have hwellFormed₁ := h.toWellFormedLayout.changes hremoved
  have hhead := (sameFrames_removeLink g l).headAt?
  obtain ⟨unled, hheadCleared, hmovedOrSame⟩ := onFlowDisconnected_eq hflow
  have hunleads : EditMoves always (g.removeLink l) unled := hheadCleared.editMoves
  have hresettles : EditMoves always unled g' := hmovedOrSame.editMoves guards_always
  have hmoves : Moves always (g.removeLink l) g' := hunleads.moves.trans hresettles.moves
  have hheadsLinked : HeadsLinked unled := by
    refine ⟨hwellFormed₁.changes hunleads.moves.changes, fun s x hx => ?_⟩
    have hother := ((hheadCleared.headAt? hwellFormed₁).1 hx).2
    have hheadIsLinked :=
      (h.headIsLinked s x).removeLink hl fun _ _ hbranchSlot hlx => hother
        ⟨(branchSlotOf_changes hremoved).2 hbranchSlot, hlx⟩
    exact hheadIsLinked.editMoves hwellFormed₁ hunleads hx
  refine ⟨(hheadsLinked.editMoves hresettles).headIsLinked, fun hx => ?_, fun {s x} hleads hx => ?_⟩
  · exact (hhead _).symm.trans ((hheadCleared.headAt? hwellFormed₁).1 (hmovedOrSame.of_headAt? hx)).1
  · refine hmovedOrSame.headAt? ((hheadCleared.headAt? hwellFormed₁).2 ⟨(hhead s).trans hx, ?_⟩) hleads.home
    -- one link goes through a branch slot: if that was this one, then no link is left that leads to the node
    rintro ⟨hbranchSlot, -⟩
    obtain ⟨l', hl', hbranchSlot', -⟩ := hleads
    rw [links_moves hmoves, links_removeLink, if_pos hkind.symm] at hl'
    have hbranchSlot' := (branchSlotOf_changes (hremoved.trans hmoves.changes)).1 hbranchSlot'
    have hmem : l ∈ g.links .flow := hkind ▸ hl
    cases eq_of_branchSlotOf h.toWellFormedLayout (List.mem_of_mem_erase hl') hmem hbranchSlot'
      ((branchSlotOf_changes hremoved).1 hbranchSlot)
    exact (h.linksMatch.links_nodup _).not_mem_erase hl'

theorem HeadsLinked.disconnect {r : Except ConnectError Unit} (h : HeadsLinked g)
    (hdisconnect : g.disconnect l true = .ok (g', r)) : HeadsKept g g' := by
  rcases disconnect_eq hdisconnect with ⟨-, rfl⟩ | ⟨hl, ⟨⟨⟩, -⟩ | ⟨-, hkind, hflow⟩ | ⟨-, hkind, hvalue⟩⟩
  · exact h.headsKept
  · exact h.onFlowDisconnected hl hkind hflow
  · exact h.onValueDisconnected hl hkind hvalue

end FlowGraph.Graph
