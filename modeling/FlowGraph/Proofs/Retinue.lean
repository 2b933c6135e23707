import FlowGraph.Library.Standard
import FlowGraph.Proofs.Replay
import FlowGraph.Proofs.Stranding

/-!
# Who goes along with a node that is destroyed

A destruction with side effects goes on into the expressions that serve a node and into the content of its scopes. A
value link goes with a node that it joins, and for no other reason. As long as nobody comes into a scope on the way,
what goes are the node itself, nodes inside it, and the expressions that serve it, directly or through one another. An
expression goes whoever else reads it.
-/

namespace FlowGraph

def Event.isEntry : Event → Bool
  | .nodeScoped _ (some _) => true
  | _ => false

namespace Graph

open Relation

/-- An expression that feeds the node from the scope that the node is in. It is no variable and no instruction. -/
structure PrivateInput (g : Graph) (id x : NodeId) : Prop where
  link : ∃ l ∈ g.valueLinks, l.tail.node = x ∧ l.head.node = id
  expression : ∃ n, g.node x = .ok n ∧ n.isVariable = false ∧ n.hasFlowAdjacent = false
  home : g.homeAt? x = g.homeAt? id

def InScopeOf (g : Graph) (id x : NodeId) : Prop :=
  ∃ s sc, g.homeAt? x = some s ∧ g.scope s = .ok sc ∧ sc.owner = id

/-- The node is in a scope of another one, or in one that is nested in such a scope. -/
def Inside (g : Graph) (id x : NodeId) : Prop := ∃ s, g.homeAt? x = some s ∧ Surrounds g id s

/-- Somebody comes into a scope before the node is removed. -/
def EntersBeforeRemoval (g g' : Graph) (id : NodeId) : Prop :=
  ∃ x s, [.nodeScoped x (some s), .nodeRemoved id].Sublist (g'.events.drop g.events.length)

variable {g g' : Graph} {id x y : NodeId} {s t : ScopeId} {n : Node}

namespace LinksMatch

theorem mem_inputs_iff (hw : LinksMatch g) (hn : g.nodeAt? id = some n) :
    x ∈ n.inputs ↔ ∃ l ∈ g.valueLinks, l.tail.node = x ∧ l.head.node = id := by
  rw [Node.mem_inputs]
  constructor
  · rintro ⟨slot, hslot, r, hr, rfl⟩
    obtain ⟨hmem, hkind, hprimary⟩ := Node.mem_filterSlots_input.1 hslot
    obtain ⟨i, hi⟩ := List.getElem?_of_mem hmem
    have hlink := hw.registered (r := ⟨id, ⟨i⟩⟩) (Option.bind_eq_some_iff.2 ⟨n, hn, hi⟩) hr
    rw [Slot.linkTo, hprimary, if_neg Bool.false_ne_true, hkind] at hlink
    exact ⟨_, hlink, rfl, rfl⟩
  · rintro ⟨l, hl, rfl, rfl⟩
    obtain ⟨-, -, -, slot, -, hslot, -, hkind, -, hprimary, -, hadj⟩ := hw.joined (k := .value) hl
    obtain ⟨m, hm, hslot⟩ := Option.bind_eq_some_iff.1 hslot
    cases hn.symm.trans hm
    exact ⟨slot, Node.mem_filterSlots_input.2 ⟨List.mem_of_getElem? hslot, hkind, hprimary⟩, _, hadj, rfl⟩

theorem hasFlowAdjacent_iff (hw : LinksMatch g) (hn : g.nodeAt? id = some n) :
    n.hasFlowAdjacent = true ↔ ∃ l ∈ g.flowLinks, l.involves id = true := by
  have hflow {slot : Slot} : slot.hasFlags .anyFlow = true ↔ slot.kind = .flow := by
    cases hkind : slot.kind <;> simp [Slot.hasFlags, Slot.flags, SlotFlags.contains, SlotFlags.anyFlow, hkind]
  simp only [Node.hasFlowAdjacent, Node.filterSlots, List.any_eq_true, List.mem_filter, hflow, Bool.not_eq_true',
    List.isEmpty_eq_false_iff_exists_mem]
  constructor
  · rintro ⟨slot, ⟨hmem, hkind⟩, r, hr⟩
    obtain ⟨i, hi⟩ := List.getElem?_of_mem hmem
    have hlink := hw.registered (r := ⟨id, ⟨i⟩⟩) (Option.bind_eq_some_iff.2 ⟨n, hn, hi⟩) hr
    rw [hkind] at hlink
    refine ⟨_, hlink, ?_⟩
    unfold Slot.linkTo
    split <;> simp [Link.involves]
  · rintro ⟨l, hl, hid⟩
    obtain ⟨-, -, out, inp, hout, hinp, houtKind, hinpKind, -, -, hhead, htail⟩ := hw.joined (k := .flow) hl
    have hslot {r r' : SlotRef} {slot : Slot} (hr : r.node = id) (hslot : g.slotAt? r = some slot)
        (hkind : slot.kind = .flow) (hr' : r' ∈ slot.adjacent) :
        ∃ slot, (slot ∈ n.slots ∧ slot.kind = .flow) ∧ ∃ r, r ∈ slot.adjacent := by
      subst hr
      obtain ⟨m, hm, hslot⟩ := Option.bind_eq_some_iff.1 hslot
      cases hn.symm.trans hm
      exact ⟨slot, ⟨List.mem_of_getElem? hslot, hkind⟩, _, hr'⟩
    simp only [Link.involves, Bool.or_eq_true, beq_iff_eq] at hid
    rcases hid with hid | hid
    · exact hslot hid hout houtKind hhead
    · exact hslot hid hinp hinpKind htail

theorem mem_privateInputs_iff (hw : LinksMatch g) (hn : g.nodeAt? id = some n) {inputs : List NodeId}
    (hinputs : g.privateInputs n = .ok inputs) : x ∈ inputs ↔ PrivateInput g id x := by
  rw [privateInputs] at hinputs
  rw [mem_filterM_iff hinputs, hw.mem_inputs_iff hn]
  simp only [bind_eq_ok, pure_eq_ok, Bool.and_eq_true, Bool.not_eq_true', beq_iff_eq]
  have hhome {m : Node} (hm : g.node x = .ok m) : g.homeAt? x = g.homeAt? id ↔ m.scope = n.scope := by
    rw [homeAt?, homeAt?, node_eq_ok_iff.1 hm, hn]
    exact Iff.rfl
  constructor
  · rintro ⟨hlink, m, hm, ⟨hvar, hflow⟩, hscope⟩
    exact ⟨hlink, ⟨m, hm, hvar, hflow⟩, (hhome hm).2 hscope⟩
  · rintro ⟨hlink, ⟨m, hm, hvar, hflow⟩, hscope⟩
    exact ⟨hlink, m, hm, ⟨hvar, hflow⟩, (hhome hm).1 hscope⟩

theorem not_companion (hw : LinksMatch g) (hfree : ∀ k, ∀ l ∈ g.links k, l.involves id = false) :
    ¬Companion g id x := by
  rintro ⟨n, hn, hx⟩
  have hempty : ∀ slot ∈ n.slots, slot.adjacent = [] := by
    intro slot hslot
    rw [List.eq_nil_iff_forall_not_mem]
    intro r hr
    obtain ⟨i, hi⟩ := List.getElem?_of_mem hslot
    have hlink := hw.registered (r := ⟨id, ⟨i⟩⟩) (Option.bind_eq_some_iff.2 ⟨n, hn, hi⟩) hr
    have hinvolves : (slot.linkTo ⟨id, ⟨i⟩⟩ r).involves id = true := by
      unfold Slot.linkTo
      split <;> simp [Link.involves]
    cases hinvolves.symm.trans (hfree _ _ hlink)
  have hnone := companions_of_unlinked hn hempty
  cases (mem_companions_iff hnone).2 ⟨n, hn, hx⟩

end LinksMatch

def entries (g : Graph) : Nat := g.events.countP Event.isEntry

theorem EventsReplay.entries_le (h : EventsReplay g g') : g.entries ≤ g'.entries := by
  obtain ⟨events, hevents, -⟩ := h
  rw [entries, entries, hevents, List.countP_append]
  omega

theorem entries_insertWithin {k : Nat} (h : insertWithin k g id s = .ok g') : g.entries < g'.entries := by
  induction k generalizing g id g' with
  | zero => cases h
  | succ k ih =>
    simp only [insertWithin, bind_eq_ok] at h
    obtain ⟨entered, hentered, next, -, h⟩ := h
    have hevents : entered.events = g.events ++ [.nodeScoped id (some s)] := by
      rw [(enter_eq hentered).1.frame]
      rfl
    have hlt : g.entries < entered.entries := by
      rw [entries, entries, hevents, List.countP_append]
      exact Nat.lt_succ_self _
    refine Nat.lt_of_lt_of_le hlt (foldlM_induction (P := fun h => entered.entries ≤ h.entries) h (Nat.le_refl _) ?_)
    intro h₁ c _ h₂ hle hfollow
    simp only [bind_eq_ok] at hfollow
    obtain ⟨m, -, hfollow⟩ := hfollow
    split at hfollow
    next => exact pure_eq_ok.1 hfollow ▸ hle
    next =>
      obtain ⟨refused, -, hfollow⟩ := bind_eq_ok.1 hfollow
      split at hfollow
      next => exact pure_eq_ok.1 hfollow ▸ hle
      next => exact Nat.le_trans hle (Nat.le_of_lt (ih hfollow))

theorem changeScope_of_entries {r : Except ScopeError Unit} (h : g.changeScope id s = .ok (g', r))
    (hquiet : g'.entries = g.entries) : g' = g := by
  simp only [changeScope, bind_eq_ok, node_eq_ok_iff] at h
  obtain ⟨n, hn, h⟩ := h
  split at h
  next =>
    cases h
    rfl
  next =>
    obtain ⟨refused, -, h⟩ := bind_eq_ok.1 h
    cases refused with
    | some e =>
      cases h
      rfl
    | none =>
      exfalso
      cases hscope : n.scope with
      | none =>
        simp only [hscope, bind_eq_ok, pure_eq_ok] at h
        obtain ⟨_, rfl, inserted, hinserted, h⟩ := h
        cases h
        have := entries_insertWithin hinserted
        omega
      | some current =>
        simp only [hscope, bind_eq_ok] at h
        obtain ⟨left, hleft, inserted, hinserted, h⟩ := h
        cases h
        have hle :=
          (@EditMoves.editChanges always _ _ (detach_exits hleft hn hscope).1.editMoves).eventsReplay.entries_le
        have := entries_insertWithin hinserted
        omega

def BypassFlows (g : Graph) (slots : Option (SlotRef × SlotRef)) : Prop :=
  ∀ a b, slots = some (a, b) → ∀ slot, g.slotAt? a = some slot → slot.kind = .flow ∧ slot.isPrimary = true

theorem relink_flow {slots : Option (SlotRef × SlotRef)} (hbypassFlows : g.BypassFlows slots)
    (h : g.relink slots = .ok g') :
    g' = g ∨ ∃ l, slots = some (l.tail, l.head) ∧ l.kind = .flow ∧ g.validateLink l.tail l.head = .ok (.ok l) ∧
      (g.addLink l).onFlowConnected l = .ok g' := by
  obtain rfl | ⟨a, b, r, rfl, hconnect⟩ := relink_eq h
  · exact .inl rfl
  obtain ⟨rfl, -⟩ | ⟨l, -, hl, heffect⟩ := connect_eq hconnect
  · exact .inl rfl
  obtain ⟨slot, -, hslot, -, -, rfl⟩ := validateLink_eq_ok_iff.1 hl
  obtain ⟨hkind, hprimary⟩ := hbypassFlows a b rfl slot hslot
  have hlink : slot.linkTo a b = ⟨a, b, .flow⟩ := by rw [Slot.linkTo, if_pos hprimary, hkind]
  rw [hlink] at hl heffect
  obtain ⟨⟨⟩, -⟩ | ⟨-, -, hmoved⟩ | ⟨-, ⟨⟩, -⟩ := heffect
  exact .inr ⟨⟨a, b, .flow⟩, rfl, rfl, hl, hmoved⟩

theorem valueLinks_relink {slots : Option (SlotRef × SlotRef)} (hbypassFlows : g.BypassFlows slots)
    (h : g.relink slots = .ok g') : g'.valueLinks = g.valueLinks := by
  obtain rfl | ⟨l, -, hkind, -, hmoved⟩ := relink_flow hbypassFlows h
  · rfl
  · have hlinks := links_moves (onFlowConnected_editMoves guards_always hmoved).moves .value
    rw [links_addLink, hkind] at hlinks
    exact hlinks

theorem homeAt?_relink {slots : Option (SlotRef × SlotRef)} (hbypassFlows : g.BypassFlows slots)
    (h : g.relink slots = .ok g') (hquiet : g'.entries = g.entries) (x : NodeId) : g'.homeAt? x = g.homeAt? x := by
  obtain rfl | ⟨l, -, hkind, -, hmoved⟩ := relink_flow hbypassFlows h
  · rfl
  have hadd : (g.addLink l).entries = g.entries := by
    rw [entries, entries, (frame_addLink l).1, List.countP_append]
    rfl
  obtain ⟨tails, -, moved, hmovedOrSame, hlead⟩ := onFlowConnected_eq hmoved
  have hlast : g'.entries = moved.entries ∧ g'.homeAt? x = moved.homeAt? x := by
    obtain rfl | ⟨target, -, -, -, hreset⟩ := hlead
    · exact ⟨rfl, rfl⟩
    · obtain ⟨head, -, hreset⟩ := bind_eq_ok.1 hreset
      cases hreset
      exact ⟨rfl, homeAt?_lead head x⟩
  have hsame : moved = g.addLink l := by
    obtain hsame | ⟨t, r, hchange⟩ := hmovedOrSame
    · exact hsame
    · exact changeScope_of_entries hchange (hlast.1.symm.trans (hquiet.trans hadd.symm))
  rw [hlast.2, hsame]
  exact (sameFrames_addLink g l).homeAt? x

def LinksOfSurvivors (k : SlotKind) (g g' : Graph) : Prop :=
  ∀ l, l ∈ g'.links k ↔ l ∈ g.links k ∧ (g'.nodeAt? l.tail.node).isSome ∧ (g'.nodeAt? l.head.node).isSome

theorem LinksMatch.linksOfSurvivors (hw : LinksMatch g) (k : SlotKind) : LinksOfSurvivors k g g := by
  refine fun l => ⟨fun hl => ⟨hl, ?_⟩, And.left⟩
  obtain ⟨-, -, out, inp, hout, hinp, -⟩ := hw.joined hl
  obtain ⟨n, hn, -⟩ := Option.bind_eq_some_iff.1 hout
  obtain ⟨m, hm, -⟩ := Option.bind_eq_some_iff.1 hinp
  rw [hn, hm]
  exact ⟨rfl, rfl⟩

theorem LinksOfSurvivors.trans {k : SlotKind} {g₁ g₂ g₃ : Graph} (h : LinksOfSurvivors k g₁ g₂)
    (h' : LinksOfSurvivors k g₂ g₃) (hl : SurvivorsKept g₂ g₃) :
    LinksOfSurvivors k g₁ g₃ := by
  have hback {x : NodeId} (hx : (g₃.nodeAt? x).isSome) : (g₂.nodeAt? x).isSome := by
    obtain ⟨n, hn⟩ := Option.isSome_iff_exists.1 hx
    obtain ⟨m, hm, -⟩ := hl.node hn
    rw [hm]
    rfl
  intro l
  rw [h', h]
  constructor
  · rintro ⟨⟨hlink, -⟩, hlive⟩
    exact ⟨hlink, hlive⟩
  · rintro ⟨hlink, hlive⟩
    exact ⟨⟨hlink, hback hlive.1, hback hlive.2⟩, hlive⟩

section Removing

variable {inner : List ScopeId}

theorem isSome_remove (h : g.remove id inner = .ok g') (x : NodeId) :
    (g'.nodeAt? x).isSome ↔ x ≠ id ∧ (g.nodeAt? x).isSome := by
  obtain ⟨unlinked, left, s, n, hunlinked, hexits, -, -, hremovesNode⟩ := remove_eq h
  have hallKept : AllKept g left :=
    (@dropLinks_changes always _ _ _ hunlinked).allKept.trans (hexits.moves.changes).allKept
  rw [hremovesNode.nodeAt?, ← hallKept.isSome_iff]
  split
  next hx => simp [hx]
  next hx => simp [hx]

/-- A node that is removed at last is there all along, and its scopes are the same. -/
theorem innerScopes_of_remove {g₁ g₂ g₃ : Graph} (ho : ScopesOwned g₁) (hl₁ : SurvivorsKept g g₁)
    (hl₂ : SurvivorsKept g₁ g₂) (hinner : g.innerScopes id = .ok inner) (hremove : g₂.remove id inner = .ok g₃) :
    g₁.innerScopes id = .ok inner := by
  obtain ⟨unlinked, m, -, hunlinked, hm, -⟩ := remove_stages hremove
  obtain ⟨n₂, hn₂, -⟩ := (@dropLinks_changes always _ _ _ hunlinked).allKept.node hm
  obtain ⟨n₁, hn₁, -⟩ := hl₂.node hn₂
  exact ho.innerScopes_of_survivorsKept hl₁ hinner hn₁

theorem linksOfSurvivors_remove (hw : LinksMatch g) (h : g.remove id inner = .ok g') (k : SlotKind) :
    LinksOfSurvivors k g g' := by
  have hlive := isSome_remove h
  obtain ⟨unlinked, left, s, n, hunlinked, hexits, -, -, hremovesNode⟩ := remove_eq h
  intro l
  rw [links_congr hremovesNode.valueLinks hremovesNode.flowLinks, links_moves hexits.moves,
    links_dropLinks hw hunlinked, hlive,
    hlive]
  refine and_congr_right fun hl => ?_
  obtain ⟨-, htail, hhead⟩ := (hw.linksOfSurvivors k l).1 hl
  rw [List.mem_filter, not_and, Link.involves]
  simp only [mem_append_of_links hl, htail, hhead, true_imp_iff, and_true, Bool.or_eq_true, beq_iff_eq, not_or, ne_eq]

theorem homeAt?_remove (hw : LinksMatch g) (h : g.remove id inner = .ok g') (hx : x ≠ id) :
    g'.homeAt? x = g.homeAt? x := by
  obtain ⟨unlinked, n, left, hunlinked, hn, hleft, -, hremovesNode⟩ := remove_stages h
  have hdropped : unlinked.homeAt? x = g.homeAt? x := by
    refine foldlM_induction (P := fun g₁ => g₁.homeAt? x = g.homeAt? x) hunlinked rfl ?_
    intro g₁ l _ g₂ hsame hdrop
    obtain ⟨-, rfl⟩ | ⟨-, hpropertyWritten⟩ := dropLink_eq hdrop
    · exact hsame
    · exact (hpropertyWritten.sameFrames.homeAt? x).trans (((sameFrames_removeLink g₁ l).homeAt? x).trans hsame)
  have hleave : left.homeAt? x = unlinked.homeAt? x := by
    obtain ⟨-, rfl⟩ | ⟨s, hscope, hdetach⟩ := hleft
    · rfl
    have hhome : unlinked.homeAt? id = some s := homeAt?_eq_some_iff.2 ⟨n, hn, hscope⟩
    refine (detachWithin_companyLeft hdetach hhome).homeAt?_of_not_travelsWith fun htravelsWith => ?_
    obtain rfl | ⟨c, ⟨hcompanion, -⟩, -⟩ := ReflTransGen.cases_head htravelsWith
    · exact hx rfl
    refine (hw.changes (@dropLinks_changes always _ _ _ hunlinked)).not_companion (fun k l hl => ?_) hcompanion
    obtain ⟨hlink, hkept⟩ := (links_dropLinks hw hunlinked k l).1 hl
    rw [List.mem_filter, not_and, Bool.not_eq_true] at hkept
    exact hkept (mem_append_of_links hlink)
  rw [homeAt?, hremovesNode.nodeAt?, if_neg hx]
  exact hleave.trans hdropped

end Removing

structure OnlyRemoves (g g' : Graph) : Prop extends SurvivorsKept g g' where
  linksOfSurvivors : LinksOfSurvivors .value g g'
  homes {x : NodeId} : (g'.nodeAt? x).isSome → g'.homeAt? x = g.homeAt? x

theorem SurvivorsKept.isSome (h : SurvivorsKept g g') (hx : (g'.nodeAt? x).isSome) : (g.nodeAt? x).isSome := by
  obtain ⟨n', hn'⟩ := Option.isSome_iff_exists.1 hx
  obtain ⟨n, hn, -⟩ := h.node hn'
  rw [hn]
  rfl

namespace OnlyRemoves

theorem refl (hw : LinksMatch g) : OnlyRemoves g g := ⟨.refl g, hw.linksOfSurvivors .value, fun _ => rfl⟩

theorem trans {g₁ g₂ g₃ : Graph} (h : OnlyRemoves g₁ g₂) (h' : OnlyRemoves g₂ g₃) : OnlyRemoves g₁ g₃ :=
  ⟨h.toSurvivorsKept.trans h'.toSurvivorsKept, h.linksOfSurvivors.trans h'.linksOfSurvivors h'.toSurvivorsKept,
    fun hx => (h'.homes hx).trans (h.homes (h'.toSurvivorsKept.isSome hx))⟩

theorem surrounds (h : OnlyRemoves g g') (hs : Surrounds g' id s) : Surrounds g id s := by
  induction hs with
  | here hsc howner =>
    obtain ⟨sc, hsc', hskeleton⟩ := h.scope (scope_eq_ok_iff.1 hsc)
    exact .here (scope_eq_ok_iff.2 hsc') ((Scope.of_skeleton hskeleton).1.symm.trans howner)
  | up hparent _ ih =>
    refine .up ?_ ih
    obtain ⟨sc', hsc', hcases⟩ := parentScope?_eq_ok_iff.1 hparent
    obtain ⟨sc, hsc, hskeleton⟩ := h.scope hsc'
    obtain ⟨howner, hkind, -⟩ := Scope.of_skeleton hskeleton
    rw [howner, hkind] at hcases
    refine parentScope?_eq_ok_iff.2 ⟨sc, hsc, hcases.imp_right ?_⟩
    rintro ⟨hinternal, n', hn', hparent⟩
    obtain ⟨n, hn, -⟩ := h.node hn'
    have hhome := h.homes (x := sc.owner) (by rw [hn']; rfl)
    rw [homeAt?, homeAt?, hn', hn] at hhome
    exact ⟨hinternal, n, hn, hparent.trans hhome⟩

theorem inside (h : OnlyRemoves g g') (hx : Inside g' id x) : Inside g id x := by
  obtain ⟨s, hs, hsurrounds⟩ := hx
  have hlive : (g'.nodeAt? x).isSome := by
    obtain ⟨n, hn, -⟩ := homeAt?_eq_some_iff.1 hs
    rw [hn]
    rfl
  exact ⟨s, (h.homes hlive).symm.trans hs, h.surrounds hsurrounds⟩

end OnlyRemoves

theorem Inside.trans (ho : ScopesOwned g) (hx : Inside g id x) (hy : Inside g x y) : Inside g id y := by
  obtain ⟨s, hs, hsurrounds⟩ := hx
  obtain ⟨t, ht, hinner⟩ := hy
  refine ⟨t, ht, ?_⟩
  obtain ⟨n, hn, hscope⟩ := homeAt?_eq_some_iff.1 hs
  clear ht
  induction hinner with
  | up hparent _ ih => exact .up hparent ih
  | @here t sc hsc howner =>
    rw [scope_eq_ok_iff] at hsc
    subst howner
    cases hkind : sc.kind with
    | internal => exact .up (parentScope?_eq_ok_iff.2 ⟨sc, hsc, .inr ⟨hkind, n, hn, hscope.symm⟩⟩) hsurrounds
    | partition u i =>
      obtain ⟨su, hsu, howner, hinternal⟩ := ho.whole_of_part hsc hkind
      refine .up (parentScope?_eq_ok_iff.2 ⟨sc, hsc, .inl ⟨u, i, hkind, rfl⟩⟩) ?_
      exact .up (parentScope?_eq_ok_iff.2 ⟨su, hsu, .inr ⟨hinternal, n, howner ▸ hn, hscope.symm⟩⟩) hsurrounds

theorem ScopesOwned.not_inside (ho : ScopesOwned g) (hn : g.nodeAt? id = some n) (hplain : n.internalScope = none) :
    ¬Inside g id x := by
  rintro ⟨s, -, hsurrounds⟩
  induction hsurrounds with
  | up _ _ ih => exact ih
  | here hsc howner =>
    obtain ⟨m, i, -, hm, hi, -⟩ := ho.home (scope_eq_ok_iff.1 hsc)
    subst howner
    cases hn.symm.trans hm
    cases hplain.symm.trans hi

theorem PrivateInput.live (h : PrivateInput g id x) (hw : LinksMatch g) :
    (g.nodeAt? id).isSome ∧ (g.nodeAt? x).isSome := by
  obtain ⟨⟨l, hl, rfl, rfl⟩, -, -⟩ := h
  exact ((hw.linksOfSurvivors .value l).1 hl).2.symm

/-- Whoever serves a node is an expression: it has no scopes, is not the entry point, and no flow link joins it. -/
theorem PrivateInput.plain (h : PrivateInput g id x) (hl : HasLayouts g) (hw : LinksMatch g)
    (hn : g.nodeAt? x = some n) :
    n.internalScope = none ∧ n.kind ≠ .entryPoint ∧ ∀ l ∈ g.flowLinks, l.involves x = false := by
  obtain ⟨⟨l, hlink, rfl, -⟩, ⟨m, hm, -, hflow⟩, -⟩ := h
  cases hn.symm.trans (node_eq_ok_iff.1 hm)
  obtain ⟨-, -, out, -, hout, -, hkind, -, hprimary, -⟩ := hw.joined (k := .value) hlink
  obtain ⟨m, hm, hout⟩ := Option.bind_eq_some_iff.1 hout
  cases hn.symm.trans hm
  have hmem := List.mem_of_getElem? hout
  refine ⟨(hl.plain_of_output hn hmem hkind hprimary).1, fun hentry => ?_, fun l' hl' => ?_⟩
  · exact hl.not_framed_of_output hn hmem hkind hprimary (.inr hentry)
  · rw [← Bool.not_eq_true]
    intro hinvolves
    cases hflow.symm.trans ((hw.hasFlowAdjacent_iff hn).2 ⟨l', hl', hinvolves⟩)

theorem homeAt?_of_privateInput (h : TransGen (PrivateInput g) id x) : g.homeAt? x = g.homeAt? id := by
  induction h with
  | single h => exact h.home
  | tail _ h ih => exact h.home.trans ih

theorem OnlyRemoves.privateInput_iff (h : OnlyRemoves g g') (hw : LinksMatch g) (hw' : LinksMatch g')
    (hflow : ∀ l, l ∈ g'.flowLinks ↔ l ∈ g.flowLinks) (hx : (g'.nodeAt? x).isSome) (hid : (g'.nodeAt? id).isSome) :
    PrivateInput g' id x ↔ PrivateInput g id x := by
  obtain ⟨n', hn'⟩ := Option.isSome_iff_exists.1 hx
  obtain ⟨n, hn, hskeleton⟩ := h.node hn'
  obtain ⟨hkind, -, -⟩ := Node.of_skeleton hskeleton
  have hvar : n'.isVariable = n.isVariable := by rw [Node.isVariable, hkind, Node.isVariable]
  have hadjacent : n'.hasFlowAdjacent = n.hasFlowAdjacent := by
    rw [Bool.eq_iff_iff, hw'.hasFlowAdjacent_iff hn', hw.hasFlowAdjacent_iff hn]
    exact exists_congr fun l => and_congr_left' (hflow l)
  have hhome : g'.homeAt? x = g'.homeAt? id ↔ g.homeAt? x = g.homeAt? id := by rw [h.homes hx, h.homes hid]
  constructor
  · rintro ⟨⟨l, hl, htail, hhead⟩, ⟨m, hm, hplain, honlyOutput⟩, hsame⟩
    cases hn'.symm.trans (node_eq_ok_iff.1 hm)
    exact ⟨⟨l, ((h.linksOfSurvivors l).1 hl).1, htail, hhead⟩,
      ⟨n, node_eq_ok_iff.2 hn, hvar ▸ hplain, hadjacent ▸ honlyOutput⟩, hhome.1 hsame⟩
  · rintro ⟨⟨l, hl, htail, hhead⟩, ⟨m, hm, hplain, honlyOutput⟩, hsame⟩
    cases hn.symm.trans (node_eq_ok_iff.1 hm)
    refine ⟨⟨l, (h.linksOfSurvivors l).2 ⟨hl, htail ▸ hx, hhead ▸ hid⟩, htail, hhead⟩,
      ⟨n', node_eq_ok_iff.2 hn', ?_, ?_⟩, hhome.2 hsame⟩
    · rw [hvar, hplain]
    · rw [hadjacent, honlyOutput]

theorem InScopeOf.inside (hx : InScopeOf g id x) : Inside g id x := by
  obtain ⟨s, sc, hs, hsc, howner⟩ := hx
  exact ⟨s, hs, .here hsc howner⟩

theorem mem_content_iff (hs : RecordsValid g) {inner : List ScopeId} (hinner : g.innerScopes id = .ok inner)
    {content : List (List NodeId)} (h : inner.mapM (fun s => do return (← g.scope s).children) = .ok content) :
    x ∈ content.flatten ↔ InScopeOf g id x := by
  constructor
  · intro hx
    obtain ⟨children, hchildren, hx⟩ := List.mem_flatten.1 hx
    obtain ⟨s, hs', hlisted⟩ := of_mem_mapM h hchildren
    obtain ⟨sc, hsc, hlisted⟩ := bind_eq_ok.1 hlisted
    cases hlisted
    have hsc' := scope_eq_ok_iff.1 hsc
    obtain ⟨n, hn, hhome⟩ := (hs.scopesMatchNodes.scopeMatchesNodes hsc').child x hx
    exact ⟨s, sc, homeAt?_eq_some_iff.2 ⟨n, hn, hhome⟩, hsc, (hs.scopesOwned.mem_innerScopes hinner hsc').1 hs'⟩
  · rintro ⟨s, sc, hhome, hsc, howner⟩
    have hsc' := scope_eq_ok_iff.1 hsc
    obtain ⟨n, hn, hscope⟩ := homeAt?_eq_some_iff.1 hhome
    obtain ⟨children, hchildren, hlisted⟩ :=
        exists_of_mem_mapM h ((hs.scopesOwned.mem_innerScopes hinner hsc').2 howner)
    obtain ⟨sc', hsc'', hlisted⟩ := bind_eq_ok.1 hlisted
    cases hsc.symm.trans hsc''
    cases hlisted
    exact List.mem_flatten.2 ⟨_, hchildren, hs.scopesMatchNodes.listed hn hscope hsc'⟩

theorem source_of_bypass (hw : LinksMatch g) (hn : g.nodeAt? id = some n) {a b : SlotRef}
    (hbypass : bypass n = some (a, b)) :
    ∃ slot, g.slotAt? a = some slot ∧ slot.kind = .flow ∧ slot.isPrimary = true := by
  simp only [bypass, Option.bind_eq_bind, Option.bind_eq_some_iff] at hbypass
  obtain ⟨_, ⟨slot, hprev, hsingle⟩, _, -, hpair⟩ := hbypass
  cases hpair
  obtain ⟨-, ha⟩ := Option.ite_none_right_eq_some.1 hsingle
  obtain ⟨hmem, hflags⟩ := List.mem_filter.1 (List.mem_of_mem_head? hprev)
  obtain ⟨hkind, hsecondary⟩ := slot.hasFlags_flowIn_iff.1 hflags
  obtain ⟨i, hi⟩ := List.getElem?_of_mem hmem
  have hlink := hw.registered (r := ⟨id, ⟨i⟩⟩) (Option.bind_eq_some_iff.2 ⟨n, hn, hi⟩) (List.mem_of_mem_head? ha)
  obtain ⟨-, -, out, -, hout, -, houtKind, -, hprimary, -⟩ := hw.joined hlink
  rw [Slot.linkTo, hsecondary, if_neg Bool.false_ne_true] at hout
  exact ⟨out, hout, houtKind.trans hkind, hprimary⟩

theorem bypassFlows_bypass (hw : LinksMatch g) (hn : g.nodeAt? id = some n) (hm : ShapesKept g g') :
    g'.BypassFlows (bypass n) := by
  intro a b hbypass slot' hslot'
  obtain ⟨slot, hslot, hkind, hprimary⟩ := source_of_bypass hw hn hbypass
  obtain ⟨m, hm, hshape⟩ := hm.slot hslot'
  cases hslot.symm.trans hm
  have hkind' : slot.shape.kind = slot'.shape.kind := congrArg Slot.kind hshape
  have hprimary' : slot.shape.isPrimary = slot'.shape.isPrimary := congrArg Slot.isPrimary hshape
  exact ⟨hkind'.symm.trans hkind, hprimary'.symm.trans hprimary⟩

theorem bypass_eq_none (h : n.hasFlowAdjacent = false) : bypass n = none := by
  cases hprev : n.prevSlot? with
  | none => rw [bypass, hprev]; rfl
  | some slot =>
    have hempty : slot.adjacent = [] := by
      obtain ⟨hmem, hflags⟩ := List.mem_filter.1 (List.mem_of_mem_head? hprev)
      have hflow : slot.hasFlags .anyFlow = true := by
        revert hflags
        cases hkind : slot.kind <;>
          simp [Slot.hasFlags, Slot.flags, SlotFlags.contains, SlotFlags.flowIn, SlotFlags.anyFlow, hkind]
      simp only [Node.hasFlowAdjacent, List.any_eq_false, Node.filterSlots, List.mem_filter] at h
      simpa using h slot ⟨hmem, hflow⟩
    rw [bypass, hprev]
    simp [hempty]

theorem LinksMatch.bypass_eq_none (hw : LinksMatch g) (hn : g.nodeAt? id = some n)
    (hfree : ∀ l ∈ g.flowLinks, l.involves id = false) : bypass n = none := by
  refine Graph.bypass_eq_none ?_
  rw [← Bool.not_eq_true, hw.hasFlowAdjacent_iff hn]
  rintro ⟨l, hl, hinvolves⟩
  cases hinvolves.symm.trans (hfree l hl)

theorem linksOfSurvivors_relink {slots : Option (SlotRef × SlotRef)} (hw : LinksMatch g)
    (hbypassFlows : g.BypassFlows slots) (h : g.relink slots = .ok g') : LinksOfSurvivors .value g g' := by
  have hallKept := (relink_changes guards_always h).allKept
  intro l
  show l ∈ g'.valueLinks ↔ _
  rw [valueLinks_relink hbypassFlows h, hallKept.isSome_iff, hallKept.isSome_iff]
  exact hw.linksOfSurvivors .value l

/-- The destruction of a node, step by step: first the expressions that serve it go, then the content of its scopes,
then the node itself, and at last what it joined is linked around it. -/
theorem destroyWithin_deep {may : Graph → NodeId → ScopeId → Prop} (guards : Guards may) {k : Nat}
    (hs : LinksScopesValid g) (h : destroyWithin true (k + 1) g id = .ok g') :
    (id = g.root ∨ g.nodeAt? id = none) ∧ g' = g ∨
      ∃ n inner inputs content g₁ g₂ g₃, id ≠ g.root ∧ g.nodeAt? id = some n ∧ g.innerScopes id = .ok inner ∧
        (g.privateInputs n = .ok inputs ∧ inputs.foldlM (destroyWithin true k) g = .ok g₁ ∧ EditSteps may g g₁) ∧
        (inner.mapM (fun s => do return (← g₁.scope s).children) = .ok content ∧
          content.flatten.foldlM (destroyWithin true k) g₁ = .ok g₂ ∧ EditSteps may g₁ g₂) ∧
        (g₂.remove id inner = .ok g₃ ∧ EditSteps may g₂ g₃) ∧
        g₃.relink (bypass n) = .ok g' ∧ g₃.BypassFlows (bypass n) := by
  obtain hnothing | ⟨n, inner, hroot, hn, hinner, hstages⟩ := destroyWithin_eq h
  · exact .inl hnothing
  cases hstages with
  | @deep inputs content g₁ g₂ g₃ _ hprivate hinputs hlisted hcontent hremove hrelink =>
    have heditSteps₁ : EditSteps may g g₁ := foldlM_destroyWithin_editSteps guards hs hinputs
    have heditSteps₂ : EditSteps may g₁ g₂ :=
      foldlM_destroyWithin_editSteps guards (hs.steps heditSteps₁.steps) hcontent
    have hsteps : Steps may g g₂ := heditSteps₁.steps.trans heditSteps₂.steps
    have heditSteps₃ : EditSteps may g₂ g₃ := by
      refine remove_editSteps (hs.steps hsteps) ?_ (fun m hm => ?_) hremove
      · rw [(Steps.survivorsKept hsteps).root]
        exact hroot
      · exact (hs.steps hsteps).scopesOwned.innerScopes_of_survivorsKept (Steps.survivorsKept hsteps) hinner hm
    exact .inr ⟨n, inner, inputs, content, g₁, g₂, g₃, hroot, hn, hinner, ⟨hprivate, hinputs, heditSteps₁⟩,
      ⟨hlisted, hcontent, heditSteps₂⟩, ⟨hremove, heditSteps₃⟩, hrelink,
      bypassFlows_bypass hs.linksMatch hn (Steps.shapesKept (hsteps.trans heditSteps₃.steps))⟩

/-- A value link goes only with a node that it joins. -/
theorem linksOfSurvivors_destroyWithin {k : Nat} (hs : LinksScopesValid g) (h : destroyWithin true k g id = .ok g') :
    LinksOfSurvivors .value g g' := by
  induction k generalizing g id g' with
  | zero => cases h
  | succ k ih =>
    have hfold {ids : List NodeId} {g₁ g₂ : Graph} (hs : LinksScopesValid g₁)
        (h : ids.foldlM (destroyWithin true k) g₁ = .ok g₂) :
        LinksOfSurvivors .value g₁ g₂ := by
      refine (foldlM_induction (P := fun h => Steps always g₁ h ∧ LinksOfSurvivors .value g₁ h) h ⟨.refl,
        hs.linksMatch.linksOfSurvivors .value⟩ ?_).2
      rintro h₁ x _ h₂ ⟨hsteps, hlinksOfSurvivors⟩ hdestroy
      have hrest : Steps always h₁ h₂ := destroyWithin_steps guards_always (hs.steps hsteps) hdestroy
      exact ⟨hsteps.trans hrest, hlinksOfSurvivors.trans (ih (hs.steps hsteps) hdestroy) hrest.survivorsKept⟩
    obtain ⟨-, rfl⟩ | ⟨n, inner, inputs, content, g₁, g₂, g₃, -, -, -, ⟨-, hinputs, heditSteps₁⟩,
        ⟨-, hcontent, heditSteps₂⟩,
      ⟨hremove, heditSteps₃⟩, hrelink, hbypassFlows⟩ := destroyWithin_deep guards_always hs h
    · exact hs.linksMatch.linksOfSurvivors .value
    have hs₁ := hs.steps heditSteps₁.steps
    have hs₂ := hs₁.steps heditSteps₂.steps
    have hs₃ := hs₂.steps heditSteps₃.steps
    have hinside := (hfold hs hinputs).trans (hfold hs₁ hcontent) heditSteps₂.steps.survivorsKept
    have hremoved :=
      hinside.trans (linksOfSurvivors_remove hs₂.linksMatch hremove .value) heditSteps₃.steps.survivorsKept
    exact hremoved.trans (linksOfSurvivors_relink hs₃.linksMatch hbypassFlows hrelink)
      (relink_changes guards_always hrelink).allKept.toSurvivorsKept

theorem nodeAt?_destroyWithin {k : Nat} (hs : LinksScopesValid g) (hroot : id ≠ g.root)
    (h : destroyWithin true k g id = .ok g') :
    g'.nodeAt? id = none := by
  cases k with
  | zero => cases h
  | succ k =>
    obtain ⟨heither, rfl⟩ | ⟨n, inner, inputs, content, g₁, g₂, g₃, -, -, -, -, -, ⟨hremove, -⟩, hrelink, -⟩ :=
      destroyWithin_deep guards_always hs h
    · exact heither.resolve_left hroot
    · rw [← Option.not_isSome_iff_eq_none, (relink_changes guards_always hrelink).allKept.isSome_iff,
        isSome_remove hremove]
      exact fun hkept => hkept.1 rfl

theorem destroyWithin_of_gone {k : Nat} (hgone : id = g.root ∨ g.nodeAt? id = none)
    (h : destroyWithin true k g id = .ok g') : g' = g := by
  cases k with
  | zero => cases h
  | succ k =>
    obtain ⟨-, hsame⟩ | ⟨n, inner, hroot, hn, -⟩ := destroyWithin_eq h
    · exact hsame
    · obtain hself | hnone := hgone
      · exact (hroot hself).elim
      · cases hn.symm.trans hnone

structure DestroysExactly (g g' : Graph) (id : NodeId) : Prop extends OnlyRemoves g g' where
  of_gone {x : NodeId} : (g.nodeAt? x).isSome → g'.nodeAt? x = none →
    x = id ∨ Inside g id x ∨ TransGen (PrivateInput g) id x
  gone {x : NodeId} : TransGen (PrivateInput g) id x → g'.nodeAt? x = none
  flow {n : Node} : g.nodeAt? id = some n → n.internalScope = none → (∀ l ∈ g.flowLinks, l.involves id = false) →
    ∀ l, l ∈ g'.flowLinks ↔ l ∈ g.flowLinks

structure InputsDestroyed (g g' : Graph) (id : NodeId) : Prop extends OnlyRemoves g g' where
  flow (l : Link) : l ∈ g'.flowLinks ↔ l ∈ g.flowLinks
  of_gone {x : NodeId} : (g.nodeAt? x).isSome → g'.nodeAt? x = none → TransGen (PrivateInput g) id x
  closed {x y : NodeId} : g'.nodeAt? x = none → PrivateInput g x y → g'.nodeAt? y = none

def DestroyWithinExact (k : Nat) : Prop :=
  ∀ ⦃g : Graph⦄ ⦃id : NodeId⦄ ⦃g' : Graph⦄, WellFormed g → HasLayouts g → id ≠ g.root → (g.nodeAt? id).isSome →
    destroyWithin true k g id = .ok g' → g'.entries = g.entries → DestroysExactly g g' id

theorem SurvivorsKept.gone (h : SurvivorsKept g g') (hx : g.nodeAt? x = none) : g'.nodeAt? x = none := by
  rw [← Option.not_isSome_iff_eq_none] at hx ⊢
  exact fun hlive => hx (h.isSome hlive)

theorem EditSteps.entries_le (h : EditSteps always g g') : g.entries ≤ g'.entries := h.eventsReplay.entries_le

namespace DestroyWithinExact

variable {k : Nat}

theorem strip_one {g₁ g₂ : Graph} (hf : DestroyWithinExact k) (hs : WellFormed g) (hl : HasLayouts g)
    (hx : PrivateInput g id x) (hsteps : Steps always g g₁) (h : InputsDestroyed g g₁ id)
    (hdestroy : destroyWithin true k g₁ x = .ok g₂) (hquiet : g₂.entries = g₁.entries) : InputsDestroyed g g₂ id := by
  have hs₁ := hs.steps hsteps
  cases hn₁ : g₁.nodeAt? x with
  | none =>
    rw [destroyWithin_of_gone (.inr hn₁) hdestroy]
    exact h
  | some n₁ =>
    obtain ⟨n, hn, hskeleton⟩ := h.node hn₁
    obtain ⟨hkind, -, hinternal⟩ := Node.of_skeleton hskeleton
    obtain ⟨hplain, hentry, hfree⟩ := hx.plain hl hs.linksMatch hn
    have hplain₁ : n₁.internalScope = none := hinternal.trans hplain
    have hroot : x ≠ g₁.root := by
      rintro rfl
      obtain ⟨r, hr, hrootIsEntryPoint⟩ := hs₁.rootIsEntryPoint
      cases hn₁.symm.trans hr
      exact hentry (hkind.symm.trans hrootIsEntryPoint)
    have hdestroysExactly := hf hs₁ (hl.steps hsteps) hroot (by rw [hn₁]; rfl) hdestroy hquiet
    have hforth {a b : NodeId} (hab : PrivateInput g a b) (ha : (g₁.nodeAt? a).isSome) (hb : (g₁.nodeAt? b).isSome) :
        PrivateInput g₁ a b :=
      (h.toOnlyRemoves.privateInput_iff hs.linksMatch hs₁.linksMatch h.flow hb ha).2 hab
    have hback {y : NodeId} (hy : TransGen (PrivateInput g₁) x y) : TransGen (PrivateInput g) id y := by
      refine .head hx (TransGen.mono (fun a b hab => ?_) _ _ hy)
      obtain ⟨ha, hb⟩ := hab.live hs₁.linksMatch
      exact (h.toOnlyRemoves.privateInput_iff hs.linksMatch hs₁.linksMatch h.flow hb ha).1 hab
    have hgone {y : NodeId} (hlive : (g₁.nodeAt? y).isSome) (hy : g₂.nodeAt? y = none) :
        y = x ∨ TransGen (PrivateInput g₁) x y :=
      (hdestroysExactly.of_gone hlive hy).imp_right (Or.resolve_left · (hs₁.scopesOwned.not_inside hn₁ hplain₁))
    refine ⟨h.toOnlyRemoves.trans hdestroysExactly.toOnlyRemoves, fun l => ?_, fun {y} hlive hy => ?_,
      fun {y z} hy hyz => ?_⟩
    · refine (hdestroysExactly.flow hn₁ hplain₁ (fun l hl => ?_) l).trans (h.flow l)
      exact hfree l ((h.flow l).1 hl)
    · cases hy₁ : g₁.nodeAt? y with
      | none => exact h.of_gone hlive hy₁
      | some m =>
        obtain rfl | hchain := hgone (by rw [hy₁]; rfl) hy
        · exact .single hx
        · exact hback hchain
    · cases hz₁ : g₁.nodeAt? z with
      | none => exact hdestroysExactly.toSurvivorsKept.gone hz₁
      | some m =>
        cases hy₁ : g₁.nodeAt? y with
        | none => cases hz₁.symm.trans (h.closed hy₁ hyz)
        | some m' =>
          have hprivateInput := hforth hyz (by rw [hy₁]; rfl) (by rw [hz₁]; rfl)
          obtain rfl | hchain := hgone (by rw [hy₁]; rfl) hy
          · exact hdestroysExactly.gone (.single hprivateInput)
          · exact hdestroysExactly.gone (hchain.tail hprivateInput)

theorem strip {inputs : List NodeId} (hf : DestroyWithinExact k) (hs : WellFormed g) (hl : HasLayouts g)
    (hprivateInput : ∀ x ∈ inputs, PrivateInput g id x) (h : inputs.foldlM (destroyWithin true k) g = .ok g')
    (hquiet : g'.entries = g.entries) :
    InputsDestroyed g g' id ∧ ∀ x ∈ inputs, g'.nodeAt? x = none := by
  have hstart : InputsDestroyed g g id := by
    refine ⟨.refl hs.linksMatch, fun _ => .rfl, fun {x} hlive hgone => ?_, fun {x y} hgone hxy => ?_⟩
    · rw [hgone] at hlive
      cases hlive
    · have hlive := (hxy.live hs.linksMatch).1
      rw [hgone] at hlive
      cases hlive
  suffices (EditSteps always g g' ∧ (g'.entries = g.entries → InputsDestroyed g g' id)) ∧
    ∀ x ∈ inputs, g'.nodeAt? x = none from
    ⟨this.1.2 hquiet, this.2⟩
  refine foldlM_visits (P := fun h => EditSteps always g h ∧ (h.entries = g.entries → InputsDestroyed g h id))
    (Q := fun x h => h.nodeAt? x = none) h ⟨.refl, fun _ => hstart⟩ ?_
  rintro g₁ x hx g₂ ⟨heditSteps, hinputsDestroyed⟩ hdestroy
  have hs₁ := hs.steps heditSteps.steps
  have hrest : EditSteps always g₁ g₂ := destroyWithin_editSteps guards_always hs₁.toLinksScopesValid hdestroy
  refine ⟨⟨heditSteps.trans hrest, fun hquiet => ?_⟩, ?_, fun y hy => hrest.steps.survivorsKept.gone hy⟩
  · have hle := heditSteps.entries_le
    have hle' := hrest.entries_le
    exact strip_one hf hs hl (hprivateInput x hx) heditSteps.steps (hinputsDestroyed (by omega)) hdestroy (by omega)
  · refine nodeAt?_destroyWithin hs₁.toLinksScopesValid ?_ hdestroy
    rw [heditSteps.steps.survivorsKept.root]
    rintro rfl
    obtain ⟨r, hr, hrootIsEntryPoint⟩ := hs.rootIsEntryPoint
    exact ((hprivateInput _ hx).plain hl hs.linksMatch hr).2.1 hrootIsEntryPoint

theorem hollow {content : List NodeId} (hf : DestroyWithinExact k) (hs : WellFormed g) (hl : HasLayouts g)
    (hcontent : ∀ c ∈ content, Inside g id c) (h : content.foldlM (destroyWithin true k) g = .ok g')
    (hquiet : g'.entries = g.entries) :
    OnlyRemoves g g' ∧ ∀ x, (g.nodeAt? x).isSome → g'.nodeAt? x = none → Inside g id x := by
  let Hollow (h : Graph) : Prop := OnlyRemoves g h ∧ ∀ x, (g.nodeAt? x).isSome → h.nodeAt? x = none → Inside g id x
  have hstart : Hollow g := by
    refine ⟨.refl hs.linksMatch, fun x hlive hgone => ?_⟩
    rw [hgone] at hlive
    cases hlive
  suffices EditSteps always g g' ∧ (g'.entries = g.entries → Hollow g') from this.2 hquiet
  refine foldlM_induction (P := fun h => EditSteps always g h ∧ (h.entries = g.entries → Hollow h)) h ⟨.refl,
    fun _ => hstart⟩ ?_
  rintro g₁ c hc g₂ ⟨heditSteps, hhollow⟩ hdestroy
  have hs₁ := hs.steps heditSteps.steps
  have hrest : EditSteps always g₁ g₂ := destroyWithin_editSteps guards_always hs₁.toLinksScopesValid hdestroy
  refine ⟨heditSteps.trans hrest, fun hquiet => ?_⟩
  have hle := heditSteps.entries_le
  have hle' := hrest.entries_le
  obtain ⟨honlyRemoves, hgone⟩ := hhollow (by omega)
  by_cases hkept : c = g₁.root ∨ g₁.nodeAt? c = none
  · rw [destroyWithin_of_gone hkept hdestroy]
    exact ⟨honlyRemoves, hgone⟩
  obtain ⟨hroot, hlive⟩ := not_or.1 hkept
  have hlive := Option.isSome_iff_ne_none.2 hlive
  have hdestroysExactly := hf hs₁ (hl.steps heditSteps.steps) hroot hlive hdestroy (by omega)
  refine ⟨honlyRemoves.trans hdestroysExactly.toOnlyRemoves, fun x hx hnone => ?_⟩
  by_cases hx₁ : (g₁.nodeAt? x).isSome
  · obtain rfl | hinside | hchain := hdestroysExactly.of_gone hx₁ hnone
    · exact hcontent x hc
    · exact (hcontent c hc).trans hs.scopesOwned (honlyRemoves.inside hinside)
    · obtain ⟨s, hs, hsurrounds⟩ := hcontent c hc
      refine ⟨s, ?_, hsurrounds⟩
      rw [← honlyRemoves.homes hx₁, homeAt?_of_privateInput hchain, honlyRemoves.homes hlive]
      exact hs
  · exact hgone x hx (Option.not_isSome_iff_eq_none.1 hx₁)

theorem destroysExactly {inner : List ScopeId} {inputs : List NodeId} {content : List (List NodeId)} {g₁ g₂ g₃ : Graph}
    (hf : DestroyWithinExact k) (hs : WellFormed g) (hl : HasLayouts g) (hn : g.nodeAt? id = some n)
    (hinner : g.innerScopes id = .ok inner) (hprivate : g.privateInputs n = .ok inputs)
    (hstrip : inputs.foldlM (destroyWithin true k) g = .ok g₁) (heditSteps₁ : EditSteps always g g₁)
    (hlisted : inner.mapM (fun s => do return (← g₁.scope s).children) = .ok content)
    (hhollow : content.flatten.foldlM (destroyWithin true k) g₁ = .ok g₂) (heditSteps₂ : EditSteps always g₁ g₂)
    (hremove : g₂.remove id inner = .ok g₃) (heditSteps₃ : EditSteps always g₂ g₃) (hquiet : g₃.entries = g.entries) :
    DestroysExactly g g₃ id := by
  have hs₁ := hs.steps heditSteps₁.steps
  have hs₂ := hs₁.steps heditSteps₂.steps
  have hle₁ := heditSteps₁.entries_le
  have hle₂ := heditSteps₂.entries_le
  have hle₃ := heditSteps₃.entries_le
  have hprivateInput {x : NodeId} : x ∈ inputs ↔ PrivateInput g id x := hs.linksMatch.mem_privateInputs_iff hn hprivate
  obtain ⟨hinputsDestroyed, hinputs⟩ := hf.strip hs hl (fun x => hprivateInput.1) hstrip (by omega)
  have hinner₁ := innerScopes_of_remove hs₁.scopesOwned heditSteps₁.steps.survivorsKept heditSteps₂.steps.survivorsKept
      hinner hremove
  have hcontent (c : NodeId) (hc : c ∈ content.flatten) : Inside g₁ id c :=
    ((mem_content_iff hs₁.toRecordsValid hinner₁ hlisted).1 hc).inside
  obtain ⟨honlyRemoves₂, hgone₂⟩ := hf.hollow hs₁ (hl.steps heditSteps₁.steps) hcontent hhollow (by omega)
  have hlive₃ {x : NodeId} : (g₃.nodeAt? x).isSome ↔ x ≠ id ∧ (g₂.nodeAt? x).isSome := isSome_remove hremove x
  have honlyRemoves₃ : OnlyRemoves g₂ g₃ :=
    ⟨heditSteps₃.steps.survivorsKept, linksOfSurvivors_remove hs₂.linksMatch hremove .value,
    fun hx => homeAt?_remove hs₂.linksMatch hremove (hlive₃.1 hx).1⟩
  have hleft : OnlyRemoves g₁ g₃ := honlyRemoves₂.trans honlyRemoves₃
  refine ⟨hinputsDestroyed.toOnlyRemoves.trans hleft, fun {x} hx hgone => ?_, fun {x} hx => ?_,
    fun {m} hm hplain hfree l => ?_⟩
  · cases hx₁ : g₁.nodeAt? x with
    | none => exact .inr (.inr (hinputsDestroyed.of_gone hx hx₁))
    | some m =>
      rw [← Option.not_isSome_iff_eq_none, hlive₃] at hgone
      by_cases hself : x = id
      · exact .inl hself
      · have hnone := Option.not_isSome_iff_eq_none.1 fun hx₂ => hgone ⟨hself, hx₂⟩
        exact .inr (.inl (hinputsDestroyed.toOnlyRemoves.inside (hgone₂ x (by rw [hx₁]; rfl) hnone)))
  · refine hleft.toSurvivorsKept.gone ?_
    induction hx with
    | single hx => exact hinputs _ (hprivateInput.2 hx)
    | tail _ hx ih => exact hinputsDestroyed.closed ih hx
  · cases hn.symm.trans hm
    obtain rfl := (innerScopes_eq_nil_iff hinner hn).2 hplain
    cases hlisted
    cases hhollow
    refine (linksOfSurvivors_remove hs₁.linksMatch hremove .flow l).trans
      ⟨fun hl => (hinputsDestroyed.flow l).1 hl.1, fun hl => ?_⟩
    have hl₁ := (hinputsDestroyed.flow l).2 hl
    obtain ⟨-, htail, hhead⟩ := (hs₁.linksMatch.linksOfSurvivors .flow l).1 hl₁
    have hother := hfree l hl
    simp only [Link.involves, Bool.or_eq_false_iff, beq_eq_false_iff_ne] at hother
    exact ⟨hl₁, hlive₃.2 ⟨hother.1, htail⟩, hlive₃.2 ⟨hother.2, hhead⟩⟩

theorem succ (hf : DestroyWithinExact k) : DestroyWithinExact (k + 1) := by
  intro g id g' hs hl hroot hlive h hquiet
  obtain ⟨heither, -⟩ | ⟨n, inner, inputs, content, g₁, g₂, g₃, -, hn, hinner, ⟨hprivate, hstrip, heditSteps₁⟩,
    ⟨hlisted, hhollow, heditSteps₂⟩, ⟨hremove, heditSteps₃⟩, hrelink, hbypassFlows⟩ :=
    destroyWithin_deep guards_always hs.toLinksScopesValid h
  · obtain rfl | hnone := heither
    · exact (hroot rfl).elim
    · rw [hnone] at hlive
      cases hlive
  have heditSteps : EditSteps always g g₃ := heditSteps₁.trans (heditSteps₂.trans heditSteps₃)
  have hs₃ := hs.steps heditSteps.steps
  have hle := heditSteps.entries_le
  have hle' : g₃.entries ≤ g'.entries :=
    (EditChanges.eventsReplay (relink_editChanges guards_always hrelink)).entries_le
  have hdestroysExactly :=
    hf.destroysExactly hs hl hn hinner hprivate hstrip heditSteps₁ hlisted hhollow heditSteps₂ hremove
      heditSteps₃ (by omega)
  have hallKept : AllKept g₃ g' := (relink_changes guards_always hrelink).allKept
  have hgone {x : NodeId} : g'.nodeAt? x = none ↔ g₃.nodeAt? x = none := by
    rw [← Option.not_isSome_iff_eq_none, hallKept.isSome_iff, Option.not_isSome_iff_eq_none]
  refine ⟨hdestroysExactly.toOnlyRemoves.trans ⟨hallKept.toSurvivorsKept,
    linksOfSurvivors_relink hs₃.linksMatch hbypassFlows hrelink, fun {x} _ => ?_⟩,
    fun hx hnone => hdestroysExactly.of_gone hx (hgone.1 hnone), fun hx => hgone.2 (hdestroysExactly.gone hx),
    fun {m} hm hplain hfree => ?_⟩
  · exact homeAt?_relink hbypassFlows hrelink (by omega) x
  · cases hn.symm.trans hm
    rw [hs.linksMatch.bypass_eq_none hn hfree] at hrelink
    cases hrelink
    exact hdestroysExactly.flow hn hplain hfree

end DestroyWithinExact

theorem destroyWithinExact (k : Nat) : DestroyWithinExact k := by
  induction k with
  | zero =>
    intro g id g' _ _ _ _ h
    cases h
  | succ k ih => exact ih.succ

theorem events_remove {inner : List ScopeId} (h : g.remove id inner = .ok g') :
    ∃ events, g'.events = g.events ++ events ++ [.nodeRemoved id] := by
  obtain ⟨unlinked, left, s, n, hunlinked, hexits, -, -, hremovesNode⟩ := remove_eq h
  obtain ⟨events, hevents, -⟩ := (EditChanges.eventsReplay (@dropLinks_editChanges always _ _ _ hunlinked)).trans
    (EditChanges.eventsReplay (@EditMoves.editChanges always _ _ hexits.editMoves))
  exact ⟨events, by rw [hremovesNode.events, hevents]⟩

/-- Who has come into a scope while the node was on its way out has done so before it was removed. -/
theorem entries_of_not_entersBeforeRemoval {inner : List ScopeId} {g₂ g₃ : Graph} (heditSteps : EditSteps always g g₂)
    (hremove : g₂.remove id inner = .ok g₃) (hafter : EventsReplay g₃ g') (h : ¬EntersBeforeRemoval g g' id) :
    g₃.entries = g.entries := by
  obtain ⟨before, hbefore, -⟩ := heditSteps.eventsReplay
  obtain ⟨during, hduring⟩ := events_remove hremove
  obtain ⟨after, hafter, -⟩ := hafter
  have hall : g'.events.drop g.events.length = (before ++ during) ++ .nodeRemoved id :: after := by
    rw [hafter, hduring, hbefore]
    simp
  have hnone : (before ++ during).countP Event.isEntry = 0 := by
    rw [List.countP_eq_zero]
    intro e he hentry
    unfold Event.isEntry at hentry
    split at hentry
    next x s =>
      refine h ⟨x, s, ?_⟩
      rw [hall]
      exact (List.singleton_sublist.2 he).append (List.cons_sublist_cons.2 (List.nil_sublist _))
    next => cases hentry
  have hlast : [Event.nodeRemoved id].countP Event.isEntry = 0 := rfl
  rw [List.countP_append] at hnone
  rw [entries, entries, hduring, hbefore]
  simp only [List.countP_append, hlast]
  omega

/-- A value link is lost only with a node that it joins. Unless somebody comes into a scope before the node is removed,
what goes besides the node and what is inside it are the expressions that serve the node, directly or through one
another, so they are all that others can lose. -/
theorem mem_valueLinks_destroy_iff (hr : Reachable g) (hid : id ≠ g.root) (hlive : g.contains id = true)
    (h : g.destroy id true = .ok g') :
    (∀ l, l ∈ g'.valueLinks ↔
      l ∈ g.valueLinks ∧ g'.contains l.tail.node = true ∧ g'.contains l.head.node = true) ∧
    (¬EntersBeforeRemoval g g' id →
      (∀ x, g.contains x = true → x ≠ id → ¬Inside g id x →
        (g'.contains x = false ↔ TransGen (PrivateInput g) id x)) ∧
      ∀ l ∈ g.valueLinks, g'.contains l.head.node = true → l.tail.node ≠ id → ¬Inside g id l.tail.node →
        (l ∈ g'.valueLinks ↔ ¬TransGen (PrivateInput g) id l.tail.node)) := by
  have hs := hr.wellFormed
  obtain ⟨k, h⟩ := destroyWithin_of_destroy h
  have hsurviving (l : Link) : l ∈ g'.valueLinks ↔
      l ∈ g.valueLinks ∧ g'.contains l.tail.node = true ∧ g'.contains l.head.node = true := by
    rw [contains_iff, contains_iff]
    exact linksOfSurvivors_destroyWithin hs.toLinksScopesValid h l
  refine ⟨hsurviving, fun hquiet => ?_⟩
  obtain ⟨heither, -⟩ | ⟨n, inner, inputs, content, g₁, g₂, g₃, -, hn, hinner, ⟨hprivate, hstrip, heditSteps₁⟩,
    ⟨hlisted, hhollow, heditSteps₂⟩, ⟨hremove, heditSteps₃⟩, hrelink, -⟩ :=
    destroyWithin_deep guards_always hs.toLinksScopesValid h
  · obtain rfl | hnone := heither
    · exact (hid rfl).elim
    · rw [contains_iff, hnone] at hlive
      cases hlive
  have heditChanges : EditChanges always g₃ g' := relink_editChanges guards_always hrelink
  have hdestroysExactly :=
    (destroyWithinExact k).destroysExactly hs hr.hasLayouts hn hinner hprivate hstrip heditSteps₁ hlisted
      hhollow heditSteps₂ hremove heditSteps₃
    (entries_of_not_entersBeforeRemoval (heditSteps₁.trans heditSteps₂) hremove heditChanges.eventsReplay hquiet)
  have hgone (x : NodeId) : g'.contains x = false ↔ g₃.nodeAt? x = none := by
    rw [← Bool.not_eq_true, contains_iff, heditChanges.changes.allKept.isSome_iff, Option.not_isSome_iff_eq_none]
  have hexact (x : NodeId) (hx : g.contains x = true) (hother : x ≠ id) (hout : ¬Inside g id x) :
      g'.contains x = false ↔ TransGen (PrivateInput g) id x := by
    rw [hgone]
    refine ⟨fun hnone => ?_, hdestroysExactly.gone⟩
    exact ((hdestroysExactly.of_gone (contains_iff.1 hx) hnone).resolve_left hother).resolve_left hout
  refine ⟨hexact, fun l hl hhead hother hout => ?_⟩
  have htail : g.contains l.tail.node = true := contains_iff.2 ((hs.linksMatch.linksOfSurvivors .value l).1 hl).2.1
  rw [hsurviving, ← hexact _ htail hother hout, Bool.not_eq_false]
  exact ⟨fun hkept => hkept.2.1, fun hkept => ⟨hl, hkept, hhead⟩⟩

/-- Node 3 is a literal. It is the operand of the operator 4, and the first one of the operator 5. The variable 6 is the
second one. -/
def sharedOperand : Except Fault Graph := do
  let g ← create {} {} .standard {}
  let s ← g.rootScope
  [.literal (.int 1) s, .operator ⟨"-", .int, [⟨.int, false⟩]⟩ s,
  .operator ⟨"+", .int, [⟨.int, false⟩, ⟨.int, false⟩]⟩ s,
    .declaration .int "x" s, .connect ⟨⟨3⟩, ⟨0⟩⟩ ⟨⟨4⟩, ⟨3⟩⟩ true, .connect ⟨⟨3⟩, ⟨0⟩⟩ ⟨⟨5⟩, ⟨3⟩⟩ true,
    .connect ⟨⟨6⟩, ⟨3⟩⟩ ⟨⟨5⟩, ⟨4⟩⟩ true].foldlM perform g

theorem consistent_sharedOperand (h : sharedOperand = .ok g) : Reachable g ∧ Consistent g := by
  simp only [sharedOperand, bind_eq_ok] at h
  obtain ⟨g₀, hcreate, s, -, h⟩ := h
  refine consistent_foldlM h (.create hcreate) (consistent_create hcreate) fun e he => ?_
  simp only [List.mem_cons, List.not_mem_nil, or_false] at he
  rcases he with rfl | rfl | rfl | rfl | rfl | rfl | rfl <;> exact ⟨rfl, rfl⟩

theorem destroy_sharedOperand : ∃ g g', sharedOperand = .ok g ∧ g.destroy ⟨4⟩ true = .ok g' ∧ ⟨4⟩ ≠ g.root ∧
    (∀ x, ¬Inside g ⟨4⟩ x) ∧ (g'.events.drop g.events.length).any Event.isEntry = false ∧
    (g.valueLinks = [⟨⟨⟨3⟩, ⟨0⟩⟩, ⟨⟨4⟩, ⟨3⟩⟩, .value⟩, ⟨⟨⟨3⟩, ⟨0⟩⟩, ⟨⟨5⟩, ⟨3⟩⟩, .value⟩,
    ⟨⟨⟨6⟩, ⟨3⟩⟩, ⟨⟨5⟩, ⟨4⟩⟩, .value⟩] ∧
      g'.valueLinks = [⟨⟨⟨6⟩, ⟨3⟩⟩, ⟨⟨5⟩, ⟨4⟩⟩, .value⟩]) ∧
    (g.contains ⟨4⟩ = true ∧ g.contains ⟨3⟩ = true ∧ g'.contains ⟨3⟩ = false ∧ g'.contains ⟨5⟩ = true) := by
  obtain ⟨g, hg⟩ := exists_of_isOk (x := sharedOperand) (by decide +kernel)
  have hlinks := eq_ok_of_toOption_bind (fun g => do
    let g' ← g.destroy ⟨4⟩ true
    return (g.valueLinks, g'.valueLinks, (g'.events.drop g.events.length).any Event.isEntry))
    hg (b := ([⟨⟨⟨3⟩, ⟨0⟩⟩, ⟨⟨4⟩, ⟨3⟩⟩, .value⟩, ⟨⟨⟨3⟩, ⟨0⟩⟩, ⟨⟨5⟩, ⟨3⟩⟩, .value⟩, ⟨⟨⟨6⟩, ⟨3⟩⟩, ⟨⟨5⟩, ⟨4⟩⟩, .value⟩],
      [⟨⟨⟨6⟩, ⟨3⟩⟩, ⟨⟨5⟩, ⟨4⟩⟩, .value⟩], false)) (by decide +kernel)
  have hnodes := eq_ok_of_toOption_bind (fun g => do
    let g' ← g.destroy ⟨4⟩ true
    let n ← g.node ⟨4⟩
    return (g.root, n.internalScope, g.contains ⟨4⟩, g.contains ⟨3⟩, g'.contains ⟨3⟩, g'.contains ⟨5⟩))
    hg (b := (⟨1⟩, none, true, true, false, true)) (by decide +kernel)
  simp only [bind_eq_ok, pure_eq_ok, Prod.mk.injEq] at hlinks hnodes
  obtain ⟨g', hg', hbefore, hafter, hquiet⟩ := hlinks
  obtain ⟨g'', hg'', n, hn, hroot, hplain, hlive⟩ := hnodes
  cases hg'.symm.trans hg''
  have ho := (consistent_sharedOperand hg).1.wellFormed.scopesOwned
  exact ⟨g, g', hg, hg', by rw [hroot]; decide, fun x => ho.not_inside (node_eq_ok_iff.1 hn) hplain, hquiet,
    ⟨hbefore, hafter⟩, hlive⟩

theorem not_entersBeforeRemoval (h : (g'.events.drop g.events.length).any Event.isEntry = false) :
    ¬EntersBeforeRemoval g g' id := by
  rintro ⟨x, s, hsublist⟩
  rw [List.any_eq_false] at h
  exact h _ (hsublist.subset List.mem_cons_self) rfl

/-- The literal goes because it serves the operator. The variable does not serve it, and its link stays. -/
theorem valueLinks_sharedOperand : ∃ g g', sharedOperand = .ok g ∧ Reachable g ∧ ⟨4⟩ ≠ g.root ∧ g.contains ⟨4⟩ = true ∧
    g.destroy ⟨4⟩ true = .ok g' ∧ ¬EntersBeforeRemoval g g' ⟨4⟩ ∧
    g'.contains ⟨3⟩ = false ∧ TransGen (PrivateInput g) ⟨4⟩ ⟨3⟩ ∧
    ⟨⟨⟨6⟩, ⟨3⟩⟩, ⟨⟨5⟩, ⟨4⟩⟩, .value⟩ ∈ g'.valueLinks ∧ ¬TransGen (PrivateInput g) ⟨4⟩ ⟨6⟩ := by
  obtain ⟨g, g', hg, hg', hroot, hout, hevents, ⟨hbefore, hafter⟩, hlive, hliteral, hgone, hreader⟩ :=
      destroy_sharedOperand
  have hr := (consistent_sharedOperand hg).1
  have hquiet := @not_entersBeforeRemoval g g' ⟨4⟩ hevents
  obtain ⟨hnodes, hlinks⟩ := (mem_valueLinks_destroy_iff hr hroot hlive hg').2 hquiet
  have hkept : ⟨⟨⟨6⟩, ⟨3⟩⟩, ⟨⟨5⟩, ⟨4⟩⟩, .value⟩ ∈ g'.valueLinks := by
    rw [hafter]
    exact List.mem_cons_self
  refine ⟨g, g', hg, hr, hroot, hlive, hg', hquiet, hgone, ?_, hkept, ?_⟩
  · exact (hnodes ⟨3⟩ hliteral (by decide) (hout _)).1 hgone
  · exact (hlinks ⟨⟨⟨6⟩, ⟨3⟩⟩, ⟨⟨5⟩, ⟨4⟩⟩, .value⟩ (by simp [hbefore]) hreader (by decide) (hout _)).1 hkept

/-- The operator 5 stays and loses an operand: the literal was neither destroyed nor inside what was, and it is gone. -/
theorem not_kept_sharedOperand : ∃ g g' l, sharedOperand = .ok g ∧ Reachable g ∧ Consistent g ∧ ⟨4⟩ ≠ g.root ∧
    g.destroy ⟨4⟩ true = .ok g' ∧ l ∈ g.valueLinks ∧ l.head.node = ⟨5⟩ ∧ g'.contains l.head.node = true ∧
    l.tail.node = ⟨3⟩ ∧ ¬Inside g ⟨4⟩ l.tail.node ∧ l ∉ g'.valueLinks := by
  obtain ⟨g, g', hg, hg', hroot, hout, -, ⟨hbefore, hafter⟩, -, -, -, hreader⟩ := destroy_sharedOperand
  obtain ⟨hr, hc⟩ := consistent_sharedOperand hg
  refine ⟨g, g', ⟨⟨⟨3⟩, ⟨0⟩⟩, ⟨⟨5⟩, ⟨3⟩⟩, .value⟩, hg, hr, hc, hroot, hg', ?_, rfl, hreader, rfl, hout _, ?_⟩
  · rw [hbefore]
    decide
  · rw [hafter]
    decide

end Graph

end FlowGraph
