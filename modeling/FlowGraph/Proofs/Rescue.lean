import FlowGraph.Proofs.Inventory
import FlowGraph.Proofs.Passage
import FlowGraph.Proofs.Retinue

/-!
# A raw destruction

A raw destruction takes one node, its links and its inner scopes. Whoever is in these comes out before, to where the node
is: nobody there is around that scope, so nobody is refused on the way out, and whoever is anywhere else stays.
-/

namespace FlowGraph.Graph

variable {g g' left : Graph} {well : Prop} {c id x : NodeId} {s t u target : ScopeId} {n : Node} {inner : List ScopeId}

theorem dropLink_terminates (hw : LinksMatch g) (l : Link) : Terminates well (g.dropLink l) := by
  refine .bind ?_ fun _ _ => .pure _
  by_cases hl : l ∈ g.links l.kind
  · rw [disconnect, if_neg (not_not_intro hl)]
    cases hkind : l.kind with
    | flow => exact .pure _
    | value =>
      obtain ⟨-, -, -, slot, -, hhead, -⟩ := hw.joined hl
      obtain ⟨m, hm, -⟩ := Option.bind_eq_some_iff.1 hhead
      obtain ⟨m', hm', -⟩ := (Change.allKept (@Change.unlink always g l hl)).node_of hm
      refine .bind ?_ fun _ _ => .pure _
      rw [onValueDisconnected, node_eq_ok_iff.2 hm', ok_bind]
      split
      next => exact .pure _
      next =>
        split
        next => exact .pure _
        next => exact .pure _
  · rw [disconnect, if_pos hl]
    exact .pure _

theorem dropLinks_terminates (hw : LinksMatch g) (ls : List Link) : Terminates well (ls.foldlM dropLink g) := by
  refine .foldlM (P := LinksMatch) hw fun g₁ l _ hw₁ => ⟨dropLink_terminates hw₁ l, fun g₂ hg₂ => ?_⟩
  exact hw₁.changes (EditChanges.changes (@dropLink_editChanges always _ _ _ hg₂))

theorem removeScope_terminates (hs : well → ∃ sc, g.scopeAt? s = some sc) : Terminates well (g.removeScope s) := by
  intro e he
  rw [removeScope] at he
  split at he
  next => cases he
  next e' hdestroy =>
    cases he
    refine ⟨fun hw => ?_, by rintro ⟨⟩⟩
    obtain ⟨sc, hsc⟩ := hs hw
    rw [Arena.destroy, Arena.get_eq_some_iff.2 hsc] at hdestroy
    cases hdestroy

theorem removeScopes_terminates (hnodup : inner.Nodup) (hinner : well → ∀ s ∈ inner, ∃ sc, g.scopeAt? s = some sc) :
    Terminates well (inner.foldlM removeScope g) := by
  induction inner generalizing g with
  | nil => exact .pure _
  | cons s inner ih =>
    obtain ⟨hs, hnodup⟩ := List.nodup_cons.1 hnodup
    rw [List.foldlM_cons]
    refine .bind (removeScope_terminates fun hw => hinner hw s List.mem_cons_self) fun g₁ hg₁ => ih hnodup
      fun hw t ht => ?_
    rw [(removeScope_eq hg₁).2.1, if_neg]
    · exact hinner hw t (List.mem_cons_of_mem _ ht)
    · rintro rfl
      exact hs ht

namespace EditInvariant

theorem rootScope (h : EditInvariant well g) : ∃ s sc, g.rootScope = .ok s ∧ g.scopeAt? s = some sc := by
  obtain ⟨s, hs, -⟩ := h.rootFinitelyNested.root
  obtain ⟨r, hr, hinternal⟩ := rootScope_eq_ok_iff.1 hs
  obtain ⟨sc, hsc, -⟩ := h.wellFormed.scopesOwned.internal hr hinternal
  exact ⟨s, sc, hs, hsc⟩

theorem innerScopes (h : EditInvariant well g) (hn : g.nodeAt? id = some n) : Terminates well (g.innerScopes id) := by
  refine .bind (.of_ok (node_eq_ok_iff.2 hn)) fun n' hn' => ?_
  cases (node_eq_ok_iff.2 hn).symm.trans hn'
  cases hi : n.internalScope with
  | none => exact .pure _
  | some i =>
    obtain ⟨si, hsi, -⟩ := h.wellFormed.scopesOwned.internal hn hi
    exact .bind (.of_ok (scope_eq_ok_iff.2 hsi)) fun _ _ => .pure _

theorem remove (h : EditInvariant well g) (hn : well → ∃ n, g.nodeAt? id = some n)
    (hinner : ∀ n, g.nodeAt? id = some n → g.innerScopes id = .ok inner) : Terminates well (g.remove id inner) := by
  refine .bind (dropLinks_terminates h.wellFormed.linksMatch _) fun unlinked hunlinked => ?_
  have hchanges : Changes clear g unlinked := dropLinks_changes hunlinked
  have h₁ : EditInvariant well unlinked := h.changes hchanges
  refine .bind (terminates_node fun hw => ?_) fun n hn₁ => ?_
  · obtain ⟨n, hn⟩ := hn hw
    obtain ⟨n₁, hn₁, -⟩ := hchanges.allKept.node_of hn
    exact ⟨n₁, hn₁⟩
  rw [node_eq_ok_iff] at hn₁
  have hfinish {left : Graph} {m : Node} (hleft : EditInvariant well left) (hallKept : AllKept g left)
      (hm : left.nodeAt? id = some m) : Terminates well (inner.foldlM removeScope left) := by
    obtain ⟨m₀, hm₀, -⟩ := hallKept.node hm
    have hinner₁ :=
      hleft.wellFormed.scopesOwned.innerScopes_of_survivorsKept hallKept.toSurvivorsKept (hinner m₀ hm₀) hm
    refine removeScopes_terminates (hleft.wellFormed.nodup_innerScopes hinner₁) fun _ s hs => ?_
    obtain ⟨sc, hsc, -⟩ := hleft.wellFormed.scopesOwned.live_of_inner hinner₁ hs
    exact ⟨sc, hsc⟩
  split
  next s hscope =>
    refine .bind (h₁.detach (homeAt?_eq_some_iff.2 ⟨n, hn₁, hscope⟩)) fun left hleft => ?_
    obtain ⟨hmoves, hm⟩ := detach_moves hleft hn₁ hscope
    exact .bind (hfinish (h₁.moves hmoves.of_never) (hchanges.allKept.trans hmoves.changes.allKept) hm)
      fun _ _ => .pure _
  next =>
    rw [pure_bind]
    exact .bind (hfinish h₁ hchanges.allKept hn₁) fun _ _ => .pure _

theorem rescue (h : EditInvariant well g) (hinner : ∀ s ∈ inner, ∃ sc, g.scopeAt? s = some sc)
    (ht : ∃ sc, g.scopeAt? target = some sc) : Terminates well (inner.foldlM (rescue target) g) := by
  refine .foldlM (P := fun g₁ => EditInvariant well g₁ ∧ AllKept g g₁) ⟨h, .refl g⟩ ?_
  rintro g₁ s hs ⟨h₁, hallKept⟩
  obtain ⟨sc, hsc⟩ := hinner s hs
  obtain ⟨st, hst⟩ := ht
  obtain ⟨sc₁, hsc₁, -⟩ := hallKept.scope_of hsc
  obtain ⟨st₁, hst₁, -⟩ := hallKept.scope_of hst
  refine ⟨.bind (h₁.transferChildren (fun _ => ⟨sc₁, hsc₁⟩) ⟨st₁, hst₁⟩) fun _ _ => .pure _, fun g₂ hg₂ => ?_⟩
  obtain ⟨⟨_, r⟩, hmoved, ⟨⟩⟩ := bind_eq_ok.1 hg₂
  have hmoves := (transferChildren_editMoves (guards_clear target) hmoved).moves
  exact ⟨h₁.moves hmoves, hallKept.trans hmoves.changes.allKept⟩

/-- Whether the entry point is in a scope or not, and wherever the node is, there is a graph without it. -/
theorem destroy_raw (h : EditInvariant True g) (id : NodeId) : ∃ g', g.destroy id false = .ok g' := by
  obtain ⟨k, hk⟩ : ∃ k, g.destroyBound = k + 1 := Nat.exists_eq_succ_of_ne_zero (Nat.mul_ne_zero (by omega) (by omega))
  refine Terminates.exists_ok ?_
  rw [destroy, hk, destroyWithin]
  split
  next => exact .pure _
  split
  next => exact .pure _
  next hlive =>
    rw [Bool.not_eq_true', Bool.not_eq_false, contains_iff] at hlive
    obtain ⟨n, hn⟩ := Option.isSome_iff_exists.1 hlive
    refine .bind (h.innerScopes hn) fun inner hinner => .bind (.of_ok (node_eq_ok_iff.2 hn)) fun n' hn' => ?_
    cases (node_eq_ok_iff.2 hn).symm.trans hn'
    have hremove {g₁ : Graph} (h₁ : EditInvariant True g₁) (hallKept : AllKept g g₁) :
        Terminates True (g₁.remove id inner) := by
      obtain ⟨n₁, hn₁, -⟩ := hallKept.node_of hn
      refine h₁.remove (fun _ => ⟨n₁, hn₁⟩) fun m hm => ?_
      exact h₁.wellFormed.scopesOwned.innerScopes_of_survivorsKept hallKept.toSurvivorsKept hinner hm
    have hrescue {target : ScopeId} (ht : ∃ sc, g.scopeAt? target = some sc) :
        Terminates True (inner.foldlM (Graph.rescue target) g >>= fun g₁ => g₁.remove id inner) := by
      refine .bind (h.rescue (fun s hs => ?_) ht) fun g₁ hg₁ => ?_
      · obtain ⟨sc, hsc, -⟩ := h.wellFormed.scopesOwned.live_of_inner hinner hs
        exact ⟨sc, hsc⟩
      · have hmoves := rescue_moves (guards_clear target) hg₁
        exact hremove (h.moves hmoves) hmoves.changes.allKept
    simp only [Bool.false_eq_true, if_false]
    split
    next => exact hremove h (.refl g)
    next =>
      split
      next s hs => exact hrescue (h.live_of_home trivial (homeAt?_eq_some_iff.2 ⟨n, hn, hs⟩))
      next =>
        obtain ⟨s, sc, hroot, hsc⟩ := h.rootScope
        rw [hroot]
        exact hrescue ⟨sc, hsc⟩

end EditInvariant

theorem CompanyMoved.othersStay (h : CompanyMoved s t c g left g') (hu : u ≠ s) (hx : g.homeAt? x = some u) :
    g'.homeAt? x = some u := by
  have hstays : left.homeAt? x = some u := by
    rw [h.stays, hx]
    rw [hx]
    exact fun hhome => hu (Option.some.inj hhome)
  rcases h.companyEntered.homes x with hsame | ⟨hfree, -, -⟩
  · exact hsame.trans hstays
  · cases hfree.symm.trans hstays

theorem TransferRuns.othersStay {cs : List NodeId} {r : Except ScopeError Unit} (h : TransferRuns s t cs g g' r)
    (hu : u ≠ s) (hx : g.homeAt? x = some u) : g'.homeAt? x = some u := by
  induction h with
  | done => exact hx
  | gone _ _ ih => exact ih hx
  | moved _ _ _ hcompanyMoved _ ih => exact ih (hcompanyMoved.othersStay hu hx)
  | refused => exact hx

/-- Nobody of a scope of the node is around the target, so all of it comes there, scope by scope. -/
theorem rescue_homes (hg : Consistent g) (ho : ScopesOwned g) (hclear : clear g id target)
    (hinner : ∀ s ∈ inner, ∃ sc, g.scopeAt? s = some sc ∧ sc.owner = id) (h : inner.foldlM (rescue target) g = .ok g')
    (hx : g.homeAt? x = some u) : g'.homeAt? x = some (if u ∈ inner then target else u) := by
  induction inner generalizing g u with
  | nil =>
    cases h
    rw [if_neg List.not_mem_nil, hx]
  | cons s inner ih =>
    rw [List.foldlM_cons] at h
    obtain ⟨_, hrescue, h⟩ := bind_eq_ok.1 h
    obtain ⟨⟨g₁, r⟩, hmoved, ⟨⟩⟩ := bind_eq_ok.1 hrescue
    have hmoves := (transferChildren_editMoves guardsAt_into hmoved).moves
    have hchanges := (transferChildren_editMoves (guards_clear target) hmoved).moves.changes
    have hallKept := hchanges.allKept
    obtain ⟨sc, hsc, howner⟩ := hinner s List.mem_cons_self
    have htarget {v : ScopeId} (hv : v ∈ s :: inner) : v ≠ target := by
      rintro rfl
      obtain ⟨sc, hsc, howner⟩ := hinner v hv
      exact OwnersOnPath.owner_ne hclear ho hsc howner
    obtain ⟨sc', hsc', htransfer⟩ := bind_eq_ok.1 hmoved
    have htransferRuns := transferRuns_of_transfer ho (htarget List.mem_cons_self) (hclear.live) htransfer
    have hway : AroundOnly g s target fun _ => False := by
      refine .of_clear (hclear.mono fun _ _ => trivial) fun y hy _ => ?_
      obtain ⟨m, hm, hs⟩ := homeAt?_eq_some_iff.1 hy
      exact OwnersOnPath.apart hclear ho hm hs hsc howner
    obtain ⟨-, hall⟩ := htransferRuns.all (htarget List.mem_cons_self) hg ho hway
    have hrest {v : ScopeId} (hv : g₁.homeAt? x = some v) : g'.homeAt? x = some (if v ∈ inner then target else v) := by
      refine ih (hg.changes hchanges) (ho.allKept hallKept) (OwnersOnPath.moves_into hclear hmoves)
        (fun t ht => ?_) h hv
      obtain ⟨st, hst, hown⟩ := hinner t (List.mem_cons_of_mem _ ht)
      obtain ⟨st₁, hst₁, hskeleton⟩ := hallKept.scope_of hst
      exact ⟨st₁, hst₁, (Scope.of_skeleton hskeleton).1.trans hown⟩
    by_cases hus : u = s
    · subst hus
      rw [hrest (hall x ((hg.mem_children_iff hsc').2 hx) hx), if_pos List.mem_cons_self,
        if_neg fun hmem => htarget (List.mem_cons_of_mem _ hmem) rfl]
    · rw [hrest (htransferRuns.othersStay hus hx)]
      simp only [List.mem_cons, hus, false_or]

def SlotsLoseOnly (id : NodeId) (g g' : Graph) : Prop := ∀ r : SlotRef, r.node ≠ id →
  (g'.slotAt? r).map (·.adjacent.filter (·.node ≠ id)) = (g.slotAt? r).map (·.adjacent.filter (·.node ≠ id))

theorem SlotsLoseOnly.trans {g₁ g₂ g₃ : Graph} (h : SlotsLoseOnly id g₁ g₂) (h' : SlotsLoseOnly id g₂ g₃) :
    SlotsLoseOnly id g₁ g₃ :=
  fun r hr => (h' r hr).trans (h r hr)

theorem SlotsLoseOnly.of_slots (h : ∀ r, (g'.slotAt? r).map Slot.adjacent = (g.slotAt? r).map Slot.adjacent) :
    SlotsLoseOnly id g g' := by
  intro r _
  have hsame := congrArg (Option.map (List.filter fun p : SlotRef => p.node ≠ id)) (h r)
  rwa [Option.map_map, Option.map_map] at hsame

theorem Slot.filter_detach {slot : Slot} {r : SlotRef} (hr : r.node = id) :
    (slot.detach r).adjacent.filter (·.node ≠ id) = slot.adjacent.filter (·.node ≠ id) := by
  rw [Slot.detach]
  split
  next =>
    rw [Slot.refresh, ← List.erase_filter, List.erase_of_not_mem]
    simp [hr]
  next => rfl

theorem slotAt?_modifyNode {f : Node → Node} (hf : ∀ n, (f n).slots = n.slots) (r : SlotRef) :
    (g.modifyNode id f).slotAt? r = g.slotAt? r := by
  rw [slotAt?, nodeAt?_modifyNode, slotAt?]
  split
  next =>
    cases g.nodeAt? r.node with
    | none => rfl
    | some n => exact congrArg (·[r.slot.index]?) (hf n)
  next => rfl

theorem Moves.slotAt? {may : Graph → NodeId → ScopeId → Prop} (h : Moves may g g') (r : SlotRef) :
    g'.slotAt? r = g.slotAt? r := by
  induction h with
  | refl => rfl
  | tail _ hmove ih =>
    refine Eq.trans ?_ ih
    have hscope {h : Graph} (s : ScopeId) (f : Scope → Scope) : (h.modifyScope s f).slotAt? r = h.slotAt? r := by
      rw [Graph.slotAt?, nodeAt?_modifyScope, Graph.slotAt?]
    cases hmove with
    | note e => rfl
    | enter => exact (hscope _ _).trans (slotAt?_modifyNode (fun _ => by rfl) r)
    | leave => exact (hscope _ _).trans (slotAt?_modifyNode (fun _ => by rfl) r)
    | declare => exact hscope _ _
    | lead => exact hscope _ _

theorem dropLink_slotsLoseOnly (hw : LinksMatch g) {l : Link} (hl : l.involves id = true) (h : g.dropLink l = .ok g') :
    SlotsLoseOnly id g g' := by
  rcases dropLink_eq h with ⟨-, rfl⟩ | ⟨hmem, hpropertyWritten⟩
  · exact fun _ _ => rfl
  have hremoved : SlotsLoseOnly id g (g.removeLink l) := by
    intro r hr
    obtain ⟨-, hnodes, -⟩ := hw.joined hmem
    rw [slotAt?_removeLink fun he => hnodes (congrArg SlotRef.node he)]
    simp only [Link.involves, Bool.or_eq_true, beq_iff_eq] at hl
    split
    next htail =>
      subst htail
      rw [Option.map_map]
      exact congrArg (Option.map · _) (funext fun slot => Slot.filter_detach (hl.resolve_left hr))
    next =>
      split
      next hhead =>
        subst hhead
        rw [Option.map_map]
        exact congrArg (Option.map · _) (funext fun slot => Slot.filter_detach (hl.resolve_right hr))
      next => rfl
  refine hremoved.trans ?_
  rcases hpropertyWritten with rfl | ⟨i, f, rfl⟩
  · exact fun _ _ => rfl
  · exact .of_slots fun r => congrArg _ (slotAt?_modifyNode (fun _ => by rfl) r)

theorem remove_slotsLoseOnly (hw : LinksMatch g) (h : g.remove id inner = .ok g') : SlotsLoseOnly id g g' := by
  obtain ⟨unlinked, left, s, -, hunlinked, hexits, -, -, hremovesNode⟩ := remove_eq h
  have hdropped : LinksMatch unlinked ∧ SlotsLoseOnly id g unlinked := by
    refine foldlM_induction (P := fun g₁ => LinksMatch g₁ ∧ SlotsLoseOnly id g g₁) hunlinked ⟨hw, fun _ _ => rfl⟩ ?_
    rintro g₁ l hl g₂ ⟨hw₁, hslotsLoseOnly⟩ hdrop
    refine ⟨hw₁.changes (EditChanges.changes (@dropLink_editChanges always _ _ _ hdrop)), ?_⟩
    exact hslotsLoseOnly.trans (dropLink_slotsLoseOnly hw₁ (List.mem_filter.1 hl).2 hdrop)
  refine (hdropped.2.trans (.of_slots fun r => congrArg _ (hexits.moves.slotAt? r))).trans fun r hr => ?_
  rw [slotAt?, slotAt?, hremovesNode.nodeAt?, if_neg hr]

/-- One node has gone, with its links and its inner scopes. Whoever was in these has come to the target, whoever was
in another scope is there still, and all that is left is as it was, linked in the same order. -/
structure Rescues (g g' : Graph) (id : NodeId) (inner : List ScopeId) (target : ScopeId) : Prop where
  nodes : g'.nodes = g.nodes.filter (· != id)
  live (x : NodeId) : g'.contains x = true ↔ x ≠ id ∧ g.contains x = true
  shapesKept : ShapesKept g g'
  links (k : SlotKind) (l : Link) : l ∈ g'.links k ↔ l ∈ g.links k ∧ l.involves id = false
  linked (r : SlotRef) : r.node ≠ id →
    (g'.slotAt? r).map Slot.adjacent = (g.slotAt? r).map (·.adjacent.filter (·.node ≠ id))
  rescued {x : NodeId} {s : ScopeId} : s ∈ inner → g.homeAt? x = some s → x ≠ id → g'.homeAt? x = some target
  kept {x : NodeId} {s : ScopeId} : s ∉ inner → g.homeAt? x = some s → x ≠ id → g'.homeAt? x = some s
  scopes (s : ScopeId) : (g'.scopeAt? s).isSome ↔ s ∉ inner ∧ (g.scopeAt? s).isSome

theorem links_remove (hw : LinksMatch g) (h : g.remove id inner = .ok g') (k : SlotKind) (l : Link) :
    l ∈ g'.links k ↔ l ∈ g.links k ∧ l.involves id = false := by
  obtain ⟨unlinked, left, s, -, hunlinked, hexits, -, -, hremovesNode⟩ := remove_eq h
  rw [links_congr hremovesNode.valueLinks hremovesNode.flowLinks, links_moves hexits.moves,
    links_dropLinks hw hunlinked]
  refine and_congr_right fun hl => ?_
  rw [List.mem_filter, not_and, Bool.not_eq_true]
  exact ⟨fun hkept => hkept (mem_append_of_links hl), fun hkept _ => hkept⟩

/-- What is removed after a rescue is all that goes. -/
theorem remove_rescues {g₁ : Graph} (h : EditInvariant True g) (hclear : clear g id target)
    (hinner : g.innerScopes id = .ok inner) (hrescue : inner.foldlM (rescue target) g = .ok g₁)
    (hremove : g₁.remove id inner = .ok g') (hw' : LinksMatch g') (hshapesKept : ShapesKept g g') :
    Rescues g g' id inner target := by
  have hmoves := rescue_moves (guards_clear target) hrescue
  have hallKept := hmoves.changes.allKept
  have hw₁ : LinksMatch g₁ := (h.moves hmoves).wellFormed.linksMatch
  have hhome {x : NodeId} {s : ScopeId} (hx : g.homeAt? x = some s) (hother : x ≠ id) :
      g'.homeAt? x = some (if s ∈ inner then target else s) := by
    rw [homeAt?_remove hw₁ hremove hother]
    exact rescue_homes (h.consistent trivial) h.wellFormed.scopesOwned hclear
      (fun t => h.wellFormed.scopesOwned.live_of_inner hinner) hrescue hx
  have hlinks (k : SlotKind) (l : Link) : l ∈ g'.links k ↔ l ∈ g.links k ∧ l.involves id = false := by
    rw [links_remove hw₁ hremove, links_moves hmoves]
  obtain ⟨unlinked, left, s, -, hunlinked, hexits, -, -, hremovesNode⟩ := remove_eq hremove
  have hallKept' : AllKept g left := by
    refine hallKept.trans (AllKept.trans ?_ hexits.moves.changes.allKept)
    exact (@dropLinks_changes always _ _ _ hunlinked).allKept
  refine ⟨?_, fun x => ?_, hshapesKept, hlinks, fun r hr => ?_, fun hs hx hother => ?_,
    fun hs hx hother => ?_, fun t => ?_⟩
  · rw [hremovesNode.nodes, hallKept'.nodes]
  · rw [contains_iff, contains_iff, isSome_remove hremove, hallKept.isSome_iff]
  · have hpruned : SlotsLoseOnly id g g' :=
      SlotsLoseOnly.trans (.of_slots fun r => congrArg _ (hmoves.slotAt? r)) (remove_slotsLoseOnly hw₁ hremove)
    rw [← hpruned r hr]
    cases hslot : g'.slotAt? r with
    | none => rfl
    | some slot =>
      refine congrArg some (List.filter_eq_self.2 fun p hp => ?_).symm
      have hkept := ((hlinks _ _).1 (hw'.registered hslot hp)).2
      unfold Slot.linkTo at hkept
      split at hkept <;> simp_all [Link.involves]
  · rw [hhome hx hother, if_pos hs]
  · rw [hhome hx hother, if_neg hs]
  · rw [hremovesNode.scopeAt?]
    split
    next hmem => simp [hmem]
    next hmem =>
      rw [and_iff_right hmem]
      constructor
      · intro ht
        obtain ⟨sc', hsc'⟩ := Option.isSome_iff_exists.1 ht
        obtain ⟨sc, hsc, -⟩ := hallKept'.scope hsc'
        exact Option.isSome_of_mem hsc
      · exact hallKept'.live_scope

/-- A raw destruction removes one node with its links, brings out whoever is in its scopes, and leaves everything else
where it is. -/
theorem destroy_rescues (hr : Reachable g) (hg : Consistent g) {r : Node} (hroot : g.node g.root = .ok r)
    (hfree : r.scope = none) (hn : g.node id = .ok n) (hid : id ≠ g.root) :
    ∃ g' inner target, g.destroy id false = .ok g' ∧ g.innerScopes id = .ok inner ∧
      (n.scope = some target ∨ n.scope = none ∧ g.rootScope = .ok target) ∧ Rescues g g' id inner target ∧
      Consistent g' := by
  have h := hr.editInvariant hg
  rw [node_eq_ok_iff] at hn hroot
  obtain ⟨g', hdestroy⟩ := h.destroy_raw id
  have hsteps : Steps clear g g' := destroy_steps guards_clear h.wellFormed.toLinksScopesValid hdestroy
  have hg' : Consistent g' := hg.destroy_raw h.wellFormed.toRecordsValid h.hasLayouts hn hroot (.inr hfree) hdestroy
  have hfinish {inner : List ScopeId} {target : ScopeId} {g₁ : Graph} (hinner : g.innerScopes id = .ok inner)
      (htarget : n.scope = some target ∨ n.scope = none ∧ g.rootScope = .ok target)
      (hrescue : inner.foldlM (rescue target) g = .ok g₁) (hremove : g₁.remove id inner = .ok g') :
      Rescues g g' id inner target := by
    refine remove_rescues h ?_ hinner hrescue hremove (h.wellFormed.steps hsteps).linksMatch hsteps.shapesKept
    rcases htarget with hs | ⟨-, hs⟩
    · exact hg.clear_of_home (homeAt?_eq_some_iff.2 ⟨n, hn, hs⟩)
    · exact clear_rootScope h.wellFormed.scopesOwned hroot hfree hid hs
  obtain ⟨k, hwithin⟩ := destroyWithin_of_destroy hdestroy
  obtain ⟨heither, -⟩ | ⟨m, inner, -, hm, hinner, hstages⟩ := destroyWithin_eq hwithin
  · rcases heither with hself | hnone
    · exact (hid hself).elim
    · cases hn.symm.trans hnone
  cases hn.symm.trans hm
  cases hstages with
  | plain hnil hremove =>
    subst hnil
    obtain ⟨target, htarget⟩ : ∃ target, n.scope = some target ∨ n.scope = none ∧ g.rootScope = .ok target := by
      cases hs : n.scope with
      | some s => exact ⟨s, .inl rfl⟩
      | none =>
        obtain ⟨s, -, hs, -⟩ := h.rootScope
        exact ⟨s, .inr ⟨rfl, hs⟩⟩
    exact ⟨g', [], target, hdestroy, hinner, htarget, hfinish hinner htarget rfl hremove, hg'⟩
  | @raw target g₁ _ htarget hrescue hremove =>
    exact ⟨g', inner, target, hdestroy, hinner, htarget, hfinish hinner htarget hrescue hremove, hg'⟩

/-- Node 7 comes out of the second branch, into the scope that the `if` was in. -/
theorem rescues_openBranch : ∃ g g' r n, Reachable g ∧ Consistent g ∧ g.node g.root = .ok r ∧ r.scope = none ∧
    g.node ⟨3⟩ = .ok n ∧ ⟨3⟩ ≠ g.root ∧ n.scope = some ⟨2⟩ ∧ g.homeAt? ⟨7⟩ = some ⟨6⟩ ∧ g.destroy ⟨3⟩ false = .ok g' ∧
    g'.homeAt? ⟨7⟩ = some ⟨2⟩ := by
  obtain ⟨u, h⟩ := exists_of_isOk (x := do
    let g ← openBranch
    let r ← g.node g.root
    let n ← g.node ⟨3⟩
    let inner ← g.innerScopes ⟨3⟩
    if ¬(r.scope = none ∧ ⟨3⟩ ≠ g.root ∧ n.scope = some ⟨2⟩ ∧ g.homeAt? ⟨7⟩ = some ⟨6⟩ ∧
      ⟨6⟩ ∈ inner) then throw .endless)
    (by decide +kernel)
  simp only [bind_eq_ok] at h
  obtain ⟨g, hopen, r, hroot, n, hn, inner, hinner, h⟩ := h
  split at h
  next => cases h
  next hfacts =>
    obtain ⟨hfree, hid, hs, hhome, hmem⟩ := not_not.1 hfacts
    obtain ⟨hr, hg⟩ := consistent_openBranch hopen
    obtain ⟨g', inner', target, hdestroy, hinner', htarget, hrescues, -⟩ := destroy_rescues hr hg hroot hfree hn hid
    cases hinner.symm.trans hinner'
    obtain rfl : target = ⟨2⟩ := by
      rcases htarget with ht | ⟨hnone, -⟩
      · exact Option.some.inj (ht.symm.trans hs)
      · cases hs.symm.trans hnone
    exact ⟨g, g', r, n, hr, hg, hroot, hfree, hn, hid, hs, hhome, hdestroy, hrescues.rescued hmem hhome (by decide)⟩

end FlowGraph.Graph
