import FlowGraph.Proofs.Captions
import FlowGraph.Proofs.Gathering
import FlowGraph.Proofs.Stranding

/-!
# The root of the scopes

The entry point is made outside of all scopes, so nothing lies around the root scope. No node takes the entry point
along, since it neither continues after another one nor feeds one, and no link moves it. What is left are the two
edits that move a node of the caller's choice. They refuse the scopes inside the root scope only, and a block that
has been taken out of its scope is not inside the root scope any more.
-/

namespace FlowGraph.Graph

open Relation

/-- Nothing lies around the root scope, and it is told to be around all scopes that are inside of it. -/
structure Uppermost (g : Graph) (root : ScopeId) : Prop where
  rootScope : g.rootScope = .ok root
  parent : g.parentScope? root = .ok none
  depth : g.depth root = .ok 0
  listed : ∃ ss, g.rootScopes = .ok ss ∧ root ∈ ss
  around (s : ScopeId) : g.isAncestorOrSelf root s = .ok true ↔ Within g s root

/-- The entry point itself is to be put into a scope that is not inside the root scope. -/
def MovesEntryPoint (g : Graph) (e : Edit) : Prop :=
  ∃ root s sc, (e = .append g.root s ∨ e = .changeScope g.root s) ∧ g.rootScope = .ok root ∧ g.scope s = .ok sc ∧
    g.isAncestorOrSelf root s = .ok false

/-- The graphs that come about without such an edit. -/
inductive EntryPointFixed : Graph → Prop
  | create {ids : IdSupply} {library : Library} {config : Config} {g : Graph} :
      create {} ids library config = .ok g → EntryPointFixed g
  | edit {g g' : Graph} (e : Edit) : EntryPointFixed g → g.perform e = .ok g' → ¬MovesEntryPoint g e →
      EntryPointFixed g'
  | issued {g : Graph} {ids : IdSupply} : EntryPointFixed g → g.ids.next ≤ ids.next → EntryPointFixed { g with ids }

structure EntryPointUnscoped (g : Graph) : Prop extends WellFormed g, HasLayouts g where
  unscoped : g.homeAt? g.root = none

variable {g g' : Graph} {id x : NodeId} {s t root : ScopeId} {n : Node} {l : Link}

theorem HasLayouts.slot_entryPoint (h : HasLayouts g) (hr : RootIsEntryPoint g) {r : SlotRef} (hroot : r.node = g.root)
    {slot : Slot} (hslot : g.slotAt? r = some slot) : slot.kind = .flow ∧ slot.isPrimary = true := by
  obtain ⟨n, hn, hslot⟩ := Option.bind_eq_some_iff.1 hslot
  obtain ⟨m, hm, hentry⟩ := hr
  rw [hroot] at hn
  cases hn.symm.trans hm
  obtain ⟨l, built, hkind, hbuilt, hshape⟩ := h.exists_built hn hslot
  rw [hentry] at hkind
  cases l with
  | entryPoint =>
    obtain rfl := List.mem_singleton.1 (List.mem_of_getElem? hbuilt)
    simp only [Slot.shape, Slot.mk.injEq] at hshape
    obtain ⟨-, -, hflow, hprimary, -⟩ := hshape
    exact ⟨hflow.symm, hprimary.symm⟩
  | invokable kind signature callable =>
    cases hkind
    cases callable
  | conditional c => exact ((Node.Layout.kind_conditional c).1 hkind.symm).elim
  | _ => cases hkind

theorem HasLayouts.mover_ne_root (h : HasLayouts g) (hw : LinksMatch g) (hr : RootIsEntryPoint g) {k : SlotKind}
    (hl : l ∈ g.links k) :
    l.mover ≠ g.root := by
  obtain ⟨rfl, -, t, hd, ht, hhd, htkind, -, -, hsecondary, -⟩ := hw.joined hl
  unfold Link.mover
  split
  next =>
    intro hhead
    cases hsecondary.symm.trans (h.slot_entryPoint hr hhead hhd).2
  next hvalue =>
    intro htail
    cases (htkind.trans hvalue).symm.trans (h.slot_entryPoint hr htail ht).1

theorem HasLayouts.not_companion_root (h : HasLayouts g) (hw : LinksMatch g) (hr : RootIsEntryPoint g) :
    ¬Companion g x g.root := by
  have hlinked {n : Node} (hn : g.nodeAt? x = some n) {slot : Slot} (hmem : slot ∈ n.slots) {r : SlotRef}
      (hadjacent : r ∈ slot.adjacent) (hroot : r.node = g.root) : ∃ i, (slot.linkTo ⟨x, i⟩ r).mover ≠ g.root := by
    obtain ⟨i, hi⟩ := List.getElem?_of_mem hmem
    have hslot : g.slotAt? ⟨x, ⟨i⟩⟩ = some slot := Option.bind_eq_some_iff.2 ⟨n, hn, hi⟩
    exact ⟨⟨i⟩, h.mover_ne_root hw hr (hw.registered hslot hadjacent)⟩
  rintro ⟨n, hn, hsuccessor | ⟨hinput, -⟩⟩
  · obtain ⟨r, hr', hroot⟩ := Option.map_eq_some_iff.1 hsuccessor
    obtain ⟨slot, hnext, hfirst⟩ := Option.bind_eq_some_iff.1 hr'
    obtain ⟨hmem, hflags⟩ := List.mem_filter.1 (List.mem_of_find?_eq_some hnext)
    obtain ⟨hflow, hprimary⟩ := slot.hasFlags_flowOut_iff.1 hflags
    obtain ⟨i, hmover⟩ := hlinked hn hmem (List.mem_of_mem_head? hfirst) hroot
    rw [Slot.linkTo, if_pos hprimary, Link.mover, hflow] at hmover
    exact hmover hroot
  · obtain ⟨slot, hslot, r, hr', hroot⟩ := Node.mem_inputs.1 hinput
    obtain ⟨hmem, hflags⟩ := List.mem_filter.1 hslot
    obtain ⟨hvalue, hsecondary⟩ := slot.hasFlags_input_iff.1 hflags
    obtain ⟨i, hmover⟩ := hlinked hn hmem hr' hroot
    rw [Slot.linkTo, hsecondary, if_neg Bool.false_ne_true, Link.mover, hvalue] at hmover
    exact hmover hroot

namespace EntryPointUnscoped

theorem steps (h : EntryPointUnscoped g) (hsteps : Steps always g g') (hhome : g'.homeAt? g.root = none) :
    EntryPointUnscoped g' :=
  ⟨h.toWellFormed.steps hsteps, h.toHasLayouts.steps hsteps, by rw [hsteps.survivorsKept.root, hhome]⟩

theorem changes (h : EntryPointUnscoped g) (hchanges : Changes always g g') (hhome : g'.homeAt? g.root = none) :
    EntryPointUnscoped g' :=
  h.steps hchanges.steps hhome

theorem moves_never (h : EntryPointUnscoped g) (hmoves : Moves never g g') : EntryPointUnscoped g' := by
  refine h.changes hmoves.of_never.changes ?_
  obtain ⟨n, hn, -⟩ := h.rootIsEntryPoint
  have hfree : n.scope = none := by simpa [homeAt?, hn] using h.unscoped
  rw [homeAt?, hmoves.unscoped hn hfree, Option.bind_some, hfree]

theorem sameFrames (h : EntryPointUnscoped g) (heditChanges : EditChanges always g g') (hsameFrames : SameFrames g g') :
    EntryPointUnscoped g' :=
  h.changes heditChanges.changes ((hsameFrames.homeAt? _).trans h.unscoped)

theorem retouch (h : EntryPointUnscoped g) (id : NodeId) (i : Nat) (w : Property.Writing) :
    EntryPointUnscoped (g.modifyNode id (·.modifyProperty i w.apply)) :=
  h.sameFrames (.single (.retouch id i w)) (sameFrames_modifyNode fun _ => by rfl)

theorem propertyWritten (h : EntryPointUnscoped g) (hpropertyWritten : PropertyWritten id g g') :
    EntryPointUnscoped g' := by
  rcases hpropertyWritten with rfl | ⟨i, w, rfl⟩
  · exact h
  · exact h.retouch id i w

theorem lead (h : EntryPointUnscoped g) (hreset : g.resetHead s = .ok g') : EntryPointUnscoped g' := by
  have hmoves : Moves always g g' := resetHead_moves hreset
  refine h.changes hmoves.changes ?_
  simp only [resetHead, bind_eq_ok, pure_eq_ok] at hreset
  obtain ⟨head, -, rfl⟩ := hreset
  exact (homeAt?_lead head _).trans h.unscoped

theorem changeScope (h : EntryPointUnscoped g) (hid : id ≠ g.root) {r : Except ScopeError Unit}
    (hchange : g.changeScope id s = .ok (g', r)) : EntryPointUnscoped g' := by
  refine h.changes (changeScope_moves (guards_always s) hchange).changes ?_
  rcases changeScope_walks h.scopesOwned hchange with rfl | ⟨left, -, -, -, hcompanyEntered, hleft⟩
  · exact h.unscoped
  obtain ⟨hsameLinkage, hfree⟩ : SameLinkage g left ∧ left.homeAt? g.root = none := by
    rcases hleft with rfl | ⟨current, -, hcompanyLeft⟩
    · exact ⟨.rfl, h.unscoped⟩
    · refine ⟨hcompanyLeft.sameLinkage, ?_⟩
      rcases hcompanyLeft.homes g.root with hsame | ⟨-, hnone, -⟩
      · exact hsame.trans h.unscoped
      · exact hnone
  rcases hcompanyEntered.homes g.root with hsame | ⟨-, -, hadmittedWith⟩
  · exact hsame.trans hfree
  · cases hadmittedWith with
    | refl => exact (hid rfl).elim
    | tail _ hlast =>
      exact (h.toHasLayouts.not_companion_root h.linksMatch h.rootIsEntryPoint
        (hsameLinkage.companion_iff.1 hlast.1)).elim

theorem movedOrSame (h : EntryPointUnscoped g) (hid : id ≠ g.root) (hmovedOrSame : MovedOrSame id g g') :
    EntryPointUnscoped g' := by
  rcases hmovedOrSame with rfl | ⟨s, r, hchange⟩
  · exact h
  · exact h.changeScope hid hchange

theorem mover_ne_root (h : EntryPointUnscoped g) {k : SlotKind} (hl : l ∈ g.links k) : l.mover ≠ g.root :=
  h.toHasLayouts.mover_ne_root h.linksMatch h.rootIsEntryPoint hl

theorem connect (h : EntryPointUnscoped g) {a b : SlotRef} {sideEffects : Bool} {r : Except ConnectError Link}
    (hconnect : g.connect a b sideEffects = .ok (g', r)) : EntryPointUnscoped g' := by
  rcases connect_eq hconnect with ⟨rfl, -⟩ | ⟨l, -, hvalid, hdone⟩
  · exact h
  have hlinked : EntryPointUnscoped (g.addLink l) := h.sameFrames (.single (.link hvalid)) (sameFrames_addLink g l)
  have hmover : l.mover ≠ (g.addLink l).root := by
    refine hlinked.mover_ne_root (k := l.kind) ?_
    rw [links_addLink, if_pos rfl]
    exact List.mem_append_right _ (List.mem_singleton.2 rfl)
  rcases hdone with ⟨-, rfl⟩ | ⟨-, hkind, hflow⟩ | ⟨-, hkind, hvalue⟩
  · exact hlinked
  · rw [Link.mover, hkind] at hmover
    obtain ⟨tails, -, moved, hmoved, rfl | ⟨target, -, -, -, hreset⟩⟩ := onFlowConnected_eq hflow
    · exact hlinked.movedOrSame hmover hmoved
    · exact (hlinked.movedOrSame hmover hmoved).lead hreset
  · rw [Link.mover, hkind] at hmover
    obtain ⟨tail, moved, htail, hmoved, hpropertyWritten⟩ := onValueConnected_eq hvalue
    rw [hlinked.toHasLayouts.id_eq htail] at hmoved
    exact (hlinked.movedOrSame hmover hmoved).propertyWritten hpropertyWritten

theorem disconnect (h : EntryPointUnscoped g) {sideEffects : Bool} {r : Except ConnectError Unit}
    (hdisconnect : g.disconnect l sideEffects = .ok (g', r)) : EntryPointUnscoped g' := by
  rcases disconnect_eq hdisconnect with ⟨-, rfl⟩ | ⟨hl, hdone⟩
  · exact h
  have hunlinked : EntryPointUnscoped (g.removeLink l) :=
    h.sameFrames (.single (.unlink hl)) (sameFrames_removeLink g l)
  rcases hdone with ⟨-, rfl⟩ | ⟨-, hkind, hflow⟩ | ⟨-, -, hvalue⟩
  · exact hunlinked
  · have hmover : l.head.node ≠ g.root := by
      have hmover := h.mover_ne_root hl
      rwa [Link.mover, hkind] at hmover
    obtain ⟨unled, hheadCleared, hmoved⟩ := onFlowDisconnected_eq hflow
    have hchanges : Changes always (g.removeLink l) unled := hheadCleared.editMoves.moves.changes
    have hheadCleared' : EntryPointUnscoped unled := by
      refine hunlinked.changes hchanges ?_
      cases hheadCleared with
      | other => exact hunlinked.unscoped
      | unlead => exact (homeAt?_lead none _).trans hunlinked.unscoped
    refine hheadCleared'.movedOrSame ?_ hmoved
    have hunlinks : Change always g (g.removeLink l) := .unlink hl
    rw [(hunlinks.allKept.trans hchanges.allKept).root]
    exact hmover
  · exact hunlinked.propertyWritten (onValueDisconnected_eq hvalue)

theorem transfer (h : EntryPointUnscoped g) {cs : List NodeId} {r : Except ScopeError Unit}
    (htransfer : transfer s t cs g = .ok (g', r)) : EntryPointUnscoped g' := by
  induction cs generalizing g with
  | nil =>
    cases htransfer
    exact h
  | cons c cs ih =>
    simp only [Graph.transfer, bind_eq_ok, node_eq_ok_iff] at htransfer
    obtain ⟨n, hn, htransfer⟩ := htransfer
    split at htransfer
    next hscope =>
      have hc : c ≠ g.root := by
        rintro rfl
        cases (homeAt?_eq_some_iff.2 ⟨n, hn, hscope⟩).symm.trans h.unscoped
      obtain ⟨⟨moved, result⟩, hmoved, htransfer⟩ := bind_eq_ok.1 htransfer
      have hmoved' := h.changeScope hc hmoved
      cases result with
      | ok _ => exact ih hmoved' htransfer
      | error e =>
        cases htransfer
        exact hmoved'
    next => exact ih h htransfer

theorem transferChildren (h : EntryPointUnscoped g) {r : Except ScopeError Unit}
    (htransfer : g.transferChildren s t = .ok (g', r)) : EntryPointUnscoped g' := by
  obtain ⟨sc, -, htransfer⟩ := bind_eq_ok.1 htransfer
  exact h.transfer htransfer

theorem rescue (h : EntryPointUnscoped g) {inner : List ScopeId} (hrescue : inner.foldlM (rescue t) g = .ok g') :
    EntryPointUnscoped g' := by
  refine foldlM_induction hrescue h fun g₁ s _ g₂ h₁ hvisit => ?_
  obtain ⟨⟨moved, result⟩, hmoved, ⟨⟩⟩ := bind_eq_ok.1 hvisit
  exact h₁.transferChildren hmoved

theorem dropLinks (h : EntryPointUnscoped g) {ls : List Link} (hdrop : ls.foldlM dropLink g = .ok g') :
    EntryPointUnscoped g' := by
  refine foldlM_induction hdrop h fun g₁ l _ g₂ h₁ hdrop => ?_
  obtain ⟨⟨dropped, result⟩, hdropped, ⟨⟩⟩ := bind_eq_ok.1 hdrop
  exact h₁.disconnect hdropped

theorem remove (h : EntryPointUnscoped g) {inner : List ScopeId} (hid : id ≠ g.root)
    (hinner : ∀ n, g.nodeAt? id = some n → g.innerScopes id = .ok inner) (hremove : g.remove id inner = .ok g') :
    EntryPointUnscoped g' := by
  have hsteps : Steps always g g' := (remove_editSteps h.toLinksScopesValid hid hinner hremove).steps
  refine h.steps hsteps ?_
  obtain ⟨unlinked, left, s, n, hunlinked, hexits, -, -, hremovesNode⟩ := remove_eq hremove
  have hleft := (h.dropLinks hunlinked).moves_never hexits.moves
  rw [← hsteps.survivorsKept.root] at hid ⊢
  rw [homeAt?, hremovesNode.nodeAt?, if_neg hid.symm, hremovesNode.root]
  exact hleft.unscoped

theorem destroyWithin {sideEffects : Bool} {k : Nat} (h : EntryPointUnscoped g)
    (hdestroy : destroyWithin sideEffects k g id = .ok g') : EntryPointUnscoped g' := by
  induction k generalizing g id g' with
  | zero => cases hdestroy
  | succ k ih =>
    have hfold {ids : List NodeId} {g₁ g₂ : Graph} (h₁ : EntryPointUnscoped g₁)
        (hfold : ids.foldlM (Graph.destroyWithin sideEffects k) g₁ = .ok g₂) : EntryPointUnscoped g₂ :=
      foldlM_induction hfold h₁ fun _ _ _ _ h₂ hdestroy => ih h₂ hdestroy
    rcases destroyWithin_eq hdestroy with ⟨-, rfl⟩ | ⟨n, inner, hid, hn, hinner, hstages⟩
    · exact h
    have hfinish {g₁ g₂ : Graph} (hsteps : Steps always g g₁) (h₁ : EntryPointUnscoped g₁)
        (hremove : g₁.remove id inner = .ok g₂) : EntryPointUnscoped g₂ := by
      refine h₁.remove ?_ (fun m hm => ?_) hremove
      · rw [hsteps.survivorsKept.root]
        exact hid
      · exact h₁.scopesOwned.innerScopes_of_survivorsKept hsteps.survivorsKept hinner hm
    cases hstages with
    | deep _ hinputs _ hcontent hremove hrelink =>
      have h₁ := hfold h hinputs
      have h₂ := hfold h₁ hcontent
      have heditSteps : EditSteps always _ _ :=
        (foldlM_destroyWithin_editSteps guards_always h.toLinksScopesValid hinputs).trans
        (foldlM_destroyWithin_editSteps guards_always h₁.toLinksScopesValid hcontent)
      have h₃ := hfinish heditSteps.steps h₂ hremove
      rcases relink_eq hrelink with rfl | ⟨a, b, r, -, hconnect⟩
      · exact h₃
      · exact h₃.connect hconnect
    | plain _ hremove => exact hfinish .refl h hremove
    | raw _ hrescue hremove =>
      exact hfinish (rescue_moves (guards_always _) hrescue).changes.steps (h.rescue hrescue) hremove

theorem connectOrMerge (h : EntryPointUnscoped g) {output input : SlotRef} {r : Except ConnectError (Option Link)}
    (hmerge : g.connectOrMerge output input = .ok (g', r)) : EntryPointUnscoped g' := by
  rcases connectOrMerge_eq hmerge with ⟨linked, hconnect, -⟩ | ⟨rfl, -⟩ | ⟨i, value, hdestroy, -⟩
  · exact h.connect hconnect
  · exact h
  · exact (h.retouch input.node i (.value value)).destroyWithin hdestroy

theorem createsNode {m : Node.Layout} (h : EntryPointUnscoped g) (hbirth : CreatesNode g m id g') :
    EntryPointUnscoped g' := by
  have hwellFormed := hbirth.wellFormed h.toWellFormed
  obtain ⟨-, s, hspawn⟩ := hbirth
  have hbuildsUnlinked := buildsUnlinked_build m g.config.fanIn
  have hframed : m.kind.partitions? = none ∨ m.kind.isConditional = true ∨ m.kind = .entryPoint := by
    cases m.kind <;> simp [NodeKind.partitions?, NodeKind.isConditional]
  refine ⟨hwellFormed, h.toHasLayouts.spawn hbuildsUnlinked hframed hspawn, ?_⟩
  obtain ⟨hfresh, hroot, hothers⟩ := spawn_others hbuildsUnlinked hspawn
  have hother : g.root ≠ id := by
    obtain ⟨m, hm, -⟩ := h.rootIsEntryPoint
    rintro he
    cases hfresh.symm.trans (he ▸ hm)
  rw [hroot, homeAt?, hothers _ hother]
  exact h.unscoped

theorem creates (h : EntryPointUnscoped g) {e : Edit} (he : e.creates = true) (hperform : g.perform e = .ok g') :
    EntryPointUnscoped g' := by
  rcases createsNode_of_creates he hperform with rfl | ⟨m, id, g₁, hbirth, rfl | ⟨-, ⟨a, b, l, hl, rfl⟩ | hdestroy⟩⟩
  · exact h
  · exact h.createsNode hbirth
  · exact (h.createsNode hbirth).sameFrames (.single (.link hl)) (sameFrames_addLink _ _)
  · exact (h.createsNode hbirth).destroyWithin hdestroy

end EntryPointUnscoped

theorem Reachable.owner_eq_root_iff (hr : Reachable g) (hroot : g.rootScope = .ok root) {sc : Scope}
    (hsc : g.scopeAt? t = some sc) : sc.owner = g.root ↔ t = root := by
  obtain ⟨n, hn, hinternal⟩ := rootScope_eq_ok_iff.1 hroot
  constructor
  · intro howner
    obtain ⟨m, i, si, hm, hi, hsi, hown⟩ := hr.wellFormed.scopesOwned.home hsc
    rw [howner] at hm
    cases hn.symm.trans hm
    cases hinternal.symm.trans hi
    refine hown.resolve_right ?_
    rw [hr.partitions_rootScope hroot hsi]
    exact List.not_mem_nil
  · rintro rfl
    obtain ⟨sc', hsc', howner, -⟩ := hr.wellFormed.scopesOwned.internal hn hinternal
    cases hsc.symm.trans hsc'
    exact howner

theorem anyOnPathWithin_congr {p q : ScopeId → Except Fault Bool} (h : ∀ t sc, g.scopeAt? t = some sc → p t = q t)
    (k : Nat) (s : ScopeId) : g.anyOnPathWithin p k s = g.anyOnPathWithin q k s := by
  induction k generalizing s with
  | zero => rfl
  | succ k ih =>
    simp only [anyOnPathWithin]
    cases hparent : g.parentScope? s with
    | error e => rfl
    | ok parent =>
      obtain ⟨sc, hsc, -⟩ := parentScope?_eq_ok_iff.1 hparent
      rw [h s sc hsc]
      simp only [ih]

theorem Reachable.targetError?_root_iff (hr : Reachable g) (hroot : g.rootScope = .ok root) :
    g.targetError? g.root s = .ok none ↔ (∃ sc, g.scope s = .ok sc) ∧ g.isAncestorOrSelf root s = .ok false := by
  have hsame : g.anyOnPath (fun t => do return (← g.scope t).owner == g.root) s = g.isAncestorOrSelf root s := by
    rw [anyOnPath, isAncestorOrSelf, anyOnPath]
    refine anyOnPathWithin_congr (fun t sc hsc => ?_) _ _
    have howner : (sc.owner == g.root) = (t == root) := by
      rw [Bool.eq_iff_iff, beq_iff_eq, beq_iff_eq]
      exact hr.owner_eq_root_iff hroot hsc
    rw [scope_eq_ok_iff.2 hsc, ok_bind, howner]
  rw [targetError?, hsame]
  constructor
  · intro h
    obtain ⟨found, hfound, h⟩ := bind_eq_ok.1 h
    cases found with
    | none => cases h
    | some sc =>
      refine ⟨⟨sc, scope_eq_ok_iff.2 (scopeAt?_of_scope? hfound)⟩, ?_⟩
      obtain ⟨inside, hinside, h⟩ := bind_eq_ok.1 h
      cases inside with
      | true => cases h
      | false => exact hinside
  · rintro ⟨⟨sc, hsc⟩, houtside⟩
    rw [scope?_eq_some_iff.2 (scope_eq_ok_iff.1 hsc), ok_bind, houtside]
    rfl

theorem ScopesOwned.exists_parentScope? (ho : ScopesOwned g) {sc : Scope} (hsc : g.scopeAt? s = some sc) :
    ∃ parent, g.parentScope? s = .ok parent := by
  obtain ⟨n, -, -, hn, -⟩ := ho.home hsc
  cases hkind : sc.kind with
  | partition t i => exact ⟨_, parentScope?_eq_ok_iff.2 ⟨sc, hsc, .inl ⟨t, i, hkind, rfl⟩⟩⟩
  | internal => exact ⟨_, parentScope?_eq_ok_iff.2 ⟨sc, hsc, .inr ⟨hkind, n, hn, rfl⟩⟩⟩

theorem ScopesOwned.exists_rootScopes (ho : ScopesOwned g) :
    ∃ ss, g.rootScopes = .ok ss ∧ ∀ s, s ∈ ss ↔ g.parentScope? s = .ok none := by
  obtain ⟨ss, hss⟩ : ∃ ss, g.rootScopes = .ok ss := by
    refine (Terminates.filterM fun s hs => ?_).exists_ok
    obtain ⟨sc, hsc⟩ := mem_scopes_iff.1 hs
    obtain ⟨parent, hparent⟩ := ho.exists_parentScope? hsc
    exact .bind (.of_ok hparent) fun _ _ => .pure _
  refine ⟨ss, hss, fun s => ?_⟩
  rw [mem_filterM_iff hss]
  simp only [bind_eq_ok, pure_eq_ok, Option.isNone_iff_eq_none, exists_eq_right]
  refine and_iff_right_of_imp fun htop => ?_
  obtain ⟨sc, hsc, -⟩ := parentScope?_eq_ok_iff.1 htop
  exact mem_scopes_iff.2 ⟨sc, hsc⟩

theorem ParentsEnd.exists_isAncestorOrSelf (h : ParentsEnd g s) (t : ScopeId) :
    ∃ b, g.isAncestorOrSelf t s = .ok b := by
  refine h.search fun k s parent hparent hrest => ?_
  simp only [anyOnPathWithin, hparent, ok_bind, pure_bind]
  split
  next => exact ⟨true, rfl⟩
  next =>
    cases parent with
    | none => exact ⟨false, rfl⟩
    | some u => exact hrest u rfl

/-- The root scope is uppermost exactly if the entry point is in no scope. -/
theorem Reachable.exists_uppermost_iff (hr : Reachable g) : (∃ root, Uppermost g root) ↔ g.homeAt? g.root = none := by
  have howned := hr.wellFormed.scopesOwned
  have hparent {root : ScopeId} (hroot : g.rootScope = .ok root) : g.parentScope? root = .ok (g.homeAt? g.root) := by
    obtain ⟨n, hn, hinternal⟩ := rootScope_eq_ok_iff.1 hroot
    obtain ⟨-, -, hparent⟩ := howned.parent_of_internal hn hinternal
    rw [hparent, homeAt?, hn, Option.bind_some]
  constructor
  · rintro ⟨root, hroot⟩
    exact Except.ok.inj ((hparent hroot.rootScope).symm.trans hroot.parent)
  · intro hnone
    obtain ⟨root, hroot, -⟩ := hr.rootFinitelyNested.root
    have htop : g.parentScope? root = .ok none := (hparent hroot).trans (congrArg _ hnone)
    refine ⟨root, hroot, htop, ?_, ?_, fun s => ?_⟩
    · simp only [depth, path, walkBound, pathWithin, htop, ok_bind]
      rfl
    · obtain ⟨ss, hss, hlists⟩ := howned.exists_rootScopes
      exact ⟨ss, hss, (hlists root).2 htop⟩
    · constructor
      · exact fun hinside => (isAncestorOrSelf_iff_of_ok hinside).1 rfl
      · intro hwithin
        have hparentsEnd : ParentsEnd g s := by
          induction hwithin using ReflTransGen.head_induction_on with
          | refl => exact .top htop
          | head hup _ ih => exact .up hup ih
        obtain ⟨b, hb⟩ := hparentsEnd.exists_isAncestorOrSelf root
        obtain rfl := (isAncestorOrSelf_iff_of_ok hb).2 hwithin
        exact hb

theorem appendToScope_eq_changeScope (h : g.homeAt? id = none) : g.appendToScope id s = g.changeScope id s := by
  unfold appendToScope changeScope
  cases hn : g.node id with
  | error e => rfl
  | ok n =>
    have hfree : n.scope = none := by simpa [homeAt?, node_eq_ok_iff.1 hn] using h
    simp only [ok_bind, hfree]
    rfl

theorem EntryPointUnscoped.append (h : EntryPointUnscoped g) (hid : id ≠ g.root) {r : Except ScopeError Unit}
    (happend : g.appendToScope id s = .ok (g', r)) : EntryPointUnscoped g' := by
  cases hhome : g.homeAt? id with
  | none =>
    rw [appendToScope_eq_changeScope hhome] at happend
    exact h.changeScope hid happend
  | some t =>
    obtain ⟨n, hn, hscope⟩ := homeAt?_eq_some_iff.1 hhome
    simp only [appendToScope, node_eq_ok_iff.2 hn, ok_bind, hscope] at happend
    cases happend
    exact h

theorem EntryPointUnscoped.changeScope_root_iff (h : EntryPointUnscoped g) {r : Except ScopeError Unit}
    (hchange : g.changeScope g.root s = .ok (g', r)) :
    g'.homeAt? g'.root = none ↔ g.targetError? g.root s ≠ .ok none := by
  have hroot : g'.root = g.root := (changeScope_moves (guards_always s) hchange).changes.allKept.root
  obtain ⟨n, hn, -⟩ := h.rootIsEntryPoint
  have hfree : n.scope = none := by simpa [homeAt?, hn] using h.unscoped
  have hplaced := hchange
  simp only [Graph.changeScope, node_eq_ok_iff.2 hn, ok_bind, hfree, reduceCtorEq, if_false] at hplaced
  obtain ⟨refused, hrefused, hplaced⟩ := bind_eq_ok.1 hplaced
  rw [hrefused, hroot]
  cases refused with
  | some e =>
    cases hplaced
    exact iff_of_true h.unscoped (by simp)
  | none =>
    simp only [pure_bind] at hplaced
    obtain ⟨inserted, hinserted, ⟨⟩⟩ := bind_eq_ok.1 hplaced
    have hcompanyEntered := insertWithin_companyEntered hinserted h.scopesOwned hn hfree (clear_of_check hrefused)
    rw [hcompanyEntered.first]
    exact iff_of_false (Option.some_ne_none s) (not_not.2 rfl)

theorem EntryPointAlone.unscoped {g₀ : Graph} (h : EntryPointAlone g₀ g) : g.homeAt? g.root = none := by
  rw [homeAt?, h.nodeAt?, h.root, if_pos rfl]
  rfl

/-- Whatever else is done, the entry point stays out of all scopes. -/
theorem EntryPointUnscoped.perform_apart (h : EntryPointUnscoped g) {e : Edit}
    (hother : ∀ s, e ≠ .append g.root s ∧ e ≠ .changeScope g.root s) (hperform : g.perform e = .ok g') :
    g'.homeAt? g'.root = none := by
  cases e with
  | node | emptyInstruction | literal | declaration | reference | function | operator | conditional =>
    exact (h.creates rfl hperform).unscoped
  | setValue id value =>
    rw [setValue_eq hperform]
    exact (h.retouch id 0 (.value value)).unscoped
  | setPropertyValue id name value =>
    obtain ⟨⟨found, g₁⟩, hset, ⟨⟩⟩ := bind_eq_ok.1 hperform
    rcases setPropertyValue_eq hset with rfl | ⟨i, rfl⟩
    · exact h.unscoped
    · exact (h.retouch id i (.value value)).unscoped
  | connect a b sideEffects =>
    obtain ⟨⟨g₁, r⟩, hconnect, ⟨⟩⟩ := bind_eq_ok.1 hperform
    exact (h.connect hconnect).unscoped
  | connectOrMerge output input =>
    obtain ⟨⟨g₁, r⟩, hmerge, ⟨⟩⟩ := bind_eq_ok.1 hperform
    exact (h.connectOrMerge hmerge).unscoped
  | disconnect link sideEffects =>
    obtain ⟨⟨g₁, r⟩, hdisconnect, ⟨⟩⟩ := bind_eq_ok.1 hperform
    exact (h.disconnect hdisconnect).unscoped
  | append id s =>
    have hid : id ≠ g.root := fun he => (hother s).1 (he ▸ rfl)
    obtain ⟨⟨g₁, r⟩, happend, ⟨⟩⟩ := bind_eq_ok.1 hperform
    exact (h.append hid happend).unscoped
  | remove id =>
    obtain ⟨⟨g₁, r⟩, hremove, ⟨⟩⟩ := bind_eq_ok.1 hperform
    have hmoves : Moves never g g₁ := (removeFromScope_editMoves hremove).moves
    exact (h.moves_never hmoves).unscoped
  | changeScope id s =>
    have hid : id ≠ g.root := fun he => (hother s).2 (he ▸ rfl)
    obtain ⟨⟨g₁, r⟩, hchange, ⟨⟩⟩ := bind_eq_ok.1 hperform
    exact (h.changeScope hid hchange).unscoped
  | transfer source target =>
    obtain ⟨⟨g₁, r⟩, htransfer, ⟨⟩⟩ := bind_eq_ok.1 hperform
    exact (h.transferChildren htransfer).unscoped
  | resetHead s => exact (h.lead hperform).unscoped
  | destroy id sideEffects => exact (h.destroyWithin hperform).unscoped
  | reset =>
    obtain ⟨g₀, hholdsNothing, -, -, hspawn⟩ := reset_eq h.nodesListed hperform
    exact (hholdsNothing.entryPointAlone hspawn).unscoped
  | drainEvents =>
    cases hperform
    exact h.unscoped

/-- The entry point stays out of all scopes exactly if it is not put into one outside the root scope. -/
theorem Reachable.unscoped_perform_iff (hr : Reachable g) (hnone : g.homeAt? g.root = none) {e : Edit}
    (hperform : g.perform e = .ok g') : g'.homeAt? g'.root = none ↔ ¬MovesEntryPoint g e := by
  have h : EntryPointUnscoped g := ⟨hr.wellFormed, hr.hasLayouts, hnone⟩
  obtain ⟨root, hroot, -⟩ := hr.rootFinitelyNested.root
  by_cases hown : ∃ s, e = .append g.root s ∨ e = .changeScope g.root s
  · obtain ⟨s, he⟩ := hown
    obtain ⟨r, hchange⟩ : ∃ r, g.changeScope g.root s = .ok (g', r) := by
      rcases he with rfl | rfl
      all_goals
        obtain ⟨⟨g₁, r⟩, hmoved, ⟨⟩⟩ := bind_eq_ok.1 hperform
      · exact ⟨r, (appendToScope_eq_changeScope hnone).symm.trans hmoved⟩
      · exact ⟨r, hmoved⟩
    rw [h.changeScope_root_iff hchange, ne_eq, hr.targetError?_root_iff hroot]
    refine not_congr ⟨?_, ?_⟩
    · rintro ⟨⟨sc, hsc⟩, houtside⟩
      exact ⟨root, s, sc, he, hroot, hsc, houtside⟩
    · rintro ⟨root', s', sc, he', hroot', hsc, houtside⟩
      cases hroot.symm.trans hroot'
      obtain rfl : s = s' := by
        rcases he with rfl | rfl <;> rcases he' with he' | he' <;> cases he' <;> rfl
      exact ⟨⟨sc, hsc⟩, houtside⟩
  · refine iff_of_true (h.perform_apart (fun s => ?_) hperform) ?_
    · exact ⟨fun he => hown ⟨s, .inl he⟩, fun he => hown ⟨s, .inr he⟩⟩
    · rintro ⟨-, s, -, he, -⟩
      exact hown ⟨s, he⟩

namespace EntryPointFixed

theorem reachable (h : EntryPointFixed g) : Reachable g := by
  induction h with
  | create hcreate => exact .create hcreate
  | edit e _ hperform _ ih => exact ih.edit e hperform
  | issued _ hids ih => exact ih.issued hids

theorem unscoped (h : EntryPointFixed g) : g.homeAt? g.root = none := by
  induction h with
  | create hcreate =>
    obtain ⟨g₀, hholdsNothing, -, -, hspawn⟩ := create_eq hcreate
    exact (hholdsNothing.entryPointAlone hspawn).unscoped
  | edit e hbefore hperform hkept ih => exact (hbefore.reachable.unscoped_perform_iff ih hperform).2 hkept
  | issued _ _ ih => exact ih

end EntryPointFixed

/-- The root scope is a root with all that this entails as long as the entry point is in no scope. It is in none at
first, and no edit puts it into one but those that ask for just this, with a scope that is not inside the root scope. -/
theorem Reachable.rootScope_uppermost_iff (hr : Reachable g) :
    ((∃ root, Uppermost g root) ↔ g.homeAt? g.root = none) ∧
    (EntryPointFixed g → g.homeAt? g.root = none) ∧
    (g.homeAt? g.root = none → ∀ e g', g.perform e = .ok g' → (g'.homeAt? g'.root = none ↔ ¬MovesEntryPoint g e)) :=
  ⟨hr.exists_uppermost_iff, EntryPointFixed.unscoped, fun hnone _ _ => hr.unscoped_perform_iff hnone⟩

/-- An `if` is node 3, with the partition 6 on the side that is taken if the condition holds. It is in no scope. -/
def outcast : Except Fault Graph := do
  let g ← create {} {} default {}
  [.conditional .ifElse ⟨2⟩, .remove ⟨3⟩].foldlM perform g

theorem entryPointFixed_outcast (h : outcast = .ok g) : EntryPointFixed g := by
  obtain ⟨g₀, hcreate, h⟩ := bind_eq_ok.1 h
  simp only [List.foldlM_cons, List.foldlM_nil, bind_eq_ok, pure_eq_ok] at h
  obtain ⟨g₁, hblock, g₂, hremove, rfl⟩ := h
  refine .edit _ (.edit _ (.create hcreate) hblock ?_) hremove ?_
  all_goals
    rintro ⟨-, s, -, he | he, -⟩
    · cases he
    · cases he

theorem outcast_closed : ∃ g g', outcast = .ok g ∧ g.perform (.append g.root ⟨6⟩) = .ok g' ∧
    g.homeAt? g.root = none ∧ g'.homeAt? g'.root = some ⟨6⟩ := by
  obtain ⟨u, h⟩ := exists_of_isOk (x := do
    let g ← outcast
    let g' ← g.perform (.append g.root ⟨6⟩)
    if ¬(g.homeAt? g.root = none ∧ g'.homeAt? g'.root = some ⟨6⟩) then throw .endless) (by decide +kernel)
  simp only [bind_eq_ok] at h
  obtain ⟨g, hg, g', hg', h⟩ := h
  split at h
  next => cases h
  next hfacts =>
    obtain ⟨hbefore, hafter⟩ := not_not.1 hfacts
    exact ⟨g, g', hg, hg', hbefore, hafter⟩

theorem movesEntryPoint_outcast : ∃ g g', outcast = .ok g ∧ EntryPointFixed g ∧ (∃ root, Uppermost g root) ∧
    g.perform (.append g.root ⟨6⟩) = .ok g' ∧ MovesEntryPoint g (.append g.root ⟨6⟩) := by
  obtain ⟨g, g', hg, hperform, -, hafter⟩ := outcast_closed
  have hentryPointFixed := entryPointFixed_outcast hg
  obtain ⟨huppermost, hkept, hmoved⟩ := hentryPointFixed.reachable.rootScope_uppermost_iff
  have hnone := hkept hentryPointFixed
  refine ⟨g, g', hg, hentryPointFixed, huppermost.2 hnone, hperform, ?_⟩
  by_contra hrootIsEntryPoint
  cases hafter.symm.trans ((hmoved hnone _ g' hperform).2 hrootIsEntryPoint)

/-- The root scope can come to lie in another one. -/
theorem not_uppermost_outcast : ¬∀ g, Reachable g → g.homeAt? g.root = none := by
  intro hall
  obtain ⟨g, g', hg, hperform, -, hafter⟩ := outcast_closed
  cases hafter.symm.trans (hall g' ((entryPointFixed_outcast hg).reachable.edit _ hperform))

end FlowGraph.Graph
