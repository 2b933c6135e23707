import FlowGraph.Proofs.Ownership
import FlowGraph.Proofs.Wiring

/-!
# Destruction in steps

A destruction is a series of changes and discards, however deep it goes. A node is discarded when no link
involves it any more and it is in no scope, with the inner scopes that it has had all along.
-/

namespace FlowGraph.Graph

open Relation

inductive Step (may : Graph → NodeId → ScopeId → Prop) : Graph → Graph → Prop
  | change {g g' : Graph} : Change may g g' → Step may g g'
  | discard {g g' : Graph} {id : NodeId} {n : Node} {inner : List ScopeId} : id ≠ g.root →
      g.nodeAt? id = some n → n.scope = none → g.innerScopes id = .ok inner →
      (∀ k, ∀ l ∈ g.links k, l.involves id = false) → RemovesNode g id inner g' → Step may g g'

abbrev Steps (may : Graph → NodeId → ScopeId → Prop) : Graph → Graph → Prop := ReflTransGen (Step may)

inductive EditStep (may : Graph → NodeId → ScopeId → Prop) : Graph → Graph → Prop
  | act {g g' : Graph} : EditChange may g g' → EditStep may g g'
  | discard {g g' : Graph} {id : NodeId} {n : Node} {inner : List ScopeId} : id ≠ g.root →
      g.nodeAt? id = some n → n.scope = none → g.innerScopes id = .ok inner →
      (∀ k, ∀ l ∈ g.links k, l.involves id = false) → RemovesNode g id inner g' → EditStep may g g'

abbrev EditSteps (may : Graph → NodeId → ScopeId → Prop) : Graph → Graph → Prop := ReflTransGen (EditStep may)

variable {may : Graph → NodeId → ScopeId → Prop} {g g' : Graph} {id : NodeId}

theorem Changes.steps (h : Changes may g g') : Steps may g g' := ReflTransGen.mono (fun _ _ => .change) _ _ h

theorem EditChanges.editSteps (h : EditChanges may g g') : EditSteps may g g' :=
  ReflTransGen.mono (fun _ _ => .act) _ _ h

theorem EditSteps.steps (h : EditSteps may g g') : Steps may g g' := by
  induction h with
  | refl => exact .refl
  | tail _ heditStep ih =>
    cases heditStep with
    | act h => exact ih.trans (EditChanges.changes (.single h)).steps
    | discard hroot hn hnone hinner hfree hs => exact ih.tail (.discard hroot hn hnone hinner hfree hs)

theorem RemovesNode.survivorsKept {inner : List ScopeId} (h : RemovesNode g id inner g') : SurvivorsKept g g' := by
  refine ⟨?_, ?_, h.root, h.ids, h.config, h.library⟩
  · intro x n hn
    rw [h.nodeAt?] at hn
    split at hn
    next => cases hn
    next => exact ⟨n, hn, rfl⟩
  · intro t sc hsc
    rw [h.scopeAt?] at hsc
    split at hsc
    next => cases hsc
    next => exact ⟨sc, hsc, rfl⟩

theorem Step.survivorsKept (h : Step may g g') : SurvivorsKept g g' := by
  cases h with
  | change h => exact h.allKept.toSurvivorsKept
  | discard _ _ _ _ _ hs => exact hs.survivorsKept

theorem Steps.survivorsKept (h : Steps may g g') : SurvivorsKept g g' := by
  induction h with
  | refl => exact .refl _
  | tail _ hstep ih => exact ih.trans hstep.survivorsKept

structure LinksScopesValid (g : Graph) : Prop where
  linksMatch : LinksMatch g
  scopesOwned : ScopesOwned g

theorem LinksScopesValid.step (h : LinksScopesValid g) (hstep : Step may g g') : LinksScopesValid g' := by
  cases hstep with
  | change hchange => exact ⟨h.linksMatch.change hchange, h.scopesOwned.allKept hchange.allKept⟩
  | discard _ _ _ hinner hfree hs => exact ⟨h.linksMatch.removesNode hs hfree, h.scopesOwned.removesNode hs hinner⟩

theorem LinksScopesValid.steps (h : LinksScopesValid g) (hsteps : Steps may g g') : LinksScopesValid g' := by
  induction hsteps with
  | refl => exact h
  | tail _ hstep ih => exact ih.step hstep

theorem links_move (h : Move may g g') (k : SlotKind) :
    g'.links k = g.links k := by
  cases h <;> exact links_congr rfl rfl k

theorem links_moves (h : Moves may g g') (k : SlotKind) :
    g'.links k = g.links k := by
  induction h with
  | refl => rfl
  | tail _ hmove ih => exact (links_move hmove k).trans ih

theorem PropertyWritten.links (h : PropertyWritten id g g') (k : SlotKind) : g'.links k = g.links k := by
  rcases h with rfl | ⟨i, f, rfl⟩
  · rfl
  · exact links_modifyNode _ _ k

theorem dropLink_eq {l : Link} (h : g.dropLink l = .ok g') : l ∉ g.links l.kind ∧ g' = g ∨
    l ∈ g.links l.kind ∧ PropertyWritten l.head.node (g.removeLink l) g' := by
  simp only [dropLink, bind_eq_ok, pure_eq_ok] at h
  obtain ⟨⟨dropped, result⟩, hdropped, rfl⟩ := h
  rcases disconnect_eq hdropped with hnone | ⟨hl, ⟨-, heq⟩ | ⟨hside, hkind, -⟩ | ⟨-, -, hvalue⟩⟩
  · exact .inl hnone
  · exact .inr ⟨hl, .inl heq⟩
  · rw [hkind] at hside
    cases hside
  · exact .inr ⟨hl, onValueDisconnected_eq hvalue⟩

theorem dropLink_editChanges {l : Link} (h : g.dropLink l = .ok g') : EditChanges may g g' := by
  rcases dropLink_eq h with ⟨-, rfl⟩ | ⟨hl, hpropertyWritten⟩
  · exact .refl
  · exact .head (.unlink hl) hpropertyWritten.editChanges

theorem dropLinks_editChanges {ls : List Link} (h : ls.foldlM dropLink g = .ok g') : EditChanges may g g' :=
  foldlM_induction h .refl fun _ _ _ _ heditChanges hdrop => heditChanges.trans (dropLink_editChanges hdrop)

theorem dropLinks_changes {ls : List Link} (h : ls.foldlM dropLink g = .ok g') : Changes may g g' :=
  (dropLinks_editChanges h).changes

theorem links_dropLink {l : Link} (hw : LinksMatch g) (h : g.dropLink l = .ok g') (k : SlotKind) (l' : Link) :
    l' ∈ g'.links k ↔ l' ∈ g.links k ∧ l' ≠ l := by
  rcases dropLink_eq h with ⟨hnone, rfl⟩ | ⟨hl, hpropertyWritten⟩
  · refine ⟨fun hl' => ⟨hl', ?_⟩, And.left⟩
    rintro rfl
    rw [← (hw.joined hl').1] at hl'
    exact hnone hl'
  rw [hpropertyWritten.links, links_removeLink]
  split
  next =>
    rw [(hw.links_nodup k).mem_erase_iff]
    exact and_comm
  next hk =>
    refine ⟨fun hl' => ⟨hl', ?_⟩, And.left⟩
    rintro rfl
    exact hk (hw.joined hl').1.symm

theorem links_dropLinks {ls : List Link} (hw : LinksMatch g) (h : ls.foldlM dropLink g = .ok g')
    (k : SlotKind) (l : Link) :
    l ∈ g'.links k ↔ l ∈ g.links k ∧ l ∉ ls := by
  induction ls generalizing g with
  | nil =>
    cases h
    simp
  | cons l' ls ih =>
    simp only [List.foldlM_cons, bind_eq_ok] at h
    obtain ⟨g₁, hg₁, h⟩ := h
    have heditChanges : EditChanges always g g₁ := dropLink_editChanges hg₁
    rw [ih (hw.changes heditChanges.changes) h, links_dropLink hw hg₁, List.mem_cons, not_or, and_assoc]

/-- First the links of a node go, then it leaves its scope, and at last it goes with its inner scopes. -/
theorem remove_stages {inner : List ScopeId} (h : g.remove id inner = .ok g') :
    ∃ unlinked n left, ((g.valueLinks ++ g.flowLinks).filter (·.involves id)).foldlM dropLink g = .ok unlinked ∧
      unlinked.nodeAt? id = some n ∧
      (n.scope = none ∧ left = unlinked ∨ ∃ s, n.scope = some s ∧ unlinked.detach id s = .ok left) ∧
      left.nodeAt? id = some { n with scope := none } ∧ RemovesNode left id inner g' := by
  simp only [remove, bind_eq_ok] at h
  obtain ⟨unlinked, hunlinked, n, hn, h⟩ := h
  rw [node_eq_ok_iff] at hn
  cases hscope : n.scope with
  | none =>
    simp only [hscope, bind_eq_ok, pure_eq_ok] at h
    obtain ⟨_, rfl, cleared, hcleared, rfl⟩ := h
    refine ⟨_, n, _, hunlinked, hn, .inl ⟨hscope, rfl⟩, ?_, removesNode_drop hn hcleared⟩
    rw [hn, ← hscope]
  | some s =>
    simp only [hscope, bind_eq_ok, pure_eq_ok] at h
    obtain ⟨left, hleft, cleared, hcleared, rfl⟩ := h
    obtain ⟨-, hn'⟩ := detach_exits hleft hn hscope
    exact ⟨_, n, _, hunlinked, hn, .inr ⟨s, hscope, hleft⟩, hn', removesNode_drop hn' hcleared⟩

/-- A node is removed without its links, out of its scope, and with its inner scopes. -/
theorem remove_eq {inner : List ScopeId} (h : g.remove id inner = .ok g') :
    ∃ unlinked left s n, ((g.valueLinks ++ g.flowLinks).filter (·.involves id)).foldlM dropLink g = .ok unlinked ∧
      Exits s unlinked left ∧ left.nodeAt? id = some n ∧ n.scope = none ∧ RemovesNode left id inner g' := by
  obtain ⟨unlinked, n, left, hunlinked, hn, ⟨-, rfl⟩ | ⟨s, hscope, hleft⟩, hn', hremovesNode⟩ := remove_stages h
  · exact ⟨_, _, .null, _, hunlinked, .refl, hn', rfl, hremovesNode⟩
  · exact ⟨_, _, s, _, hunlinked, (detach_exits hleft hn hscope).1, hn', rfl, hremovesNode⟩

theorem remove_editSteps {inner : List ScopeId} (hs : LinksScopesValid g) (hroot : id ≠ g.root)
    (hinner : ∀ n, g.nodeAt? id = some n → g.innerScopes id = .ok inner) (h : g.remove id inner = .ok g') :
    EditSteps may g g' := by
  obtain ⟨unlinked, left, s, n', hunlinked, hexits, hn', hnone, hremovesNode⟩ := remove_eq h
  have heditChanges : EditChanges may g left := (dropLinks_editChanges hunlinked).trans hexits.editMoves.editChanges
  have hallKept := heditChanges.changes.allKept
  refine heditChanges.editSteps.tail (.discard ?_ hn' hnone ?_ ?_ hremovesNode)
  · rw [hallKept.root]
    exact hroot
  · obtain ⟨n, hn, -⟩ := hallKept.node hn'
    exact (hs.scopesOwned.allKept hallKept).innerScopes_of_survivorsKept hallKept.toSurvivorsKept (hinner n hn) hn'
  · intro k l hl
    rw [links_moves hexits.moves] at hl
    obtain ⟨hmem, hout⟩ := (links_dropLinks hs.linksMatch hunlinked k l).1 hl
    rw [List.mem_filter, not_and, Bool.not_eq_true] at hout
    exact hout (mem_append_of_links hmem)

inductive DestroyStages (k : Nat) (g : Graph) (id : NodeId) (n : Node) (inner : List ScopeId) : Bool → Graph → Prop
  | deep {inputs : List NodeId} {content : List (List NodeId)} {g₁ g₂ g₃ g' : Graph} :
      g.privateInputs n = .ok inputs → inputs.foldlM (destroyWithin true k) g = .ok g₁ →
      inner.mapM (fun s => do return (← g₁.scope s).children) = .ok content →
      content.flatten.foldlM (destroyWithin true k) g₁ = .ok g₂ → g₂.remove id inner = .ok g₃ →
      g₃.relink (bypass n) = .ok g' → DestroyStages k g id n inner true g'
  | plain {g' : Graph} : inner = [] → g.remove id inner = .ok g' → DestroyStages k g id n inner false g'
  | raw {target : ScopeId} {g₁ g' : Graph} : n.scope = some target ∨ n.scope = none ∧ g.rootScope = .ok target →
      inner.foldlM (rescue target) g = .ok g₁ → g₁.remove id inner = .ok g' → DestroyStages k g id n inner false g'

theorem destroyWithin_eq {sideEffects : Bool} {k : Nat} (h : destroyWithin sideEffects (k + 1) g id = .ok g') :
    (id = g.root ∨ g.nodeAt? id = none) ∧ g' = g ∨
      ∃ n inner, id ≠ g.root ∧ g.nodeAt? id = some n ∧ g.innerScopes id = .ok inner ∧
        DestroyStages k g id n inner sideEffects g' := by
  simp only [destroyWithin] at h
  split at h
  next hroot =>
    cases h
    exact .inl ⟨.inl hroot, rfl⟩
  next hroot =>
    split at h
    next hgone =>
      cases h
      rw [Bool.not_eq_true', ← Bool.not_eq_true, contains_iff, Option.not_isSome_iff_eq_none] at hgone
      exact .inl ⟨.inr hgone, rfl⟩
    next =>
      simp only [bind_eq_ok, node_eq_ok_iff] at h
      obtain ⟨inner, hinner, n, hn, h⟩ := h
      refine .inr ⟨n, inner, hroot, hn, hinner, ?_⟩
      split at h
      next hdeep =>
        subst hdeep
        simp only [bind_eq_ok] at h
        obtain ⟨inputs, hinputs, g₁, hg₁, content, hcontent, g₂, hg₂, g₃, hg₃, h⟩ := h
        exact .deep hinputs hg₁ (by simpa using hcontent) hg₂ hg₃ h
      next hraw =>
        obtain rfl : sideEffects = false := Bool.eq_false_iff.2 hraw
        split at h
        next hempty => exact .plain (List.isEmpty_iff.1 hempty) h
        next =>
          split at h
          next target htarget =>
            simp only [bind_eq_ok, pure_eq_ok] at h
            obtain ⟨_, rfl, g₁, hg₁, h⟩ := h
            exact .raw (.inl htarget) hg₁ h
          next hnone =>
            simp only [bind_eq_ok] at h
            obtain ⟨target, htarget, g₁, hg₁, h⟩ := h
            exact .raw (.inr ⟨hnone, htarget⟩) hg₁ h

theorem destroyWithin_of_destroy {sideEffects : Bool} (h : g.destroy id sideEffects = .ok g') :
    ∃ k, destroyWithin sideEffects (k + 1) g id = .ok g' := by
  unfold destroy at h
  generalize g.destroyBound = k at h
  cases k with
  | zero => cases h
  | succ k => exact ⟨k, h⟩

theorem relink_eq {slots : Option (SlotRef × SlotRef)} (h : g.relink slots = .ok g') :
    g' = g ∨ ∃ a b r, slots = some (a, b) ∧ g.connect a b true = .ok (g', r) := by
  unfold relink at h
  split at h
  next =>
    cases h
    exact .inl rfl
  next a b =>
    split at h
    next =>
      simp only [bind_eq_ok, pure_eq_ok] at h
      obtain ⟨⟨linked, result⟩, hlinked, rfl⟩ := h
      exact .inr ⟨a, b, result, rfl, hlinked⟩
    next =>
      cases h
      exact .inl rfl

theorem relink_editChanges {slots : Option (SlotRef × SlotRef)} (guards : Guards may) (h : g.relink slots = .ok g') :
    EditChanges may g g' := by
  rcases relink_eq h with rfl | ⟨a, b, r, -, hconnect⟩
  · exact .refl
  · exact connect_editChanges guards hconnect

theorem relink_changes {slots : Option (SlotRef × SlotRef)} (guards : Guards may) (h : g.relink slots = .ok g') :
    Changes may g g' :=
  (relink_editChanges guards h).changes

theorem rescue_editMoves {inner : List ScopeId} {target : ScopeId} (guards : GuardsAt may target)
    (h : inner.foldlM (rescue target) g = .ok g') : EditMoves may g g' := by
  refine foldlM_induction h .refl ?_
  intro h₁ s _ h₂ heditMoves hrescue
  simp only [rescue, bind_eq_ok, pure_eq_ok] at hrescue
  obtain ⟨⟨moved, result⟩, hmoved, rfl⟩ := hrescue
  exact heditMoves.trans (transferChildren_editMoves guards hmoved)

theorem rescue_moves {inner : List ScopeId} {target : ScopeId} (guards : GuardsAt may target)
    (h : inner.foldlM (rescue target) g = .ok g') : Moves may g g' :=
  (rescue_editMoves guards h).moves

theorem destroyWithin_editSteps (guards : Guards may) {sideEffects : Bool} {k : Nat} (hs : LinksScopesValid g)
    (h : destroyWithin sideEffects k g id = .ok g') : EditSteps may g g' := by
  induction k generalizing g id g' with
  | zero => cases h
  | succ k ih =>
    have hfold {ids : List NodeId} {g₁ g₂ : Graph} (hs : LinksScopesValid g₁)
        (h : ids.foldlM (destroyWithin sideEffects k) g₁ = .ok g₂) : EditSteps may g₁ g₂ := by
      refine foldlM_induction h .refl ?_
      intro h₁ x _ h₂ heditSteps hdestroy
      exact heditSteps.trans (ih (hs.steps heditSteps.steps) hdestroy)
    rcases destroyWithin_eq h with ⟨-, rfl⟩ | ⟨n, inner, hroot, hn, hinner, hstages⟩
    · exact .refl
    have hfinish {g₁ g₂ : Graph} (heditSteps : EditSteps may g g₁) (hremove : g₁.remove id inner = .ok g₂) :
        EditSteps may g g₂ := by
      have hsteps := heditSteps.steps
      refine heditSteps.trans (remove_editSteps (hs.steps hsteps) ?_ ?_ hremove)
      · rw [hsteps.survivorsKept.root]
        exact hroot
      · intro n hn
        exact (hs.steps hsteps).scopesOwned.innerScopes_of_survivorsKept hsteps.survivorsKept hinner hn
    cases hstages with
    | deep _ hinputs _ hcontent hremove hrelink =>
      have heditSteps := (hfold hs hinputs).trans (hfold (hs.steps (hfold hs hinputs).steps) hcontent)
      exact (hfinish heditSteps hremove).trans (relink_editChanges guards hrelink).editSteps
    | plain _ hremove => exact hfinish .refl hremove
    | raw _ hrescue hremove => exact hfinish (rescue_editMoves (guards _) hrescue).editChanges.editSteps hremove

theorem foldlM_destroyWithin_editSteps (guards : Guards may) {sideEffects : Bool} {k : Nat} {ids : List NodeId}
    (hs : LinksScopesValid g) (h : ids.foldlM (destroyWithin sideEffects k) g = .ok g') : EditSteps may g g' :=
  foldlM_induction h .refl fun _ _ _ _ heditSteps hdestroy =>
    heditSteps.trans (destroyWithin_editSteps guards (hs.steps heditSteps.steps) hdestroy)

theorem destroy_editSteps (guards : Guards may) {sideEffects : Bool} (hs : LinksScopesValid g)
    (h : g.destroy id sideEffects = .ok g') : EditSteps may g g' :=
  destroyWithin_editSteps guards hs h

theorem destroyWithin_steps (guards : Guards may) {sideEffects : Bool} {k : Nat} (hs : LinksScopesValid g)
    (h : destroyWithin sideEffects k g id = .ok g') : Steps may g g' :=
  (destroyWithin_editSteps guards hs h).steps

theorem destroy_steps (guards : Guards may) {sideEffects : Bool} (hs : LinksScopesValid g)
    (h : g.destroy id sideEffects = .ok g') : Steps may g g' :=
  (destroy_editSteps guards hs h).steps

end FlowGraph.Graph
