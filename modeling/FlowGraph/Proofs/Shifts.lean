import FlowGraph.Proofs.Moves

/-!
# Moves as edits make them

Such a move has all that goes with it: the declaration of a variable that enters, those that a variable which leaves
had hidden, and the event. An edit of the membership is a series of these. Of one that changes the scope of a node,
those that leave the old scope come first, and those that enter the new one last.
-/

namespace FlowGraph.Graph

open Relation

inductive Enters (may : Graph → NodeId → ScopeId → Prop) (s : ScopeId) : Graph → Graph → Prop
  | of_enter {g g' : Graph} {id : NodeId} {n : Node} : g.nodeAt? id = some n → n.scope = none → may g id s →
      g.enter id s = .ok g' → Enters may s g g'

inductive Leaves (s : ScopeId) : Graph → Graph → Prop
  | of_leave {g g' : Graph} {id : NodeId} {n : Node} : g.nodeAt? id = some n → n.scope = some s →
      g.leave id s = .ok g' → Leaves s g g'

inductive EditMove (may : Graph → NodeId → ScopeId → Prop) : Graph → Graph → Prop
  | enter {g g' : Graph} {s : ScopeId} : Enters may s g g' → EditMove may g g'
  | leave {g g' : Graph} {s : ScopeId} : Leaves s g g' → EditMove may g g'
  | lead {g g' : Graph} {s : ScopeId} : g.resetHead s = .ok g' → EditMove may g g'
  | unlead {g : Graph} {s : ScopeId} {sc : Scope} : g.scopeAt? s = some sc →
      EditMove may g (g.modifyScope s ({ · with head := none }))

abbrev Entries (may : Graph → NodeId → ScopeId → Prop) (s : ScopeId) : Graph → Graph → Prop :=
  ReflTransGen (Enters may s)

abbrev Exits (s : ScopeId) : Graph → Graph → Prop := ReflTransGen (Leaves s)

abbrev EditMoves (may : Graph → NodeId → ScopeId → Prop) : Graph → Graph → Prop := ReflTransGen (EditMove may)

structure DeclarationsDiffer (g g' : Graph) : Prop where
  nodeAt? : ∀ x, g'.nodeAt? x = g.nodeAt? x
  scopeAt? : ∀ t, (g'.scopeAt? t).map ({ · with declared := [] }) = (g.scopeAt? t).map ({ · with declared := [] })
  frame : g' = { g with arena := g'.arena }

namespace DeclarationsDiffer

variable {g g' : Graph}

theorem refl (g : Graph) : DeclarationsDiffer g g := ⟨fun _ => rfl, fun _ => rfl, rfl⟩

theorem trans {g'' : Graph} (h : DeclarationsDiffer g g') (h' : DeclarationsDiffer g' g'') :
    DeclarationsDiffer g g'' := by
  refine ⟨fun x => (h'.nodeAt? x).trans (h.nodeAt? x), fun t => (h'.scopeAt? t).trans (h.scopeAt? t), ?_⟩
  rw [h'.frame, h.frame]

theorem declare (g : Graph) (s : ScopeId) (v : NodeId) : DeclarationsDiffer g (g.modifyScope s (·.declare v)) := by
  refine ⟨fun x => nodeAt?_modifyScope _ x, fun t => ?_, rfl⟩
  rw [scopeAt?_modifyScope]
  split
  next => cases g.scopeAt? t <;> rfl
  next => rfl

theorem emit (h : DeclarationsDiffer g g') (e : Event) : DeclarationsDiffer (g.emit e) (g'.emit e) := by
  refine ⟨h.nodeAt?, h.scopeAt?, ?_⟩
  conv_lhs => rw [h.frame]
  rfl

theorem scope_of (h : DeclarationsDiffer g g') {t : ScopeId} {sc' : Scope} (hsc : g'.scopeAt? t = some sc') :
    ∃ sc, g.scopeAt? t = some sc ∧ sc' = { sc with declared := sc'.declared } := by
  have ht := h.scopeAt? t
  rw [hsc, Option.map_some, eq_comm, Option.map_eq_some_iff] at ht
  obtain ⟨sc, hsc, heq⟩ := ht
  refine ⟨sc, hsc, ?_⟩
  cases sc
  cases sc'
  simpa using heq.symm

end DeclarationsDiffer

section

variable {g g' : Graph} {id : NodeId} {s : ScopeId}

theorem declarationsDiffer_declareShadowed {name : String} (h : g.declareShadowed s name = .ok g') :
    DeclarationsDiffer g g' := by
  simp only [declareShadowed, bind_eq_ok] at h
  obtain ⟨nested, -, h⟩ := h
  refine foldlM_induction h (.refl g) ?_
  intro h₁ current _ h₂ hdeclarationsDiffer hvisit
  simp only [bind_eq_ok] at hvisit
  obtain ⟨vs, -, hvisit⟩ := hvisit
  refine foldlM_induction hvisit hdeclarationsDiffer ?_
  intro h v _ h' hdeclarationsDiffer hdeclare
  simp only [declareUnlessInSight, bind_eq_ok] at hdeclare
  obtain ⟨found, -, hdeclare⟩ := hdeclare
  split at hdeclare
  next =>
    obtain rfl := pure_eq_ok.1 hdeclare
    exact hdeclarationsDiffer
  next =>
    obtain rfl := pure_eq_ok.1 hdeclare
    exact hdeclarationsDiffer.trans (.declare h current v)

theorem enter_eq (h : g.enter id s = .ok g') :
    DeclarationsDiffer ((g.place id s).emit (.nodeScoped id (some s))) g' ∧ ∃ sc, g.scopeAt? s = some sc := by
  simp only [enter, bind_eq_ok, scope_eq_ok_iff] at h
  obtain ⟨n, -, sc, hsc, h⟩ := h
  refine ⟨?_, sc, hsc⟩
  split at h
  next =>
    simp only [bind_eq_ok] at h
    obtain ⟨found, -, h⟩ := h
    cases found with
    | some v =>
      cases h
      exact .refl _
    | none =>
      cases h
      exact .declare _ s id
  next =>
    cases h
    exact .refl _

theorem leave_eq (h : g.leave id s = .ok g') :
    DeclarationsDiffer ((g.displace id s).emit (.nodeScoped id none)) g' ∧ ∃ sc, g.scopeAt? s = some sc := by
  simp only [leave, bind_eq_ok, scope_eq_ok_iff] at h
  obtain ⟨n, -, sc, hsc, h⟩ := h
  refine ⟨?_, sc, hsc⟩
  split at h
  next =>
    simp only [bind_eq_ok] at h
    obtain ⟨g'', hg'', h⟩ := h
    cases h
    exact (declarationsDiffer_declareShadowed hg'').emit _
  next =>
    cases h
    exact .refl _

end

section

variable {may : Graph → NodeId → ScopeId → Prop} {g g' : Graph} {id : NodeId} {s : ScopeId}

theorem Leaves.moves (h : Leaves s g g') : Moves never g g' := by
  obtain ⟨hn, hscope, hleave⟩ := h
  obtain ⟨hmove, hmoves⟩ := leave_moves hleave hn hscope
  exact .head hmove hmoves

theorem Exits.moves (h : Exits s g g') : Moves never g g' := by
  induction h with
  | refl => exact .refl
  | tail _ hleaves ih => exact ih.trans hleaves.moves

theorem EditMove.moves (h : EditMove may g g') : Moves may g g' := by
  cases h with
  | enter h =>
    obtain ⟨hn, hnone, hmay, henter⟩ := h
    exact enter_moves henter hn hnone hmay
  | leave h => exact h.moves.of_never
  | lead h => exact resetHead_moves h
  | unlead hsc => exact .single (.lead hsc fun _ hid => nomatch hid)

theorem EditMoves.moves (h : EditMoves may g g') : Moves may g g' := by
  induction h with
  | refl => exact .refl
  | tail _ hshift ih => exact ih.trans hshift.moves

theorem Entries.editMoves (h : Entries may s g g') : EditMoves may g g' := ReflTransGen.mono (fun _ _ => .enter) _ _ h

theorem Exits.editMoves (h : Exits s g g') : EditMoves may g g' := ReflTransGen.mono (fun _ _ => .leave) _ _ h

theorem insertWithin_entries (guards : GuardsAt may s) {k : Nat} {n : Node} (h : insertWithin k g id s = .ok g')
    (hn : g.nodeAt? id = some n) (hnone : n.scope = none) (hmay : may g id s) : Entries may s g g' := by
  induction k generalizing g id g' n with
  | zero => cases h
  | succ k ih =>
    simp only [insertWithin, bind_eq_ok] at h
    obtain ⟨entered, hentered, next, -, h⟩ := h
    refine foldlM_induction h (.single (.of_enter hn hnone hmay hentered)) ?_
    intro h₁ c _ h₂ hentries hfollow
    simp only [bind_eq_ok, node_eq_ok_iff] at hfollow
    obtain ⟨m, hm, hfollow⟩ := hfollow
    split at hfollow
    next =>
      obtain rfl := pure_eq_ok.1 hfollow
      exact hentries
    next hscope =>
      simp only [bind_eq_ok] at hfollow
      obtain ⟨refused, hrefused, hfollow⟩ := hfollow
      split at hfollow
      next =>
        obtain rfl := pure_eq_ok.1 hfollow
        exact hentries
      next hallowed =>
        obtain rfl : refused = none := by simpa using hallowed
        exact hentries.trans (ih hfollow hm (by simpa using hscope) (guards.of_check hrefused))

theorem insertIntoScope_entries (guards : GuardsAt may s) {n : Node} (h : g.insertIntoScope id s = .ok g')
    (hn : g.nodeAt? id = some n) (hnone : n.scope = none) (hmay : may g id s) : Entries may s g g' :=
  insertWithin_entries guards h hn hnone hmay

theorem insertIntoScope_moves (guards : GuardsAt may s) {n : Node} (h : g.insertIntoScope id s = .ok g')
    (hn : g.nodeAt? id = some n) (hnone : n.scope = none) (hmay : may g id s) : Moves may g g' :=
  (insertIntoScope_entries guards h hn hnone hmay).editMoves.moves

theorem leave_unscoped {n : Node} (h : g.leave id s = .ok g') (hn : g.nodeAt? id = some n)
    (hscope : n.scope = some s) : g'.nodeAt? id = some { n with scope := none } := by
  exact (leave_moves h hn hscope).2.unscoped (nodeAt?_displace_self hn) rfl

theorem detachWithin_exits {k : Nat} {n : Node} (h : detachWithin k g id s = .ok g')
    (hn : g.nodeAt? id = some n) (hscope : n.scope = some s) :
    Exits s g g' ∧ g'.nodeAt? id = some { n with scope := none } := by
  induction k generalizing g id g' n with
  | zero => cases h
  | succ k ih =>
    simp only [detachWithin, bind_eq_ok] at h
    obtain ⟨left, hleft, next, -, h⟩ := h
    have hrest : Exits s left g' := by
      refine foldlM_induction h .refl ?_
      intro h₁ c _ h₂ hexits hfollow
      simp only [bind_eq_ok, node_eq_ok_iff] at hfollow
      obtain ⟨m, hm, hfollow⟩ := hfollow
      split at hfollow
      next hthere => exact hexits.trans (ih hfollow hm hthere).1
      next =>
        obtain rfl := pure_eq_ok.1 hfollow
        exact hexits
    exact ⟨.head (.of_leave hn hscope hleft) hrest, hrest.moves.unscoped (leave_unscoped hleft hn hscope) rfl⟩

theorem detach_exits {n : Node} (h : g.detach id s = .ok g') (hn : g.nodeAt? id = some n)
    (hscope : n.scope = some s) : Exits s g g' ∧ g'.nodeAt? id = some { n with scope := none } :=
  detachWithin_exits h hn hscope

theorem detach_moves {n : Node} (h : g.detach id s = .ok g') (hn : g.nodeAt? id = some n)
    (hscope : n.scope = some s) : Moves never g g' ∧ g'.nodeAt? id = some { n with scope := none } := by
  obtain ⟨hexits, hn'⟩ := detach_exits h hn hscope
  exact ⟨hexits.moves, hn'⟩

end

section

variable {may : Graph → NodeId → ScopeId → Prop} {g g' : Graph} {id : NodeId} {s : ScopeId} (guards : GuardsAt may s)

include guards

theorem appendToScope_editMoves {r : Except ScopeError Unit} (h : g.appendToScope id s = .ok (g', r)) :
    EditMoves may g g' := by
  simp only [appendToScope, bind_eq_ok, node_eq_ok_iff] at h
  obtain ⟨n, hn, h⟩ := h
  split at h
  next =>
    cases h
    exact .refl
  next hnone =>
    simp only [bind_eq_ok] at h
    obtain ⟨refused, hrefused, h⟩ := h
    cases refused with
    | some e =>
      cases h
      exact .refl
    | none =>
      simp only [bind_eq_ok] at h
      obtain ⟨g'', hg'', h⟩ := h
      cases h
      exact (insertIntoScope_entries guards hg'' hn hnone (guards.of_check hrefused)).editMoves

omit guards in
theorem removeFromScope_editMoves {r : Except ScopeError ScopeId} (h : g.removeFromScope id = .ok (g', r)) :
    EditMoves may g g' := by
  simp only [removeFromScope, bind_eq_ok, node_eq_ok_iff] at h
  obtain ⟨n, hn, h⟩ := h
  split at h
  next =>
    cases h
    exact .refl
  next hscope =>
    simp only [bind_eq_ok] at h
    obtain ⟨g'', hg'', h⟩ := h
    cases h
    exact (detach_exits hg'' hn hscope).1.editMoves

/-- Nothing happens, or nodes leave the scope that the node was in, if any, and then nodes enter the new one. -/
theorem changeScope_eq {r : Except ScopeError Unit} (h : g.changeScope id s = .ok (g', r)) :
    g' = g ∨ ∃ n left, g.nodeAt? id = some n ∧ n.scope ≠ some s ∧
      (n.scope = none ∧ left = g ∨ ∃ current, n.scope = some current ∧ Exits current g left) ∧
      Entries may s left g' := by
  simp only [changeScope, bind_eq_ok, node_eq_ok_iff] at h
  obtain ⟨n, hn, h⟩ := h
  split at h
  next =>
    cases h
    exact .inl rfl
  next hother =>
    simp only [bind_eq_ok] at h
    obtain ⟨refused, hrefused, h⟩ := h
    cases refused with
    | some e =>
      cases h
      exact .inl rfl
    | none =>
      have hmay := guards.of_check hrefused
      cases hscope : n.scope with
      | none =>
        simp only [hscope, bind_eq_ok, pure_eq_ok] at h
        obtain ⟨_, rfl, inserted, hinserted, h⟩ := h
        cases h
        exact .inr ⟨n, _, hn, hother, .inl ⟨hscope, rfl⟩, insertIntoScope_entries guards hinserted hn hscope hmay⟩
      | some current =>
        simp only [hscope, bind_eq_ok] at h
        obtain ⟨left, hleft, inserted, hinserted, h⟩ := h
        cases h
        obtain ⟨hexits, hn'⟩ := detach_exits hleft hn hscope
        exact .inr ⟨n, left, hn, hother, .inr ⟨current, hscope, hexits⟩,
          insertIntoScope_entries guards hinserted hn' rfl (guards.kept_moves hexits.moves hmay)⟩

theorem changeScope_editMoves {r : Except ScopeError Unit} (h : g.changeScope id s = .ok (g', r)) :
    EditMoves may g g' := by
  rcases changeScope_eq guards h with rfl | ⟨n, left, -, -, ⟨-, rfl⟩ | ⟨current, -, hexits⟩, hentries⟩
  · exact .refl
  · exact hentries.editMoves
  · exact hexits.editMoves.trans hentries.editMoves

theorem changeScope_moves {r : Except ScopeError Unit} (h : g.changeScope id s = .ok (g', r)) : Moves may g g' :=
  (changeScope_editMoves guards h).moves

theorem transfer_editMoves {source : ScopeId} {cs : List NodeId} {r : Except ScopeError Unit}
    (h : transfer source s cs g = .ok (g', r)) : EditMoves may g g' := by
  induction cs generalizing g with
  | nil =>
    cases h
    exact .refl
  | cons c cs ih =>
    simp only [transfer, bind_eq_ok] at h
    obtain ⟨n, -, h⟩ := h
    split at h
    next =>
      simp only [bind_eq_ok] at h
      obtain ⟨⟨moved, result⟩, hmoved, h⟩ := h
      have heditMoves := changeScope_editMoves guards hmoved
      cases result with
      | ok _ => exact heditMoves.trans (ih h)
      | error e =>
        cases h
        exact heditMoves
    next => exact ih h

theorem transferChildren_editMoves {source : ScopeId} {r : Except ScopeError Unit}
    (h : g.transferChildren source s = .ok (g', r)) : EditMoves may g g' := by
  simp only [transferChildren, bind_eq_ok] at h
  obtain ⟨sc, -, h⟩ := h
  exact transfer_editMoves guards h

theorem transfer_moves {source : ScopeId} {cs : List NodeId} {r : Except ScopeError Unit}
    (h : transfer source s cs g = .ok (g', r)) : Moves may g g' :=
  (transfer_editMoves guards h).moves

end

end FlowGraph.Graph
