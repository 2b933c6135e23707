import FlowGraph.Proofs.Shifts

/-!
# Changes of a graph

Links and their side effects add three more kinds of steps to the moves between scopes: properties are
written, and links are made and removed. None of them creates or removes a node or a scope.
-/

namespace FlowGraph

inductive Property.Writing
  | value (v : Value)
  | type (t : ValueType)
  | default

namespace Property.Writing

def apply : Writing → Property → Property
  | value v, p => p.setValue v
  | type t, p => p.setType t
  | default, p => p.resetToDefault

end Property.Writing

def Node.frame (n : Node) : Node := { n with properties := {}, slots := [] }

theorem Node.of_frame {n n' : Node} (h : n'.frame = n.frame) :
    n'.scope = n.scope ∧ n'.kind = n.kind ∧ n'.name = n.name ∧ n'.internalScope = n.internalScope := by
  simp only [frame, Node.mk.injEq] at h
  obtain ⟨-, hkind, hname, -, -, hscope, hinternal, -⟩ := h
  exact ⟨hscope, hkind, hname, hinternal⟩

namespace Graph

open Relation

inductive Change (may : Graph → NodeId → ScopeId → Prop) : Graph → Graph → Prop
  | move {g g' : Graph} : Move may g g' → Change may g g'
  | retouch {g : Graph} (id : NodeId) (i : Nat) (w : Property.Writing) :
      Change may g (g.modifyNode id (·.modifyProperty i w.apply))
  | link {g : Graph} {a b : SlotRef} {l : Link} : g.validateLink a b = .ok (.ok l) → Change may g (g.addLink l)
  | unlink {g : Graph} {l : Link} : l ∈ g.links l.kind → Change may g (g.removeLink l)

abbrev Changes (may : Graph → NodeId → ScopeId → Prop) : Graph → Graph → Prop := ReflTransGen (Change may)

inductive EditChange (may : Graph → NodeId → ScopeId → Prop) : Graph → Graph → Prop
  | shift {g g' : Graph} : EditMove may g g' → EditChange may g g'
  | retouch {g : Graph} (id : NodeId) (i : Nat) (w : Property.Writing) :
      EditChange may g (g.modifyNode id (·.modifyProperty i w.apply))
  | link {g : Graph} {a b : SlotRef} {l : Link} : g.validateLink a b = .ok (.ok l) → EditChange may g (g.addLink l)
  | unlink {g : Graph} {l : Link} : l ∈ g.links l.kind → EditChange may g (g.removeLink l)

abbrev EditChanges (may : Graph → NodeId → ScopeId → Prop) : Graph → Graph → Prop := ReflTransGen (EditChange may)

theorem Moves.changes {may : Graph → NodeId → ScopeId → Prop} {g g' : Graph} (h : Moves may g g') :
    Changes may g g' :=
  ReflTransGen.mono (fun _ _ => .move) _ _ h

theorem EditMoves.editChanges {may : Graph → NodeId → ScopeId → Prop} {g g' : Graph} (h : EditMoves may g g') :
    EditChanges may g g' :=
  ReflTransGen.mono (fun _ _ => .shift) _ _ h

theorem EditChanges.changes {may : Graph → NodeId → ScopeId → Prop} {g g' : Graph} (h : EditChanges may g g') :
    Changes may g g' := by
  induction h with
  | refl => exact .refl
  | tail _ hact ih =>
    cases hact with
    | shift h => exact ih.trans h.moves.changes
    | retouch id i w => exact ih.tail (.retouch id i w)
    | link hl => exact ih.tail (.link hl)
    | unlink hl => exact ih.tail (.unlink hl)

structure SameFrames (g g' : Graph) : Prop where
  scopes : ∀ t, g'.scopeAt? t = g.scopeAt? t
  nodes : ∀ x, (g'.nodeAt? x).map Node.frame = (g.nodeAt? x).map Node.frame

theorem SameFrames.rfl {g : Graph} : SameFrames g g := ⟨fun _ => .refl _, fun _ => .refl _⟩

theorem SameFrames.trans {g₁ g₂ g₃ : Graph} (h : SameFrames g₁ g₂) (h' : SameFrames g₂ g₃) : SameFrames g₁ g₃ :=
  ⟨fun t => (h'.scopes t).trans (h.scopes t), fun x => (h'.nodes x).trans (h.nodes x)⟩

theorem SameFrames.symm {g g' : Graph} (h : SameFrames g g') : SameFrames g' g :=
  ⟨fun t => (h.scopes t).symm, fun x => (h.nodes x).symm⟩

theorem SameFrames.node {g g' : Graph} (h : SameFrames g g') {x : NodeId} {n : Node} (hn : g.nodeAt? x = some n) :
    ∃ n', g'.nodeAt? x = some n' ∧ n'.frame = n.frame := by
  have hx := h.nodes x
  rwa [hn, Option.map_some, Option.map_eq_some_iff] at hx

theorem sameFrames_modifyNode {g : Graph} {id : NodeId} {f : Node → Node} (hf : ∀ n, (f n).frame = n.frame) :
    SameFrames g (g.modifyNode id f) := by
  refine ⟨scopeAt?_modifyNode f, fun x => ?_⟩
  rw [nodeAt?_modifyNode]
  split
  next =>
    cases g.nodeAt? x with
    | none => rfl
    | some n => exact congrArg some (hf n)
  next => rfl

theorem sameFrames_modifySlot {g : Graph} (r : SlotRef) (f : Slot → Slot) : SameFrames g (g.modifySlot r f) :=
  sameFrames_modifyNode fun _ => by rfl

theorem sameFrames_modifyLinks {g : Graph} (kind : SlotKind) (f : List Link → List Link) :
    SameFrames g (g.modifyLinks kind f) :=
  ⟨scopeAt?_modifyLinks kind f, fun x => by rw [nodeAt?_modifyLinks]⟩

theorem sameFrames_emit {g : Graph} (e : Event) : SameFrames g (g.emit e) := ⟨fun _ => by rfl, fun _ => by rfl⟩

theorem sameFrames_addLink (g : Graph) (l : Link) : SameFrames g (g.addLink l) :=
  (sameFrames_modifySlot ..).trans
    ((sameFrames_modifySlot ..).trans ((sameFrames_modifyLinks ..).trans (sameFrames_emit _)))

theorem sameFrames_removeLink (g : Graph) (l : Link) : SameFrames g (g.removeLink l) :=
  (sameFrames_modifyLinks ..).trans
    ((sameFrames_modifySlot ..).trans ((sameFrames_modifySlot ..).trans (sameFrames_emit _)))

theorem Change.move_or_sameFrames {may : Graph → NodeId → ScopeId → Prop} {g g' : Graph} (h : Change may g g') :
    Move may g g' ∨ SameFrames g g' := by
  cases h with
  | move h => exact .inl h
  | retouch => exact .inr (sameFrames_modifyNode fun _ => by rfl)
  | link _ => exact .inr (sameFrames_addLink _ _)
  | unlink _ => exact .inr (sameFrames_removeLink _ _)

section

variable {may : Graph → NodeId → ScopeId → Prop} {g g' : Graph} {id : NodeId} {link : Link}

def MovedOrSame (id : NodeId) (g g' : Graph) : Prop := g' = g ∨ ∃ s r, g.changeScope id s = .ok (g', r)

theorem MovedOrSame.editMoves (guards : Guards may) (h : MovedOrSame id g g') : EditMoves may g g' := by
  rcases h with rfl | ⟨s, r, h⟩
  · exact .refl
  · exact changeScope_editMoves (guards s) h

/-- The head is moved. It leads the scope that it is now in if it has one predecessor, the branch. -/
theorem onFlowConnected_eq (h : g.onFlowConnected link = .ok g') :
    ∃ tails, g.predecessors link.head = .ok tails ∧
      ∃ moved, MovedOrSame link.head.node g moved ∧ (g' = moved ∨ ∃ target, g.scopeAfter tails = .ok (some target) ∧
        tails.length = 1 ∧ moved.isBranchSlot link.tail = .ok true ∧ moved.resetHead target = .ok g') := by
  simp only [onFlowConnected, bind_eq_ok] at h
  obtain ⟨tails, htails, target, htarget, h⟩ := h
  refine ⟨tails, htails, ?_⟩
  cases target with
  | none =>
    cases h
    exact ⟨g, .inl rfl, .inl rfl⟩
  | some target =>
    simp only [bind_eq_ok] at h
    obtain ⟨⟨moved, result⟩, hmoved, h⟩ := h
    refine ⟨moved, .inr ⟨target, result, hmoved⟩, ?_⟩
    cases result with
    | error e =>
      cases h
      exact .inl rfl
    | ok _ =>
      simp only at h
      split at h
      next hsingle =>
        simp only [bind_eq_ok] at h
        obtain ⟨branches, hbranches, h⟩ := h
        split at h
        next hbranch =>
          subst hbranch
          exact .inr ⟨target, htarget, hsingle, hbranches, h⟩
        next =>
          cases h
          exact .inl rfl
      next =>
        cases h
        exact .inl rfl

theorem onFlowConnected_editMoves (guards : Guards may) (h : g.onFlowConnected link = .ok g') : EditMoves may g g' := by
  obtain ⟨tails, -, moved, hmoved, rfl | ⟨target, -, -, -, hreset⟩⟩ := onFlowConnected_eq h
  · exact hmoved.editMoves guards
  · exact (hmoved.editMoves guards).tail (.lead hreset)

def resettle (g : Graph) (head : SlotRef) : Except Fault Graph := do
  match ← g.scopeAfter (← g.predecessors head) with
  | none => return g
  | some target => return (← g.changeScope head.node target).1

theorem resettle_eq {head : SlotRef} (h : g.resettle head = .ok g') : MovedOrSame head.node g g' := by
  simp only [resettle, bind_eq_ok] at h
  obtain ⟨tails, -, target, -, h⟩ := h
  cases target with
  | none =>
    cases h
    exact .inl rfl
  | some target =>
    simp only [bind_eq_ok] at h
    obtain ⟨⟨moved, result⟩, hmoved, h⟩ := h
    cases h
    exact .inr ⟨target, result, hmoved⟩

inductive BranchHeadCleared (link : Link) (g : Graph) : Graph → Prop
  | other : (∀ branch sc, g.isBranchSlot link.tail = .ok true → g.branchScope link.tail = .ok (some branch) →
      g.scopeAt? branch = some sc → sc.head ≠ some link.head.node) → BranchHeadCleared link g g
  | unlead {branch : ScopeId} {sc : Scope} : g.isBranchSlot link.tail = .ok true →
      g.branchScope link.tail = .ok (some branch) → g.scopeAt? branch = some sc → sc.head = some link.head.node →
      BranchHeadCleared link g (g.modifyScope branch ({ · with head := none }))

theorem BranchHeadCleared.editMoves (h : BranchHeadCleared link g g') : EditMoves may g g' := by
  cases h with
  | other => exact .refl
  | unlead _ _ hsc => exact .single (.unlead hsc)

theorem onFlowDisconnected_eq (h : g.onFlowDisconnected link = .ok g') :
    ∃ unled, BranchHeadCleared link g unled ∧ MovedOrSame link.head.node unled g' := by
  simp only [onFlowDisconnected, bind_eq_ok] at h
  obtain ⟨branches, hbranches, h⟩ := h
  split at h
  next htrue =>
    subst htrue
    simp only [bind_eq_ok] at h
    obtain ⟨branch, hbranch, h⟩ := h
    cases branch with
    | none =>
      refine ⟨g, .other fun branch' _ _ hbranch' => ?_, resettle_eq h⟩
      cases hbranch.symm.trans hbranch'
    | some branch =>
      simp only [bind_eq_ok, scope_eq_ok_iff] at h
      obtain ⟨sc, hsc, h⟩ := h
      split at h
      next hhead => exact ⟨_, .unlead hbranches hbranch hsc hhead, resettle_eq h⟩
      next hother =>
        refine ⟨g, .other fun branch' sc' _ hbranch' hsc' => ?_, resettle_eq h⟩
        cases hbranch.symm.trans hbranch'
        cases hsc.symm.trans hsc'
        exact hother
  next hplain =>
    refine ⟨g, .other fun _ _ hbranches' => ?_, resettle_eq h⟩
    cases hbranches.symm.trans hbranches'
    exact (hplain rfl).elim

theorem onFlowDisconnected_editMoves (guards : Guards may) (h : g.onFlowDisconnected link = .ok g') :
    EditMoves may g g' := by
  obtain ⟨unled, hheadCleared, hmovedOrSame⟩ := onFlowDisconnected_eq h
  exact hheadCleared.editMoves.trans (hmovedOrSame.editMoves guards)

def PropertyWritten (id : NodeId) (g g' : Graph) : Prop :=
  g' = g ∨ ∃ (i : Nat) (w : Property.Writing), g' = g.modifyNode id (·.modifyProperty i w.apply)

theorem PropertyWritten.editChanges (h : PropertyWritten id g g') : EditChanges may g g' := by
  rcases h with rfl | ⟨i, w, rfl⟩
  · exact .refl
  · exact .single (.retouch id i w)

def retype (g : Graph) (link : Link) : Except Fault Graph := do
  let tail ← g.node link.tail.node
  let head ← g.node link.head.node
  if head.isVariable then return g
  match tail.slot? link.tail.slot, head.slot? link.head.slot with
  | some output, some input =>
    let type := (tail.property output.property).type
    return g.modifyNode link.head.node (·.modifyProperty input.property (·.setType type))
  | _, _ => return g

theorem retype_eq (h : g.retype link = .ok g') : PropertyWritten link.head.node g g' := by
  simp only [retype, bind_eq_ok] at h
  obtain ⟨tail, -, head, -, h⟩ := h
  split at h
  next =>
    cases h
    exact .inl rfl
  next =>
    split at h
    next =>
      cases h
      exact .inr ⟨_, .type _, rfl⟩
    next =>
      cases h
      exact .inl rfl

theorem onValueConnected_eq (h : g.onValueConnected link = .ok g') :
    ∃ tail moved, g.nodeAt? link.tail.node = some tail ∧ MovedOrSame tail.id g moved ∧
      PropertyWritten link.head.node moved g' := by
  simp only [onValueConnected, bind_eq_ok] at h
  obtain ⟨tail, htail, head, -, h⟩ := h
  refine ⟨tail, ?_⟩
  rw [node_eq_ok_iff] at htail
  split at h
  next =>
    split at h
    next => exact ⟨g, htail, .inl rfl, retype_eq h⟩
    next =>
      obtain ⟨⟨moved, result⟩, hmoved, h⟩ := bind_eq_ok.1 h
      exact ⟨moved, htail, .inr ⟨_, result, hmoved⟩, retype_eq h⟩
  next => exact ⟨g, htail, .inl rfl, retype_eq h⟩

theorem onValueConnected_editChanges (guards : Guards may) (h : g.onValueConnected link = .ok g') :
    EditChanges may g g' := by
  obtain ⟨tail, moved, -, hmoved, hpropertyWritten⟩ := onValueConnected_eq h
  exact (hmoved.editMoves guards).editChanges.trans hpropertyWritten.editChanges

theorem onValueDisconnected_eq (h : g.onValueDisconnected link = .ok g') : PropertyWritten link.head.node g g' := by
  simp only [onValueDisconnected, bind_eq_ok] at h
  obtain ⟨head, -, h⟩ := h
  split at h
  next =>
    cases h
    exact .inl rfl
  next =>
    split at h
    next =>
      cases h
      exact .inl rfl
    next =>
      cases h
      exact .inr ⟨_, .default, rfl⟩

theorem connect_eq {a b : SlotRef} {sideEffects : Bool} {r : Except ConnectError Link}
    (h : g.connect a b sideEffects = .ok (g', r)) :
    g' = g ∧ (∃ e, r = .error e) ∨ ∃ l, r = .ok l ∧ g.validateLink a b = .ok (.ok l) ∧
      (sideEffects = false ∧ g' = g.addLink l ∨
        sideEffects = true ∧ l.kind = .flow ∧ (g.addLink l).onFlowConnected l = .ok g' ∨
        sideEffects = true ∧ l.kind = .value ∧ (g.addLink l).onValueConnected l = .ok g') := by
  simp only [connect, bind_eq_ok] at h
  obtain ⟨result, hresult, h⟩ := h
  cases result with
  | error e =>
    cases h
    exact .inl ⟨rfl, e, rfl⟩
  | ok link =>
    refine .inr ⟨link, ?_⟩
    simp only at h
    split at h
    next =>
      cases h
      exact ⟨rfl, hresult, .inl ⟨rfl, rfl⟩⟩
    next hkind =>
      obtain ⟨g'', hg'', h⟩ := bind_eq_ok.1 h
      cases h
      exact ⟨rfl, hresult, .inr (.inl ⟨rfl, hkind, hg''⟩)⟩
    next hkind =>
      obtain ⟨g'', hg'', h⟩ := bind_eq_ok.1 h
      cases h
      exact ⟨rfl, hresult, .inr (.inr ⟨rfl, hkind, hg''⟩)⟩

theorem disconnect_eq {sideEffects : Bool} {r : Except ConnectError Unit}
    (h : g.disconnect link sideEffects = .ok (g', r)) :
    link ∉ g.links link.kind ∧ g' = g ∨ link ∈ g.links link.kind ∧
      (sideEffects = false ∧ g' = g.removeLink link ∨
        sideEffects = true ∧ link.kind = .flow ∧ (g.removeLink link).onFlowDisconnected link = .ok g' ∨
        sideEffects = true ∧ link.kind = .value ∧ (g.removeLink link).onValueDisconnected link = .ok g') := by
  simp only [disconnect] at h
  split at h
  next hnone =>
    cases h
    exact .inl ⟨hnone, rfl⟩
  next hmem =>
    refine .inr ⟨by simpa using hmem, ?_⟩
    split at h
    next =>
      cases h
      exact .inl ⟨rfl, rfl⟩
    next hkind =>
      obtain ⟨g'', hg'', h⟩ := bind_eq_ok.1 h
      cases h
      exact .inr (.inl ⟨rfl, hkind, hg''⟩)
    next hkind =>
      obtain ⟨g'', hg'', h⟩ := bind_eq_ok.1 h
      cases h
      exact .inr (.inr ⟨rfl, hkind, hg''⟩)

theorem connect_editChanges (guards : Guards may) {a b : SlotRef} {sideEffects : Bool} {r : Except ConnectError Link}
    (h : g.connect a b sideEffects = .ok (g', r)) : EditChanges may g g' := by
  rcases connect_eq h with ⟨rfl, -⟩ | ⟨l, -, hl, ⟨-, rfl⟩ | ⟨-, -, hflow⟩ | ⟨-, -, hvalue⟩⟩
  · exact .refl
  · exact .single (.link hl)
  · exact .head (.link hl) (onFlowConnected_editMoves guards hflow).editChanges
  · exact .head (.link hl) (onValueConnected_editChanges guards hvalue)

theorem disconnect_editChanges (guards : Guards may) {sideEffects : Bool} {r : Except ConnectError Unit}
    (h : g.disconnect link sideEffects = .ok (g', r)) : EditChanges may g g' := by
  rcases disconnect_eq h with ⟨-, rfl⟩ | ⟨hl, ⟨-, rfl⟩ | ⟨-, -, hflow⟩ | ⟨-, -, hvalue⟩⟩
  · exact .refl
  · exact .single (.unlink hl)
  · exact .head (.unlink hl) (onFlowDisconnected_editMoves guards hflow).editChanges
  · exact .head (.unlink hl) (onValueDisconnected_eq hvalue).editChanges

theorem setValue_eq {value : Value} (h : g.setValue id value = .ok g') :
    g' = g.modifyNode id (·.modifyProperty 0 (·.setValue value)) := by
  obtain ⟨n, -, ⟨⟩⟩ := bind_eq_ok.1 h
  rfl

theorem setPropertyValue_eq {name : String} {value : Value} {found : Bool}
    (h : g.setPropertyValue id name value = .ok (found, g')) :
    g' = g ∨ ∃ i, g' = g.modifyNode id (·.modifyProperty i (·.setValue value)) := by
  obtain ⟨n, -, h⟩ := bind_eq_ok.1 h
  split at h
  next =>
    cases h
    exact .inl rfl
  next i _ =>
    cases h
    exact .inr ⟨i, rfl⟩

theorem setValue_editChanges {value : Value} (h : g.setValue id value = .ok g') : EditChanges may g g' := by
  rw [setValue_eq h]
  exact .single (.retouch id 0 (.value value))

theorem setPropertyValue_editChanges {name : String} {value : Value} {found : Bool}
    (h : g.setPropertyValue id name value = .ok (found, g')) : EditChanges may g g' := by
  rcases setPropertyValue_eq h with rfl | ⟨i, rfl⟩
  · exact .refl
  · exact .single (.retouch id i (.value value))

end

end Graph

end FlowGraph
