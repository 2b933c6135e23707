import FlowGraph.Proofs.View
import Mathlib.Logic.Relation

/-!
# Moves between scopes

Every edit of the membership is a series of moves. A move puts one unscoped node into a scope or takes one out,
declares one variable that is in the scope already, or sets a head; what an edit has checked is a premise of
the move. Which nodes may enter which scopes is left open: nothing is asked of a node that has just been
created.
-/

namespace FlowGraph.Graph

open Relation

def place (g : Graph) (id : NodeId) (s : ScopeId) : Graph :=
  (g.modifyNode id ({ · with scope := some s })).modifyScope s (·.addChild id)

def displace (g : Graph) (id : NodeId) (s : ScopeId) : Graph :=
  (g.modifyNode id ({ · with scope := none })).modifyScope s (·.forget id)

def HasFlowPredecessor (g : Graph) (id : NodeId) : Prop :=
  ∃ r out, g.slotAt? r = some out ∧ out.kind = .flow ∧ out.isPrimary = true ∧ ∃ r' ∈ out.adjacent, r'.node = id

inductive Move (may : Graph → NodeId → ScopeId → Prop) : Graph → Graph → Prop
  | note {g : Graph} (e : Event) : Move may g (g.emit e)
  | enter {g : Graph} {id : NodeId} {s : ScopeId} {n : Node} {sc : Scope} : g.nodeAt? id = some n →
      n.scope = none → g.scopeAt? s = some sc → may g id s → Move may g (g.place id s)
  | leave {g : Graph} {id : NodeId} {s : ScopeId} {n : Node} {sc : Scope} : g.nodeAt? id = some n →
      n.scope = some s → g.scopeAt? s = some sc → Move may g (g.displace id s)
  | declare {g : Graph} {v : NodeId} {s : ScopeId} {n : Node} {sc : Scope} : g.scopeAt? s = some sc →
      v ∈ sc.children → g.nodeAt? v = some n → n.isVariable = true → g.findVariable s n.name true = .ok none →
      Move may g (g.modifyScope s (·.declare v))
  | lead {g : Graph} {s : ScopeId} {sc : Scope} {head : Option NodeId} : g.scopeAt? s = some sc →
      (∀ id ∈ head, (∃ n, g.nodeAt? id = some n ∧ n.scope = some s) ∧ g.HasFlowPredecessor id) →
      Move may g (g.modifyScope s ({ · with head }))

abbrev Moves (may : Graph → NodeId → ScopeId → Prop) : Graph → Graph → Prop := ReflTransGen (Move may)

def never (_ : Graph) (_ : NodeId) (_ : ScopeId) : Prop := False

def always (_ : Graph) (_ : NodeId) (_ : ScopeId) : Prop := True

structure GuardsAt (may : Graph → NodeId → ScopeId → Prop) (s : ScopeId) : Prop where
  of_check {g : Graph} {id : NodeId} : targetError? g id s = .ok none → may g id s
  kept {g g' : Graph} {id : NodeId} : Move never g g' → may g id s → may g' id s

def Guards (may : Graph → NodeId → ScopeId → Prop) : Prop := ∀ s, GuardsAt may s

theorem GuardsAt.kept_moves {may : Graph → NodeId → ScopeId → Prop} {s : ScopeId} (guards : GuardsAt may s)
    {g g' : Graph} {id : NodeId} (h : Moves never g g') (hmay : may g id s) : may g' id s := by
  induction h with
  | refl => exact hmay
  | tail _ hmove ih => exact guards.kept hmove ih

theorem guards_always : Guards always := fun _ => ⟨fun _ => trivial, fun _ _ => trivial⟩

section

variable {may may' : Graph → NodeId → ScopeId → Prop} {g g' : Graph} {id : NodeId} {s : ScopeId}

theorem Move.mono (hmay : ∀ g id s, may g id s → may' g id s) (h : Move may g g') : Move may' g g' := by
  cases h with
  | note e => exact .note e
  | enter hn hnone hsc hmay' => exact .enter hn hnone hsc (hmay _ _ _ hmay')
  | leave hn hscope hsc => exact .leave hn hscope hsc
  | declare hsc hv hn hvar hfree => exact .declare hsc hv hn hvar hfree
  | lead hsc hhead => exact .lead hsc hhead

theorem Moves.mono (hmay : ∀ g id s, may g id s → may' g id s) (h : Moves may g g') : Moves may' g g' :=
  ReflTransGen.mono (fun _ _ hmove => hmove.mono hmay) _ _ h

theorem Moves.of_never (h : Moves never g g') : Moves may g g' := h.mono fun _ _ _ => False.elim

theorem nodeAt?_place (id' : NodeId) : (g.place id s).nodeAt? id' =
    if id' = id then (g.nodeAt? id').map ({ · with scope := some s }) else g.nodeAt? id' := by
  rw [place, nodeAt?_modifyScope, nodeAt?_modifyNode]

theorem scopeAt?_place (s' : ScopeId) : (g.place id s).scopeAt? s' =
    if s' = s then (g.scopeAt? s').map (·.addChild id) else g.scopeAt? s' := by
  rw [place, scopeAt?_modifyScope, scopeAt?_modifyNode]

theorem nodeAt?_displace (id' : NodeId) : (g.displace id s).nodeAt? id' =
    if id' = id then (g.nodeAt? id').map ({ · with scope := none }) else g.nodeAt? id' := by
  rw [displace, nodeAt?_modifyScope, nodeAt?_modifyNode]

theorem scopeAt?_displace (s' : ScopeId) : (g.displace id s).scopeAt? s' =
    if s' = s then (g.scopeAt? s').map (·.forget id) else g.scopeAt? s' := by
  rw [displace, scopeAt?_modifyScope, scopeAt?_modifyNode]

theorem nodeAt?_place_self {n : Node} (hn : g.nodeAt? id = some n) :
    (g.place id s).nodeAt? id = some { n with scope := some s } := by
  rw [nodeAt?_place, if_pos rfl, hn]
  rfl

theorem scopeAt?_place_self {sc : Scope} (hsc : g.scopeAt? s = some sc) :
    (g.place id s).scopeAt? s = some (sc.addChild id) := by
  rw [scopeAt?_place, if_pos rfl, hsc]
  rfl

theorem nodeAt?_displace_self {n : Node} (hn : g.nodeAt? id = some n) :
    (g.displace id s).nodeAt? id = some { n with scope := none } := by
  rw [nodeAt?_displace, if_pos rfl, hn]
  rfl

theorem scopeAt?_displace_self {sc : Scope} (hsc : g.scopeAt? s = some sc) :
    (g.displace id s).scopeAt? s = some (sc.forget id) := by
  rw [scopeAt?_displace, if_pos rfl, hsc]
  rfl

theorem enter_moves {n : Node} (h : g.enter id s = .ok g') (hn : g.nodeAt? id = some n)
    (hnone : n.scope = none) (hmay : may g id s) : Moves may g g' := by
  simp only [enter, bind_eq_ok, node_eq_ok_iff, scope_eq_ok_iff] at h
  obtain ⟨n', hn', sc, hsc, h⟩ := h
  obtain rfl : n = n' := by
    rw [hn] at hn'
    exact Option.some.inj hn'
  have hplace : Moves may g (g.place id s) := .single (.enter hn hnone hsc hmay)
  split at h
  next hvar =>
    simp only [bind_eq_ok] at h
    obtain ⟨found, hfound, h⟩ := h
    cases found with
    | some v =>
      cases h
      exact hplace.tail (.note _)
    | none =>
      cases h
      have hchild : id ∈ (sc.addChild id).children := by simp [Scope.addChild]
      exact (hplace.tail (.declare (scopeAt?_place_self hsc) hchild (nodeAt?_place_self hn) hvar hfound)).tail (.note _)
  next hvar =>
    cases h
    exact hplace.tail (.note _)

theorem declareShadowed_moves {name : String} (h : g.declareShadowed s name = .ok g') : Moves never g g' := by
  simp only [declareShadowed, bind_eq_ok] at h
  obtain ⟨nested, -, h⟩ := h
  refine foldlM_induction h .refl ?_
  intro h₁ current _ h₂ hmoves hvisit
  simp only [bind_eq_ok] at hvisit
  obtain ⟨vs, hvs, hvisit⟩ := hvisit
  simp only [undeclared, bind_eq_ok, scope_eq_ok_iff] at hvs
  obtain ⟨sc, hsc, hvs⟩ := hvs
  let Same (h : Graph) : Prop := Moves never g h ∧ (∀ id, h.nodeAt? id = h₁.nodeAt? id) ∧
    ∃ sc', h.scopeAt? current = some sc' ∧ sc'.children = sc.children
  suffices Same h₂ from this.1
  refine foldlM_induction hvisit ⟨hmoves, fun _ => rfl, sc, hsc, rfl⟩ ?_
  rintro h v hv h' ⟨hmoves, hnodes, sc', hsc', hchildren⟩ hdeclare
  obtain ⟨hchild, hv⟩ := of_mem_filterM hvs hv
  simp only [bind_eq_ok, node_eq_ok_iff, pure_eq_ok, Bool.and_eq_true, beq_iff_eq] at hv
  obtain ⟨n, hn, ⟨hvar, hname⟩, -⟩ := hv
  simp only [declareUnlessInSight, bind_eq_ok] at hdeclare
  obtain ⟨found, hfound, hdeclare⟩ := hdeclare
  split at hdeclare
  next =>
    obtain rfl := pure_eq_ok.1 hdeclare
    exact ⟨hmoves, hnodes, sc', hsc', hchildren⟩
  next hfree =>
    obtain rfl := pure_eq_ok.1 hdeclare
    obtain rfl : found = none := by simpa using hfree
    refine ⟨hmoves.tail (.declare hsc' (hchildren ▸ hchild) (hnodes v ▸ hn) hvar (hname ▸ hfound)), ?_, ?_⟩
    · intro id
      rw [nodeAt?_modifyScope]
      exact hnodes id
    · exact ⟨sc'.declare v, by rw [scopeAt?_modifyScope, if_pos rfl, hsc']; rfl, hchildren⟩

theorem leave_moves {n : Node} (h : g.leave id s = .ok g') (hn : g.nodeAt? id = some n)
    (hscope : n.scope = some s) : Move never g (g.displace id s) ∧ Moves never (g.displace id s) g' := by
  simp only [leave, bind_eq_ok, node_eq_ok_iff, scope_eq_ok_iff] at h
  obtain ⟨n', hn', sc, hsc, h⟩ := h
  refine ⟨.leave hn hscope hsc, ?_⟩
  split at h
  next =>
    simp only [bind_eq_ok] at h
    obtain ⟨g'', hg'', h⟩ := h
    cases h
    exact (declareShadowed_moves hg'').tail (.note _)
  next =>
    cases h
    exact .single (.note _)

theorem Move.unscoped {n : Node} (h : Move never g g') (hn : g.nodeAt? id = some n) (hnone : n.scope = none) :
    g'.nodeAt? id = some n := by
  cases h with
  | note e => exact hn
  | enter _ _ _ hmay => exact hmay.elim
  | @leave id' s n' _ hn' hscope _ =>
    rw [nodeAt?_displace, if_neg]
    · exact hn
    · rintro rfl
      rw [hn] at hn'
      cases hn'
      rw [hnone] at hscope
      cases hscope
  | declare => rwa [nodeAt?_modifyScope]
  | lead => rwa [nodeAt?_modifyScope]

theorem Moves.unscoped {n : Node} (h : Moves never g g') (hn : g.nodeAt? id = some n) (hnone : n.scope = none) :
    g'.nodeAt? id = some n := by
  induction h with
  | refl => exact hn
  | tail _ hmove ih => exact hmove.unscoped ih hnone

theorem hasFlowPredecessor_of_branch {owner : Node} {o : NodeId} {position : Nat} {r : SlotRef}
    (ho : g.nodeAt? o = some owner) (hr : (owner.findSlotAt? .branchOut position).bind Slot.first? = some r) :
    g.HasFlowPredecessor r.node := by
  obtain ⟨out, hout, hr⟩ := Option.bind_eq_some_iff.1 hr
  obtain ⟨hout, hflags⟩ := List.mem_filter.1 (List.mem_of_find?_eq_some hout)
  obtain ⟨i, hi⟩ := List.getElem?_of_mem hout
  have htraits : out.kind = .flow ∧ out.isPrimary = true ∧ out.isBranch = true := by
    simpa [Slot.hasFlags, SlotFlags.contains, Slot.flags, SlotFlags.branchOut, and_assoc] using hflags
  exact ⟨⟨o, ⟨i⟩⟩, out, Option.bind_eq_some_iff.2 ⟨owner, ho, hi⟩, htraits.1, htraits.2.1, r,
    List.mem_of_mem_head? hr, rfl⟩

theorem resetHead_moves (h : g.resetHead s = .ok g') : Moves may g g' := by
  simp only [resetHead, bind_eq_ok, pure_eq_ok] at h
  obtain ⟨head, hhead, rfl⟩ := h
  simp only [headOf, bind_eq_ok, scope_eq_ok_iff] at hhead
  obtain ⟨sc, hsc, hhead⟩ := hhead
  refine .single (.lead hsc ?_)
  intro id hid
  split at hhead
  next =>
    cases hhead
    cases hid
  next =>
    simp only [bind_eq_ok, node_eq_ok_iff] at hhead
    obtain ⟨owner, howner, hhead⟩ := hhead
    split at hhead
    next =>
      cases hhead
      cases hid
    next r hr =>
      simp only [bind_eq_ok, node_eq_ok_iff] at hhead
      obtain ⟨n, hn, hhead⟩ := hhead
      split at hhead
      next hscope =>
        cases hhead
        cases hid
        exact ⟨⟨n, hn, hscope⟩, hasFlowPredecessor_of_branch howner hr⟩
      next =>
        cases hhead
        cases hid

end

end FlowGraph.Graph
