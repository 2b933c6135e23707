import FlowGraph.Graph.Merging
import FlowGraph.Proofs.Arena.Items
import FlowGraph.Proofs.Outcome

/-!
# The view of a graph

A graph is seen as two finite maps, from handles to nodes and to scopes. A read that gives a result gives what
the maps hold, and each elementary change of a graph is an equation about each map.
-/

namespace FlowGraph.Graph

variable {g : Graph} {id : NodeId} {s : ScopeId}

def nodeAt? (g : Graph) (id : NodeId) : Option Node := g.arena.item? id

def scopeAt? (g : Graph) (s : ScopeId) : Option Scope := g.arena.item? s

def slotAt? (g : Graph) (r : SlotRef) : Option Slot := (g.nodeAt? r.node).bind (·.slot? r.slot)

theorem nodeAt?_of_node? {n : Option Node} (h : g.node? id = .ok n) : g.nodeAt? id = n := by
  unfold node? at h
  split at h
  next m hm =>
    cases h
    exact Arena.item?_of_get hm
  next => cases h

theorem scopeAt?_of_scope? {sc : Option Scope} (h : g.scope? s = .ok sc) : g.scopeAt? s = sc := by
  unfold scope? at h
  split at h
  next m hm =>
    cases h
    exact Arena.item?_of_get hm
  next => cases h

theorem node?_eq_some_iff {n : Node} : g.node? id = .ok (some n) ↔ g.nodeAt? id = some n := by
  constructor
  · exact nodeAt?_of_node?
  · intro h
    rw [node?, Arena.get_eq_some_iff.2 h]

theorem scope?_eq_some_iff {sc : Scope} : g.scope? s = .ok (some sc) ↔ g.scopeAt? s = some sc := by
  constructor
  · exact scopeAt?_of_scope?
  · intro h
    rw [scope?, Arena.get_eq_some_iff.2 h]

@[simp]
theorem node_eq_ok_iff {n : Node} : g.node id = .ok n ↔ g.nodeAt? id = some n := by
  rw [← node?_eq_some_iff, node, bind_eq_ok]
  constructor
  · rintro ⟨_ | m, hm, h⟩
    · cases h
    · cases h
      exact hm
  · intro h
    exact ⟨some n, h, rfl⟩

@[simp]
theorem scope_eq_ok_iff {sc : Scope} : g.scope s = .ok sc ↔ g.scopeAt? s = some sc := by
  rw [← scope?_eq_some_iff, scope, bind_eq_ok]
  constructor
  · rintro ⟨_ | m, hm, h⟩
    · cases h
    · cases h
      exact hm
  · intro h
    exact ⟨some sc, h, rfl⟩

theorem contains_iff : g.contains id = true ↔ (g.nodeAt? id).isSome := Arena.contains_iff

theorem slotAt?_of_slot? {r : SlotRef} {slot : Option Slot} (h : g.slot? r = .ok slot) :
    g.slotAt? r = slot := by
  rw [slot?, bind_eq_ok] at h
  obtain ⟨n, hn, h⟩ := h
  rw [slotAt?, nodeAt?_of_node? hn]
  exact pure_eq_ok.1 h

theorem slot?_eq_some_iff {r : SlotRef} {slot : Slot} : g.slot? r = .ok (some slot) ↔ g.slotAt? r = some slot := by
  constructor
  · exact slotAt?_of_slot?
  · intro h
    obtain ⟨n, hn, hslot⟩ := Option.bind_eq_some_iff.1 h
    rw [slot?, node?_eq_some_iff.2 hn]
    exact congrArg Except.ok hslot

theorem nodeAt?_modifyNode (f : Node → Node) (id' : NodeId) :
    (g.modifyNode id f).nodeAt? id' = if id' = id then (g.nodeAt? id').map f else g.nodeAt? id' :=
  Arena.item?_update id'

@[simp]
theorem scopeAt?_modifyNode (f : Node → Node) (s : ScopeId) : (g.modifyNode id f).scopeAt? s = g.scopeAt? s :=
  Arena.item?_update_ne (by decide) s

theorem scopeAt?_modifyScope (f : Scope → Scope) (s' : ScopeId) :
    (g.modifyScope s f).scopeAt? s' = if s' = s then (g.scopeAt? s').map f else g.scopeAt? s' :=
  Arena.item?_update s'

@[simp]
theorem nodeAt?_modifyScope (f : Scope → Scope) (id : NodeId) :
    (g.modifyScope s f).nodeAt? id = g.nodeAt? id :=
  Arena.item?_update_ne (by decide) id

@[simp]
theorem nodeAt?_emit (e : Event) (id : NodeId) : (g.emit e).nodeAt? id = g.nodeAt? id := rfl

@[simp]
theorem nodeAt?_modifyLinks (kind : SlotKind) (f : List Link → List Link) (id : NodeId) :
    (g.modifyLinks kind f).nodeAt? id = g.nodeAt? id := by
  cases kind <;> rfl

@[simp]
theorem scopeAt?_modifyLinks (kind : SlotKind) (f : List Link → List Link) (s : ScopeId) :
    (g.modifyLinks kind f).scopeAt? s = g.scopeAt? s := by
  cases kind <;> rfl

theorem slotAt?_modifySlot (r r' : SlotRef) (f : Slot → Slot) :
    (g.modifySlot r f).slotAt? r' = if r' = r then (g.slotAt? r').map f else g.slotAt? r' := by
  obtain ⟨id, ⟨i⟩⟩ := r
  obtain ⟨id', ⟨i'⟩⟩ := r'
  simp only [slotAt?, modifySlot, nodeAt?_modifyNode, SlotRef.mk.injEq, SlotId.mk.injEq]
  by_cases hid : id' = id
  · subst hid
    cases g.nodeAt? id' with
    | none => simp
    | some n =>
      simp only [if_true, Option.map_some, Option.bind_some, Node.modifySlot, Node.slot?,
        List.getElem?_modify, true_and]
      by_cases hi : i = i'
      · simp [hi]
      · simp [hi, Ne.symm hi]
  · simp [hid]

end FlowGraph.Graph
