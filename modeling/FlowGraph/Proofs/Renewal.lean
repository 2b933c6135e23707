import FlowGraph.Proofs.Arena.Supply
import FlowGraph.Proofs.Inventory

/-!
# Starting over

A reset gives back what the inventory lists, and nothing else is there. What follows is the creation of an empty
program, by a supply that has gone on: the graph is a new one under other numbers, and the old numbers name nothing.
-/

namespace FlowGraph

section

variable (σ : Nat → Nat)

def Handle.rename {κ : Type} {kind : κ} (h : Handle kind) : Handle kind := ⟨σ h.raw⟩

def SlotRef.rename (r : SlotRef) : SlotRef := { r with node := r.node.rename σ }

def Slot.rename (slot : Slot) : Slot := { slot with adjacent := slot.adjacent.map (·.rename σ) }

def Node.rename (n : Node) : Node :=
  { n with
    id := n.id.rename σ
    slots := n.slots.map (·.rename σ)
    scope := n.scope.map (·.rename σ)
    internalScope := n.internalScope.map (·.rename σ) }

def ScopeKind.rename : ScopeKind → ScopeKind
  | internal => internal
  | .partition parent index => .partition (parent.rename σ) index

def Scope.rename (s : Scope) : Scope where
  id := s.id.rename σ
  owner := s.owner.rename σ
  kind := s.kind.rename σ
  partitions := s.partitions.map (·.rename σ)
  children := s.children.map (·.rename σ)
  declared := s.declared.map (·.rename σ)
  head := s.head.map (·.rename σ)

def Link.rename (l : Link) : Link := { l with tail := l.tail.rename σ, head := l.head.rename σ }

def Event.rename : Event → Event
  | nodeAdded node => nodeAdded (node.rename σ)
  | nodeRemoved node => nodeRemoved (node.rename σ)
  | linkAdded link => linkAdded (link.rename σ)
  | linkRemoved link => linkRemoved (link.rename σ)
  | nodeScoped node scope => nodeScoped (node.rename σ) (scope.map (·.rename σ))
  | reset => reset

theorem Node.rename_entryPoint (x : NodeId) (i : ScopeId) :
    Node.rename σ { Node.entryPoint x with internalScope := some i } =
      { Node.entryPoint (x.rename σ) with internalScope := some (i.rename σ) } := rfl

theorem Scope.rename_internal (s : ScopeId) (x : NodeId) : Scope.rename σ { id := s, owner := x, kind := .internal } =
    { id := s.rename σ, owner := x.rename σ, kind := .internal } := rfl

structure Graph.Renames (g g' : Graph) : Prop where
  injective : Function.Injective σ
  node {x : NodeId} {n : Node} : g.node x = .ok n → g'.node (x.rename σ) = .ok (n.rename σ)
  scope {s : ScopeId} {sc : Scope} : g.scope s = .ok sc → g'.scope (s.rename σ) = .ok (sc.rename σ)
  nodes : g'.nodes = g.nodes.map (·.rename σ)
  scopes : g'.scopes = g.scopes.map (·.rename σ)
  links (k : SlotKind) : g'.links k = (g.links k).map (·.rename σ)
  root : g'.root = g.root.rename σ
  library : g'.library = g.library
  config : g'.config = g.config

end

namespace Arena

variable {κ : Type} {Item : κ → Type} [DecidableEq κ] {k : κ} {a : Arena Item}

theorem exists_destroy {h : Handle k} (hkind : ∀ e, a.lookup? h.raw = some e → e.kind = k) :
    ∃ item b, a.destroy h = .ok (item, b) := by
  cases hlookup : a.lookup? h.raw with
  | none =>
    refine ⟨none, a, ?_⟩
    rw [destroy, (unresolved_of_lookup? hlookup).get]
    rfl
  | some e =>
    obtain ⟨kind, item⟩ := e
    obtain rfl := hkind _ hlookup
    exact ⟨_, _, (resolves_of_lookup? hlookup).destroy⟩

theorem exists_destroyAll {hs : List (Handle k)} (h : ∀ x ∈ hs, ∀ e, a.lookup? x.raw = some e → e.kind = k) :
    ∃ n b, a.destroyAll hs = .ok (n, b) := by
  induction hs generalizing a with
  | nil => exact ⟨0, a, rfl⟩
  | cons x rest ih =>
    obtain ⟨item, b, hdestroy⟩ := exists_destroy (h x List.mem_cons_self)
    have hrest : ∀ y ∈ rest, ∀ e, b.lookup? y.raw = some e → e.kind = k := by
      intro y hy e he
      apply h y (List.mem_cons_of_mem x hy)
      obtain ⟨-, rfl⟩ | ⟨_, -, -, rfl⟩ := of_destroy hdestroy
      · exact he
      · rw [lookup?_erase] at he
        split at he
        next => cases he
        next => exact he
    obtain ⟨n, c, hall⟩ := ih hrest
    rw [destroyAll_cons hdestroy, hall]
    exact ⟨_, _, rfl⟩

theorem fresh_of_item? {a : Heap} {id : Nat} (hnode : a.item? (⟨id⟩ : NodeId) = none)
    (hscope : a.item? (⟨id⟩ : ScopeId) = none) : id ∉ a.records := by
  rw [← lookup?_eq_none_iff]
  cases hlookup : a.lookup? id with
  | none => rfl
  | some e =>
    obtain ⟨kind, item⟩ := e
    cases kind with
    | node => cases hnode.symm.trans (item?_eq_some_iff.2 hlookup)
    | scope => cases hscope.symm.trans (item?_eq_some_iff.2 hlookup)

end Arena

namespace Graph

variable {g g' : Graph}

theorem exists_allocate_iff {k : Element} {build : Handle k → k.Item} (hfresh : g.ids.next ∉ g.arena.records) :
    (∃ x g', g.allocate k build = .ok (x, g')) ↔ g.ids.next < IdSupply.limit := by
  simp only [allocate, Arena.create, IdSupply.issue]
  constructor
  · rintro ⟨x, g', h⟩
    split at h
    next hcreated =>
      split at hcreated
      next hlt => exact hlt
      next => cases hcreated
    next => cases h
  · intro hlt
    simp [hlt, hfresh]

theorem HoldsNothing.exists_spawn_iff (h : HoldsNothing g) :
    (∃ g', g.spawnEntryPoint = .ok g') ↔ g.ids.next + 1 < IdSupply.limit := by
  have hfresh : g.ids.next ∉ g.arena.records := Arena.fresh_of_item? (h.nodeAt? _) (h.scopeAt? _)
  have hfresh₁ {id : NodeId} {g₁ : Graph} (hallocate : g.allocate .node Node.entryPoint = .ok (id, g₁)) :
      g₁.ids.next ∉ g₁.arena.records ∧ g₁.ids.next = g.ids.next + 1 := by
    obtain ⟨-, hnodes, hscopes, -, hraw, hnext⟩ := allocate_eq hallocate
    refine ⟨Arena.fresh_of_item? ?_ ?_, hnext⟩
    · rw [hnodes, if_neg]
      · exact h.nodeAt? _
      · intro he
        have := congrArg Handle.raw he
        simp only at this
        omega
    · rw [hscopes .scope (by decide)]
      exact h.scopeAt? _
  constructor
  · rintro ⟨g', hspawn⟩
    simp only [spawnEntryPoint, bind_eq_ok, pure_eq_ok] at hspawn
    obtain ⟨⟨id, g₁⟩, hg₁, rfl⟩ := hspawn
    obtain ⟨g₂, g₃, hallocate, ⟨⟨⟩, -⟩ | ⟨_, ⟨⟩, hblock⟩, -⟩ := spawn_steps hg₁
    obtain ⟨hfree, hnext⟩ := hfresh₁ hallocate
    simp only [addInternalScope, bind_eq_ok] at hblock
    obtain ⟨⟨i, g₄⟩, hi, -⟩ := hblock
    rw [← hnext]
    exact (exists_allocate_iff hfree).1 ⟨i, g₄, hi⟩
  · intro hroom
    obtain ⟨id, g₁, hallocate⟩ : ∃ id g₁, g.allocate .node Node.entryPoint = .ok (id, g₁) :=
      (exists_allocate_iff hfresh).2 (Nat.lt_of_succ_lt hroom)
    obtain ⟨hfree, hnext⟩ := hfresh₁ hallocate
    obtain ⟨i, g₂, hi⟩ :
        ∃ i g₂, g₁.allocate .scope (fun i => { id := i, owner := id, kind := .internal }) = .ok (i, g₂) :=
      (exists_allocate_iff hfree).2 (hnext ▸ hroom)
    have hblock : g₁.addInternalScope id 0 = .ok (g₂.modifyNode id ({ · with internalScope := some i })) := by
      rw [addInternalScope, hi]
      rfl
    refine ⟨{ (g₂.modifyNode id ({ · with internalScope := some i })).enlist id with root := id }, ?_⟩
    simp only [spawnEntryPoint, spawn, hallocate, ok_bind, hblock]
    rfl

theorem WellFormed.reset_eq (hg : WellFormed g) : ∃ arena, HoldsNothing (g.cleared arena) ∧
    g.reset = (g.cleared arena).spawnEntryPoint := by
  have hnodes : ∀ x ∈ g.nodes, ∀ e, g.arena.lookup? x.raw = some e → e.kind = .node := by
    intro x hx e he
    obtain ⟨n, hn⟩ := Option.isSome_iff_exists.1 (hg.nodesListed.mem_nodes_iff.1 hx)
    cases (Arena.item?_eq_some_iff.1 hn).symm.trans he
    rfl
  obtain ⟨n, a₁, ha₁⟩ := Arena.exists_destroyAll hnodes
  have hscopes : ∀ s ∈ g.scopes, ∀ e, a₁.lookup? s.raw = some e → e.kind = .scope := by
    intro s hs e he
    obtain ⟨sc, hsc⟩ := mem_scopes_iff.1 hs
    have hkept : a₁.item? s = some sc := ((Arena.item?_destroyAll ha₁).2 .scope (by decide) s).trans hsc
    cases (Arena.item?_eq_some_iff.1 hkept).symm.trans he
    rfl
  obtain ⟨m, a₂, ha₂⟩ := Arena.exists_destroyAll hscopes
  refine ⟨a₂, hg.nodesListed.holdsNothing_cleared ha₁ ha₂, ?_⟩
  simp only [reset, ha₁, ha₂, ok_bind]
  rfl

def renumber (a b x : Nat) : Nat :=
  if x = a then b else if x = a + 1 then b + 1 else a + b + 2 + x

theorem renumber_injective (a b : Nat) : Function.Injective (renumber a b) := by
  intro x y h
  unfold renumber at h
  split at h <;> split at h <;> (try split at h) <;> (try split at h) <;> omega

theorem renumber_self (a b : Nat) : renumber a b a = b := if_pos rfl

theorem renumber_succ (a b : Nat) : renumber a b (a + 1) = b + 1 := by
  rw [renumber, if_neg (Nat.succ_ne_self a), if_pos rfl]

namespace EntryPointAlone

variable {g₀ g₀' : Graph}

theorem scopes_eq (h : EntryPointAlone g₀ g) : g.scopes = [⟨g₀.ids.next + 1⟩] := by
  rw [← List.perm_singleton]
  apply (List.perm_ext_iff_of_nodup (g.arena.nodup_handles .scope) (List.nodup_singleton _)).2
  intro s
  rw [List.mem_singleton]
  refine mem_scopes_iff.trans ?_
  rw [h.scopeAt?]
  split
  next hs => simp [hs]
  next hs => simp [hs]

theorem renames (h : EntryPointAlone g₀ g) (h' : EntryPointAlone g₀' g') (hlibrary : g₀'.library = g₀.library)
    (hconfig : g₀'.config = g₀.config) : Renames (renumber g₀.ids.next g₀'.ids.next) g g' := by
  have hself : (⟨g₀'.ids.next⟩ : NodeId) = Handle.rename (renumber g₀.ids.next g₀'.ids.next) ⟨g₀.ids.next⟩ :=
    Handle.ext (renumber_self _ _).symm
  have hsucc : (⟨g₀'.ids.next + 1⟩ : ScopeId) = Handle.rename (renumber g₀.ids.next g₀'.ids.next) ⟨g₀.ids.next + 1⟩ :=
    Handle.ext (renumber_succ _ _).symm
  constructor
  · exact renumber_injective _ _
  · intro x n hn
    have hn := node_eq_ok_iff.1 hn
    rw [h.nodeAt?] at hn
    split at hn
    next hx =>
      subst hx
      cases hn
      rw [Node.rename_entryPoint, ← hself, ← hsucc, node_eq_ok_iff, h'.nodeAt?, if_pos rfl]
    next => cases hn
  · intro s sc hsc
    have hsc := scope_eq_ok_iff.1 hsc
    rw [h.scopeAt?] at hsc
    split at hsc
    next hs =>
      subst hs
      cases hsc
      rw [Scope.rename_internal, ← hself, ← hsucc, scope_eq_ok_iff, h'.scopeAt?, if_pos rfl]
    next => cases hsc
  · rw [h.nodes, h'.nodes, hself]
    rfl
  · rw [h.scopes_eq, h'.scopes_eq, hsucc]
    rfl
  · intro k
    rw [h.links, h'.links]
    rfl
  · rw [h.root, h'.root, hself]
  · rw [h.library, h'.library, hlibrary]
  · rw [h.config, h'.config, hconfig]

end EntryPointAlone

/-- A reset makes a graph that is as good as new, and says so. Nothing that was issued before resolves. -/
structure Renewed (g g' : Graph) : Prop where
  anew {ids : IdSupply} {f : Graph} : create {} ids g.library g.config = .ok f →
    ∃ σ, Renames σ f g' ∧ g'.events = g.events ++ .reset :: f.events.map (·.rename σ)
  node_gone {x : NodeId} : x.raw < g.ids.next → g'.node? x = .ok none ∧ g'.contains x = false
  scope_gone {s : ScopeId} : s.raw < g.ids.next → g'.scope? s = .ok none

theorem EntryPointAlone.node?_eq_none {g₀ : Graph} {x : NodeId} (h : EntryPointAlone g₀ g) (hx : x.raw < g₀.ids.next) :
    g.nodeAt? x = none := by
  rw [h.nodeAt?, if_neg]
  rintro rfl
  exact Nat.lt_irrefl _ hx

theorem EntryPointAlone.scope?_eq_none {g₀ : Graph} {s : ScopeId} (h : EntryPointAlone g₀ g)
    (hs : s.raw < g₀.ids.next) :
    g.scopeAt? s = none := by
  rw [h.scopeAt?, if_neg]
  rintro rfl
  exact Nat.not_succ_lt_self hs

theorem lookup?_eq_none {id : Nat} (hnode : g.nodeAt? ⟨id⟩ = none) (hscope : g.scopeAt? ⟨id⟩ = none) :
    g.arena.lookup? id = none :=
  Arena.lookup?_eq_none_iff.2 (Arena.fresh_of_item? hnode hscope)

theorem WellFormed.renewed (hg : WellFormed g) (h : g.reset = .ok g') : Renewed g g' := by
  obtain ⟨arena, hholdsNothing, hspawn⟩ := reset_eq_cleared hg.nodesListed h
  have hentryPointAlone := hholdsNothing.entryPointAlone hspawn
  have hgone {id : Nat} (hid : id < g.ids.next) : g'.arena.lookup? id = none :=
    lookup?_eq_none (hentryPointAlone.node?_eq_none hid) (hentryPointAlone.scope?_eq_none hid)
  constructor
  · intro ids f hcreate
    have hfresh := (holdsNothing_empty ids g.library g.config).entryPointAlone (create_eq_ok_iff.1 hcreate).2
    refine ⟨_, hfresh.renames hentryPointAlone rfl rfl, ?_⟩
    rw [hentryPointAlone.events, hfresh.events]
    show (g.events ++ [.reset]) ++ [.nodeAdded ⟨g.ids.next⟩] = g.events ++ [.reset,
        .nodeAdded ⟨renumber ids.next _ ids.next⟩]
    rw [List.append_assoc, renumber_self]
    rfl
  · intro x hx
    have hunresolved : g'.arena.Unresolved x := Arena.unresolved_of_lookup? (hgone hx)
    constructor
    · rw [node?, hunresolved.get]
    · exact hunresolved.contains
  · intro s hs
    have hunresolved : g'.arena.Unresolved s := Arena.unresolved_of_lookup? (hgone hs)
    rw [scope?, hunresolved.get]

/-- A reachable graph holds what its nodes call for, and a reset starts over. It has to find two numbers. -/
theorem inventory_of_reachable (hr : Reachable g) : Inventory g ∧ (∃ f, create {} {} g.library g.config = .ok f) ∧
    ((∃ g', g.reset = .ok g') ↔ g.ids.next + 1 < IdSupply.limit) ∧ ∀ g', g.reset = .ok g' → Renewed g g' := by
  have hg := hr.wellFormed
  obtain ⟨arena, hholdsNothing, hreset⟩ := hg.reset_eq
  refine ⟨hr.inventory, ?_, ?_, fun g' => hg.renewed⟩
  · obtain ⟨f, hspawn⟩ :=
        (holdsNothing_empty {} g.library g.config).exists_spawn_iff.2 (show 2 < IdSupply.limit by decide)
    exact ⟨f, create_eq_ok_iff.2 ⟨hg.fanIn, hspawn⟩⟩
  · rw [hreset]
    exact hholdsNothing.exists_spawn_iff

theorem inventory_idleLoop : ∃ g g', idleLoop = .ok g ∧ Reachable g ∧ Inventory g ∧ g.nodes = [⟨1⟩, ⟨3⟩] ∧
    g.arena.live = 6 ∧ g.reset = .ok g' ∧ Renewed g g' ∧ g'.nodes = [⟨7⟩] ∧ g'.arena.live = 2 := by
  have h : (do
      let g ← idleLoop
      let g' ← g.reset
      if ¬(g.nodes = [⟨1⟩, ⟨3⟩] ∧ g.arena.live = 6 ∧ g'.nodes = [⟨7⟩] ∧ g'.arena.live = 2) then throw .endless
      return : Except Fault Unit).isOk = true := by decide +kernel
  obtain ⟨_, h⟩ := exists_of_isOk h
  simp only [bind_eq_ok] at h
  obtain ⟨g, hg, g', hreset, h⟩ := h
  split at h
  next => obtain ⟨_, ⟨⟩, -⟩ := h
  next hfacts =>
    obtain ⟨hnodes, hlive, hnodes', hlive'⟩ := not_not.1 hfacts
    have hr := idleLoop_reachable hg
    obtain ⟨hinventory, -, -, hrenewed⟩ := inventory_of_reachable hr
    exact ⟨g, g', hg, hr, hinventory, hnodes, hlive, hreset, hrenewed g' hreset, hnodes', hlive'⟩

end Graph

end FlowGraph
