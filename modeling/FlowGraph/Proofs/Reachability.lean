import FlowGraph.Proofs.Edits
import FlowGraph.Proofs.Enrollment

/-!
# Reachable graphs

The graphs there are: empty programs over an empty arena, and what edits make of them. Identifiers may be taken
from the supply by others between two edits. All of them are well-formed.
-/

namespace FlowGraph

theorem Slot.Unused.roomKnown {fanIn : Nat} {slot : Slot} (h : slot.Unused fanIn) (hfanIn : 0 < fanIn) :
    slot.RoomKnown := by
  refine ⟨?_, ?_⟩
  · rw [h.adjacent]
    exact Nat.zero_le _
  · rw [h.adjacent, h.notFull]
    exact (decide_eq_true (h.capacity hfanIn)).symm

namespace Graph

inductive Reachable : Graph → Prop
  | create {ids : IdSupply} {library : Library} {config : Config} {g : Graph} :
      create {} ids library config = .ok g → Reachable g
  | edit {g g' : Graph} (e : Edit) : Reachable g → g.perform e = .ok g' → Reachable g'
  | issued {g : Graph} {ids : IdSupply} : Reachable g → g.ids.next ≤ ids.next → Reachable { g with ids }

variable {g g' : Graph}

theorem Reachable.edits {es : List Edit} (h : Reachable g) (hperform : es.foldlM perform g = .ok g') : Reachable g' :=
  foldlM_induction hperform h fun _ e _ _ hreachable hedit => .edit e hreachable hedit

theorem RecordsValid.spawn {build : NodeId → Node} {partitions : Option Nat} {s : Option ScopeId} {id : NodeId}
    (h : RecordsValid g) (hbuildsUnlinked : BuildsUnlinked g.config.fanIn build)
    (hspawn : g.spawn build partitions s = .ok (id, g')) :
    RecordsValid g' ∧ (RootIsEntryPoint g → RootIsEntryPoint g') ∧ ∃ n, g'.nodeAt? id = some n ∧
    n.kind = (build id).kind := by
  obtain ⟨n, ps, g₁, hnew, -, heditMoves⟩ := spawn_editMoves hbuildsUnlinked hspawn
  have hs := hnew.toAddsNode
  have hrecordsValid : RecordsValid g₁ := by
    refine h.addsNode hs hnew.unscoped fun slot hslot => ?_
    exact ⟨(hnew.unused slot hslot).adjacent, (hnew.unused slot hslot).roomKnown h.fanIn⟩
  have hchanges := heditMoves.moves.changes
  obtain ⟨n', hn', hskeleton⟩ := hchanges.allKept.node_of hnew.live
  exact ⟨hrecordsValid.steps hchanges.steps, fun hr => (hr.addsNode hs hnew.root).allKept hchanges.allKept, n', hn',
    (Node.of_skeleton hskeleton).1.trans hnew.kind⟩

structure HoldsNothing (g : Graph) : Prop where
  nodeAt? (x : NodeId) : g.nodeAt? x = none
  scopeAt? (t : ScopeId) : g.scopeAt? t = none
  links (k : SlotKind) : g.links k = []
  nodes : g.nodes = []

theorem HoldsNothing.recordsValid (h : HoldsNothing g) (hfanIn : 0 < g.config.fanIn) : RecordsValid g := by
  have hslots (r : SlotRef) : g.slotAt? r = none := by rw [slotAt?, h.nodeAt?, Option.bind_none]
  refine ⟨⟨⟨?_, ?_, ?_, ?_, ?_⟩, ?_, ?_⟩, ⟨?_, ?_⟩, ⟨?_, ?_⟩, ⟨?_, ?_⟩, hfanIn⟩ <;>
    simp [h.nodeAt?, h.scopeAt?, h.links, h.nodes, hslots]

theorem holdsNothing_empty (ids : IdSupply) (library : Library) (config : Config) :
    HoldsNothing { ids, library, config } := by
  refine ⟨?_, ?_, ?_, rfl⟩
  · exact fun x => Arena.item?_eq_none_of_fresh Std.ExtTreeMap.not_mem_empty
  · exact fun t => Arena.item?_eq_none_of_fresh Std.ExtTreeMap.not_mem_empty
  · intro k
    cases k <;> rfl

theorem create_eq_ok_iff {ids : IdSupply} {library : Library} {config : Config} : create {} ids library config = .ok g ↔
    0 < config.fanIn ∧ spawnEntryPoint { ids, library, config } = .ok g := by
  unfold create
  split
  next hzero => simp [hzero]
  next hfanIn => simp [Nat.pos_of_ne_zero hfanIn]

theorem create_eq {ids : IdSupply} {library : Library} {config : Config}
    (h : create {} ids library config = .ok g) :
    ∃ g₀ : Graph, HoldsNothing g₀ ∧ 0 < g₀.config.fanIn ∧ g₀.events = [] ∧ g₀.spawnEntryPoint = .ok g := by
  obtain ⟨hfanIn, hspawn⟩ := create_eq_ok_iff.1 h
  exact ⟨_, holdsNothing_empty ids library config, hfanIn, rfl, hspawn⟩

def cleared (g : Graph) (arena : Heap) : Graph :=
  { g with arena, nodes := [], valueLinks := [], flowLinks := [] }.emit .reset

/-- What is listed is all there is. -/
theorem NodesListed.holdsNothing_cleared (h : NodesListed g) {n m : Nat} {a₁ a₂ : Heap}
    (ha₁ : g.arena.destroyAll g.nodes = .ok (n, a₁)) (ha₂ : a₁.destroyAll g.scopes = .ok (m, a₂)) :
    HoldsNothing (g.cleared a₂) := by
  obtain ⟨hnodes, hscopes⟩ := Arena.item?_destroyAll ha₁
  obtain ⟨hscopes', hnodes'⟩ := Arena.item?_destroyAll ha₂
  refine ⟨?_, ?_, ?_, rfl⟩
  · intro x
    refine (hnodes' .node (by decide) x).trans ((hnodes x).trans ?_)
    split
    next => rfl
    next hx =>
      rw [h.mem_nodes_iff, Option.not_isSome_iff_eq_none] at hx
      exact hx
  · intro t
    refine (hscopes' t).trans ?_
    rw [hscopes .scope (by decide) t]
    split
    next => rfl
    next ht =>
      cases hsc : g.arena.item? t with
      | none => rfl
      | some sc => exact (ht (Arena.mem_handles hsc)).elim
  · intro k
    cases k <;> rfl

theorem reset_eq_cleared (h : NodesListed g) (hreset : g.reset = .ok g') :
    ∃ arena, HoldsNothing (g.cleared arena) ∧ (g.cleared arena).spawnEntryPoint = .ok g' := by
  simp only [Graph.reset] at hreset
  split at hreset
  next arena hdestroyed =>
    simp only [bind_eq_ok, pure_eq_ok] at hdestroyed hreset
    obtain ⟨_, rfl, hreset⟩ := hreset
    obtain ⟨⟨_, a₁⟩, ha₁, ⟨_, a₂⟩, ha₂, rfl⟩ := hdestroyed
    exact ⟨a₂, h.holdsNothing_cleared ha₁ ha₂, hreset⟩
  next => cases hreset

theorem reset_eq (h : NodesListed g) (hreset : g.reset = .ok g') :
    ∃ g₀ : Graph, HoldsNothing g₀ ∧ g₀.config = g.config ∧ g₀.events = g.events ++ [.reset] ∧
      g₀.spawnEntryPoint = .ok g' := by
  obtain ⟨arena, hholdsNothing, hspawn⟩ := reset_eq_cleared h hreset
  exact ⟨_, hholdsNothing, rfl, rfl, hspawn⟩

/-- Nothing but what is in view matters, and that no identifier is issued again. -/
theorem RecordsValid.congr (h : RecordsValid g) (hnodes : ∀ x, g'.nodeAt? x = g.nodeAt? x)
    (hscopes : ∀ t, g'.scopeAt? t = g.scopeAt? t) (hlinks : ∀ k, g'.links k = g.links k)
    (hlist : g'.nodes = g.nodes) (hids : g.ids.next ≤ g'.ids.next) (hconfig : g'.config = g.config) :
    RecordsValid g' := by
  have hslots (r : SlotRef) : g'.slotAt? r = g.slotAt? r := by rw [slotAt?, slotAt?, hnodes]
  refine ⟨⟨h.linksMatch.congr hslots hlinks, ?_, ?_⟩,
    h.scopesMatchNodes.sameFrames ⟨hscopes, fun x => by rw [hnodes]⟩, ⟨?_, ?_⟩,
    ⟨?_, ?_⟩, hconfig ▸ h.fanIn⟩
  · simp only [hnodes, hscopes]
    exact h.scopesOwned.internal
  · simp only [hnodes, hscopes]
    exact h.scopesOwned.home
  · simp only [hlist, hnodes]
    exact h.nodesListed.mem_nodes_iff
  · rw [hlist]
    exact h.nodesListed.nodup
  · intro t sc hsc
    exact Nat.lt_of_lt_of_le (h.idsIssued.scope ((hscopes t).symm.trans hsc)) hids
  · intro x n t hn ht
    exact Nat.lt_of_lt_of_le (h.idsIssued.membership ((hnodes x).symm.trans hn) ht) hids

theorem RecordsValid.spawnEntryPoint (h : RecordsValid g) (hspawn : g.spawnEntryPoint = .ok g') :
    RecordsValid g' ∧ RootIsEntryPoint g' := by
  simp only [Graph.spawnEntryPoint, bind_eq_ok, pure_eq_ok] at hspawn
  obtain ⟨⟨id, g₁⟩, hg₁, rfl⟩ := hspawn
  obtain ⟨hrecordsValid, -, n, hn, hkind⟩ := h.spawn (Node.buildsUnlinked_entryPoint _) hg₁
  exact ⟨hrecordsValid.congr (fun _ => rfl) (fun _ => rfl) (links_congr rfl rfl) rfl (Nat.le_refl _) rfl, n, hn, hkind⟩

theorem recordsValid_create {ids : IdSupply} {library : Library} {config : Config}
    (h : create {} ids library config = .ok g) : RecordsValid g ∧ RootIsEntryPoint g := by
  obtain ⟨g₀, hholdsNothing, hfanIn, -, hspawn⟩ := create_eq h
  exact (hholdsNothing.recordsValid hfanIn).spawnEntryPoint hspawn

theorem RecordsValid.reset (h : RecordsValid g) (hreset : g.reset = .ok g') :
    RecordsValid g' ∧ RootIsEntryPoint g' := by
  obtain ⟨g₀, hholdsNothing, hconfig, -, hspawn⟩ := reset_eq h.nodesListed hreset
  exact (hholdsNothing.recordsValid (hconfig ▸ h.fanIn)).spawnEntryPoint hspawn

structure WellFormed (g : Graph) : Prop extends RecordsValid g where
  rootIsEntryPoint : RootIsEntryPoint g

namespace WellFormed

theorem steps {may : Graph → NodeId → ScopeId → Prop} (h : WellFormed g) (hsteps : Steps may g g') : WellFormed g' :=
  ⟨h.toRecordsValid.steps hsteps, h.rootIsEntryPoint.steps hsteps⟩

theorem changes (h : WellFormed g) (hchanges : Changes always g g') : WellFormed g' := h.steps hchanges.steps

theorem destroy {id : NodeId} {sideEffects : Bool} (h : WellFormed g) (hdestroy : g.destroy id sideEffects = .ok g') :
    WellFormed g' :=
  h.steps (destroy_steps guards_always h.toLinksScopesValid hdestroy)

theorem spawn {build : NodeId → Node} {partitions : Option Nat} {s : Option ScopeId} {id : NodeId} (h : WellFormed g)
    (hbuildsUnlinked : BuildsUnlinked g.config.fanIn build) (hspawn : g.spawn build partitions s = .ok (id, g')) :
    WellFormed g' := by
  obtain ⟨hsound, hrootIsEntryPoint, -⟩ := h.toRecordsValid.spawn hbuildsUnlinked hspawn
  exact ⟨hsound, hrootIsEntryPoint h.rootIsEntryPoint⟩

theorem congr (h : WellFormed g) (hnodes : ∀ x, g'.nodeAt? x = g.nodeAt? x)
    (hscopes : ∀ t, g'.scopeAt? t = g.scopeAt? t) (hlinks : ∀ k, g'.links k = g.links k)
    (hlist : g'.nodes = g.nodes) (hids : g.ids.next ≤ g'.ids.next) (hconfig : g'.config = g.config)
    (hroot : g'.root = g.root) : WellFormed g' := by
  refine ⟨h.toRecordsValid.congr hnodes hscopes hlinks hlist hids hconfig, ?_⟩
  obtain ⟨n, hn, hkind⟩ := h.rootIsEntryPoint
  exact ⟨n, by rw [hroot, hnodes, hn], hkind⟩

theorem perform {e : Edit} (h : WellFormed g) (hperform : g.perform e = .ok g') : WellFormed g' := by
  cases perform_effect guards_always hperform with
  | changes _ hchanges => exact h.changes hchanges
  | create _ hbuildsUnlinked hspawn hchanges => exact (h.spawn hbuildsUnlinked hspawn).changes hchanges
  | block _ hbuildsUnlinked hspawn => exact h.spawn hbuildsUnlinked hspawn
  | undo hbuildsUnlinked hspawn hdestroy => exact (h.spawn hbuildsUnlinked hspawn).destroy hdestroy
  | destroy _ hchanges hdestroy => exact (h.changes hchanges).destroy hdestroy
  | reset hreset =>
    obtain ⟨hsound, hrootIsEntryPoint⟩ := h.toRecordsValid.reset hreset
    exact ⟨hsound, hrootIsEntryPoint⟩
  | drain =>
    exact h.congr (fun _ => rfl) (fun _ => rfl) (links_congr rfl rfl) rfl (Nat.le_refl _) rfl rfl

end WellFormed

theorem Reachable.wellFormed (h : Reachable g) : WellFormed g := by
  induction h with
  | create hcreate =>
    obtain ⟨hsound, hrootIsEntryPoint⟩ := recordsValid_create hcreate
    exact ⟨hsound, hrootIsEntryPoint⟩
  | edit e _ hperform ih => exact ih.perform hperform
  | issued _ hids ih =>
    exact ih.congr (fun _ => rfl) (fun _ => rfl) (links_congr rfl rfl) rfl hids rfl rfl

/-- A `while` without a condition, as the only thing a program does. -/
def idleLoop : Except Fault Graph := do
  let g ← create {} {} default {}
  let (loop, g) ← g.createConditional .whileLoop (← g.rootScope)
  match ← g.branchOut? g.root .onTrue, ← g.flowIn? loop with
  | some output, some input => return (← g.connect output input true).1
  | _, _ => return g

theorem idleLoop_reachable (h : idleLoop = .ok g) : Reachable g := by
  simp only [idleLoop, bind_eq_ok] at h
  obtain ⟨g₀, hcreate, s, -, ⟨loop, g₁⟩, hloop, output, -, input, -, h⟩ := h
  have h₁ : Reachable g₁ := .edit (.conditional .whileLoop s) (.create hcreate) (bind_eq_ok.2 ⟨_, hloop, rfl⟩)
  split at h
  next output input => exact .edit (.connect output input true) h₁ h
  next =>
    cases h
    exact h₁

end Graph

end FlowGraph
