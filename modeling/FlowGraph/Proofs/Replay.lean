import FlowGraph.Proofs.Reachability
import Mathlib.Logic.Function.Basic

/-!
# Replaying events

Whoever follows the events of a graph from its creation on, however they were drained, sees its nodes, its links,
the scope of every node and the content of every scope, each in order.
-/

namespace FlowGraph

structure Canvas where
  nodes : List NodeId := []
  links : SlotKind → List Link := fun _ => []
  scope : NodeId → Option ScopeId := fun _ => none
  children : ScopeId → List NodeId := fun _ => []

namespace Canvas

def draw (c : Canvas) : Event → Canvas
  | .nodeAdded n => { c with nodes := c.nodes ++ [n] }
  | .nodeRemoved n => { c with nodes := c.nodes.filter (· != n) }
  | .linkAdded l => { c with links := Function.update c.links l.kind (c.links l.kind ++ [l]) }
  | .linkRemoved l => { c with links := Function.update c.links l.kind ((c.links l.kind).erase l) }
  | .nodeScoped n (some s) =>
    { c with
      scope := Function.update c.scope n (some s)
      children := Function.update c.children s (c.children s ++ [n]) }
  | .nodeScoped n none =>
    match c.scope n with
    | none => c
    | some s =>
      { c with
        scope := Function.update c.scope n none
        children := Function.update c.children s ((c.children s).filter (· != n)) }
  | .reset => {}

def replay (events : List Event) : Canvas := events.foldl draw {}

/-- The canvas agrees with the graph. -/
structure Shows (c : Canvas) (g : Graph) : Prop where
  nodes : c.nodes = g.nodes
  links : ∀ k, c.links k = g.links k
  scope : ∀ id n, g.node id = .ok n → c.scope id = n.scope
  children : ∀ s sc, g.scope s = .ok sc → c.children s = sc.children

end Canvas

namespace Graph

variable {may : Graph → NodeId → ScopeId → Prop} {g g' : Graph} {id : NodeId} {s : ScopeId} {c : Canvas}

def scopeOf? (g : Graph) (id : NodeId) : Option ScopeId := (g.nodeAt? id).bind (·.scope)

structure CanvasMatches (g : Graph) (c : Canvas) : Prop where
  nodes : c.nodes = g.nodes
  links : ∀ k, c.links k = g.links k
  scope : ∀ x, c.scope x = g.scopeOf? x
  children : ∀ t sc, g.scopeAt? t = some sc → c.children t = sc.children
  unborn : ∀ t : ScopeId, g.ids.next ≤ t.raw → c.children t = [] ∧ g.scopeAt? t = none

theorem CanvasMatches.shows (h : CanvasMatches g c) : c.Shows g := by
  refine ⟨h.nodes, h.links, fun id n hn => ?_, fun s sc hsc => h.children s sc (scope_eq_ok_iff.1 hsc)⟩
  rw [h.scope, scopeOf?, node_eq_ok_iff.1 hn, Option.bind_some]

def EventsReplay (g g' : Graph) : Prop :=
  ∃ events, g'.events = g.events ++ events ∧ ∀ c, CanvasMatches g c → CanvasMatches g' (events.foldl Canvas.draw c)

namespace EventsReplay

theorem refl (g : Graph) : EventsReplay g g := ⟨[], (List.append_nil _).symm, fun _ => id⟩

theorem trans {g₁ g₂ g₃ : Graph} (h : EventsReplay g₁ g₂) (h' : EventsReplay g₂ g₃) : EventsReplay g₁ g₃ := by
  obtain ⟨events, hevents, hcanvasMatches⟩ := h
  obtain ⟨events', hevents', hcanvasMatches'⟩ := h'
  refine ⟨events ++ events', ?_, fun c hc => ?_⟩
  · rw [hevents', hevents, List.append_assoc]
  · rw [List.foldl_append]
    exact hcanvasMatches' _ (hcanvasMatches c hc)

theorem silent (hnodes : ∀ x, g'.scopeOf? x = g.scopeOf? x)
    (hscopes : ∀ t, (g'.scopeAt? t).map Scope.children = (g.scopeAt? t).map Scope.children)
    (hframe : g' = { g with arena := g'.arena }) : EventsReplay g g' := by
  refine ⟨[], by rw [hframe, List.append_nil], fun c hc => ?_⟩
  refine ⟨?_, ?_, ?_, ?_, ?_⟩
  · rw [hframe]
    exact hc.nodes
  · intro k
    rw [hframe]
    cases k
    · exact hc.links .value
    · exact hc.links .flow
  · intro x
    rw [hnodes]
    exact hc.scope x
  · intro t sc' hsc'
    have ht := hscopes t
    rw [hsc', Option.map_some, eq_comm, Option.map_eq_some_iff] at ht
    obtain ⟨sc, hsc, heq⟩ := ht
    exact (hc.children t sc hsc).trans heq
  · intro t ht
    rw [hframe] at ht
    obtain ⟨hempty, hnone⟩ := hc.unborn t ht
    refine ⟨hempty, ?_⟩
    have ht := hscopes t
    rwa [hnone, Option.map_none, Option.map_eq_none_iff] at ht

end EventsReplay

theorem DeclarationsDiffer.eventsReplay (h : DeclarationsDiffer g g') : EventsReplay g g' := by
  refine .silent (fun x => by rw [scopeOf?, scopeOf?, h.nodeAt?]) (fun t => ?_) h.frame
  have ht := congrArg (Option.map Scope.children) (h.scopeAt? t)
  rwa [Option.map_map, Option.map_map] at ht

theorem CanvasMatches.rescope {sc : Scope} {scope : Option ScopeId} {f : List NodeId → List NodeId}
    (hc : CanvasMatches g c) (hsc : g.scopeAt? s = some sc)
    (hnodes : ∀ x, g'.scopeOf? x = if x = id then scope else g.scopeOf? x)
    (hscopes : ∀ t, (g'.scopeAt? t).map Scope.children = if t = s then (g.scopeAt? t).map
      (f ·.children) else (g.scopeAt? t).map Scope.children)
    (hframe : g' = { g with arena := g'.arena, events := g'.events }) :
    CanvasMatches g' { c with
      scope := Function.update c.scope id scope
      children := Function.update c.children s (f (c.children s)) } := by
  refine ⟨?_, ?_, ?_, ?_, ?_⟩
  · rw [hframe]
    exact hc.nodes
  · intro k
    rw [hframe]
    exact (hc.links k).trans (links_congr rfl rfl k)
  · intro x
    show Function.update c.scope id scope x = g'.scopeOf? x
    rw [hnodes, Function.update_apply]
    split
    next => rfl
    next => exact hc.scope x
  · intro t sc' hsc'
    have ht := hscopes t
    rw [hsc', Option.map_some] at ht
    show Function.update c.children s (f (c.children s)) t = sc'.children
    rw [Function.update_apply]
    split at ht
    next hts =>
      rw [hts, hsc, Option.map_some, ← hc.children s sc hsc] at ht
      rw [if_pos hts]
      exact (Option.some.inj ht).symm
    next hts =>
      rw [eq_comm, Option.map_eq_some_iff] at ht
      obtain ⟨sc₀, hsc₀, heq⟩ := ht
      rw [if_neg hts, ← heq]
      exact hc.children t sc₀ hsc₀
  · intro t ht
    rw [hframe] at ht
    obtain ⟨hempty, hnone⟩ := hc.unborn t ht
    have hts : t ≠ s := by
      rintro rfl
      cases hnone.symm.trans hsc
    refine ⟨?_, ?_⟩
    · show Function.update c.children s (f (c.children s)) t = []
      rw [Function.update_of_ne hts, hempty]
    · have ht := hscopes t
      rwa [if_neg hts, hnone, Option.map_none, Option.map_eq_none_iff] at ht

theorem eventsReplay_place {n : Node} {sc : Scope} (hn : g.nodeAt? id = some n) (hsc : g.scopeAt? s = some sc) :
    EventsReplay g ((g.place id s).emit (.nodeScoped id (some s))) := by
  refine ⟨[.nodeScoped id (some s)], rfl, fun c hc => hc.rescope (f := (· ++ [id])) hsc ?_ ?_ rfl⟩
  · intro x
    rw [scopeOf?, nodeAt?_emit, nodeAt?_place]
    split
    next hx => rw [hx, hn, Option.map_some, Option.bind_some]
    next => rfl
  · intro t
    refine (congrArg (Option.map Scope.children) (scopeAt?_place t)).trans ?_
    split
    next =>
      rw [Option.map_map]
      rfl
    next => rfl

theorem eventsReplay_displace {n : Node} {sc : Scope} (hn : g.nodeAt? id = some n) (hscope : n.scope = some s)
    (hsc : g.scopeAt? s = some sc) : EventsReplay g ((g.displace id s).emit (.nodeScoped id none)) := by
  refine ⟨[.nodeScoped id none], rfl, fun c hc => ?_⟩
  have hs : c.scope id = some s := by rw [hc.scope, scopeOf?, hn, Option.bind_some, hscope]
  rw [List.foldl_cons, List.foldl_nil, Canvas.draw, hs]
  refine hc.rescope (f := (·.filter (· != id))) hsc ?_ ?_ rfl
  · intro x
    rw [scopeOf?, nodeAt?_emit, nodeAt?_displace]
    split
    next hx => rw [hx, hn, Option.map_some, Option.bind_some]
    next => rfl
  · intro t
    refine (congrArg (Option.map Scope.children) (scopeAt?_displace t)).trans ?_
    split
    next =>
      rw [Option.map_map]
      rfl
    next => rfl

theorem eventsReplay_head (s : ScopeId) (head : Option NodeId) :
    EventsReplay g (g.modifyScope s ({ · with head })) := by
  refine .silent (fun x => by rw [scopeOf?, scopeOf?, nodeAt?_modifyScope]) (fun t => ?_) rfl
  rw [scopeAt?_modifyScope]
  split
  next =>
    rw [Option.map_map]
    rfl
  next => rfl

theorem EditMove.eventsReplay (h : EditMove may g g') : EventsReplay g g' := by
  cases h with
  | enter h =>
    obtain ⟨hn, -, -, henter⟩ := h
    obtain ⟨hdeclarationsDiffer, sc, hsc⟩ := enter_eq henter
    exact (eventsReplay_place hn hsc).trans hdeclarationsDiffer.eventsReplay
  | leave h =>
    obtain ⟨hn, hscope, hleave⟩ := h
    obtain ⟨hdeclarationsDiffer, sc, hsc⟩ := leave_eq hleave
    exact (eventsReplay_displace hn hscope hsc).trans hdeclarationsDiffer.eventsReplay
  | lead h =>
    simp only [resetHead, bind_eq_ok, pure_eq_ok] at h
    obtain ⟨head, -, rfl⟩ := h
    exact eventsReplay_head _ head
  | unlead => exact eventsReplay_head _ none

theorem SameFrames.scopeOf? (h : SameFrames g g') (x : NodeId) : g'.scopeOf? x = g.scopeOf? x := by
  have hx := congrArg (Option.bind · Node.scope) (h.nodes x)
  rw [Option.bind_map, Option.bind_map] at hx
  exact hx

theorem CanvasMatches.relink {k : SlotKind} {f : List Link → List Link} (hc : CanvasMatches g c) (h : SameFrames g g')
    (hlinks : ∀ k', g'.links k' = if k' = k then f (g.links k') else g.links k') (hnodes : g'.nodes = g.nodes)
    (hids : g'.ids = g.ids) : CanvasMatches g' { c with links := Function.update c.links k (f (c.links k)) } := by
  refine ⟨hc.nodes.trans hnodes.symm, ?_, ?_, ?_, ?_⟩
  · intro k'
    show Function.update c.links k (f (c.links k)) k' = g'.links k'
    rw [hlinks, Function.update_apply]
    split
    next hk => rw [hk, hc.links]
    next => exact hc.links k'
  · intro x
    rw [h.scopeOf?]
    exact hc.scope x
  · intro t sc hsc
    exact hc.children t sc ((h.scopes t).symm.trans hsc)
  · intro t ht
    rw [h.scopes]
    exact hc.unborn t (hids ▸ ht)

theorem frame_addLink (l : Link) : (g.addLink l).events = g.events ++ [.linkAdded l] ∧
    (g.addLink l).nodes = g.nodes ∧ (g.addLink l).ids = g.ids := by
  obtain ⟨tail, head, kind⟩ := l
  cases kind <;> exact ⟨rfl, rfl, rfl⟩

theorem frame_removeLink (l : Link) : (g.removeLink l).events = g.events ++ [.linkRemoved l] ∧
    (g.removeLink l).nodes = g.nodes ∧ (g.removeLink l).ids = g.ids := by
  obtain ⟨tail, head, kind⟩ := l
  cases kind <;> exact ⟨rfl, rfl, rfl⟩

theorem eventsReplay_addLink (g : Graph) (l : Link) : EventsReplay g (g.addLink l) := by
  obtain ⟨hevents, hnodes, hids⟩ := frame_addLink (g := g) l
  exact ⟨[.linkAdded l], hevents, fun c hc => hc.relink (f := (· ++ [l]))
    (sameFrames_addLink g l) links_addLink hnodes hids⟩

theorem eventsReplay_removeLink (g : Graph) (l : Link) : EventsReplay g (g.removeLink l) := by
  obtain ⟨hevents, hnodes, hids⟩ := frame_removeLink (g := g) l
  exact ⟨[.linkRemoved l], hevents,
    fun c hc => hc.relink (f := (·.erase l)) (sameFrames_removeLink g l) links_removeLink hnodes hids⟩

theorem EditChange.eventsReplay (h : EditChange may g g') : EventsReplay g g' := by
  cases h with
  | shift h => exact h.eventsReplay
  | retouch id i w =>
    have hsameFrames : SameFrames g (g.modifyNode id (·.modifyProperty i w.apply)) :=
      sameFrames_modifyNode fun _ => by rfl
    exact .silent hsameFrames.scopeOf? (fun t => by rw [hsameFrames.scopes]) rfl
  | link _ => exact eventsReplay_addLink g _
  | unlink _ => exact eventsReplay_removeLink g _

theorem EditChanges.eventsReplay (h : EditChanges may g g') : EventsReplay g g' := by
  induction h with
  | refl => exact .refl g
  | tail _ hact ih => exact ih.trans hact.eventsReplay

theorem AddsNode.eventsReplay {n : Node} {ps : List ScopeId} (h : AddsNode g id n ps g') (hnone : n.scope = none) :
    EventsReplay g g' := by
  refine ⟨[.nodeAdded id], h.events, fun c hc => ⟨?_, ?_, ?_, ?_, ?_⟩⟩
  · show c.nodes ++ [id] = g'.nodes
    rw [h.nodes, hc.nodes]
  · intro k
    exact (hc.links k).trans (links_congr h.valueLinks h.flowLinks k).symm
  · intro x
    show c.scope x = _
    rw [hc.scope, scopeOf?, scopeOf?, h.nodeAt?]
    split
    next hx => rw [hx, h.fresh, Option.bind_none, Option.bind_some, hnone]
    next => rfl
  · intro t sc hsc
    show c.children t = _
    by_cases hnew : n.internalScope = some t ∨ t ∈ ps
    · obtain ⟨-, hlow, -⟩ := h.fresh_scope t hnew
      rw [(hc.unborn t hlow).1]
      rcases hnew with hinternal | hpart
      · cases (h.internal t hinternal).symm.trans hsc
        rfl
      · obtain ⟨i, hi⟩ := List.getElem?_of_mem hpart
        cases hinternal : n.internalScope with
        | none =>
          rw [h.unsplit hinternal] at hpart
          cases hpart
        | some u =>
          cases (h.partition u hinternal i t hi).symm.trans hsc
          rfl
    · obtain ⟨hinternal, hpart⟩ := not_or.1 hnew
      exact hc.children t sc ((h.others t hinternal hpart).symm.trans hsc)
  · intro t ht
    obtain ⟨hempty, hnone⟩ := hc.unborn t (Nat.le_trans h.ids ht)
    refine ⟨hempty, ?_⟩
    by_cases hnew : n.internalScope = some t ∨ t ∈ ps
    · exact absurd (h.fresh_scope t hnew).2.2 (Nat.not_lt.2 ht)
    · obtain ⟨hinternal, hpart⟩ := not_or.1 hnew
      rw [h.others t hinternal hpart, hnone]

/-- A node that goes has left its scope before. The content of its inner scopes is not looked at any more. -/
theorem RemovesNode.eventsReplay {n : Node} {inner : List ScopeId} (h : RemovesNode g id inner g')
    (hn : g.nodeAt? id = some n) (hnone : n.scope = none) : EventsReplay g g' := by
  refine ⟨[.nodeRemoved id], h.events, fun c hc => ⟨?_, ?_, ?_, ?_, ?_⟩⟩
  · show c.nodes.filter (· != id) = g'.nodes
    rw [h.nodes, hc.nodes]
  · intro k
    exact (hc.links k).trans (links_congr h.valueLinks h.flowLinks k).symm
  · intro x
    show c.scope x = _
    rw [hc.scope, scopeOf?, scopeOf?, h.nodeAt?]
    split
    next hx => rw [hx, hn, Option.bind_some, Option.bind_none, hnone]
    next => rfl
  · intro t sc hsc
    rw [h.scopeAt?] at hsc
    split at hsc
    next => cases hsc
    next => exact hc.children t sc hsc
  · intro t ht
    obtain ⟨hempty, hnone⟩ := hc.unborn t (h.ids ▸ ht)
    refine ⟨hempty, ?_⟩
    rw [h.scopeAt?, hnone, ite_self]

theorem EditSteps.eventsReplay (h : EditSteps may g g') : EventsReplay g g' := by
  induction h with
  | refl => exact .refl g
  | tail _ heditStep ih =>
    cases heditStep with
    | act hact => exact ih.trans hact.eventsReplay
    | discard _ hn hnone _ _ hs => exact ih.trans (hs.eventsReplay hn hnone)

theorem eventsReplay_spawn {build : NodeId → Node} {partitions : Option Nat} {s : Option ScopeId}
    (hbuildsUnlinked : BuildsUnlinked g.config.fanIn build) (h : g.spawn build partitions s = .ok (id, g')) :
    EventsReplay g g' := by
  obtain ⟨n, ps, g₁, hnew, -, heditMoves⟩ := spawn_editMoves hbuildsUnlinked h
  exact (hnew.toAddsNode.eventsReplay hnew.unscoped).trans heditMoves.editChanges.eventsReplay

theorem CanvasMatches.congr (h : CanvasMatches g c) {ids : IdSupply} {root : NodeId} {events : List Event}
    (hids : g.ids.next ≤ ids.next) : CanvasMatches { g with ids, root, events } c :=
  ⟨h.nodes, fun k => (h.links k).trans (links_congr rfl rfl k), h.scope, h.children,
    fun t ht => h.unborn t (Nat.le_trans hids ht)⟩

theorem HoldsNothing.canvasMatches (h : HoldsNothing g) : CanvasMatches g {} := by
  refine ⟨h.nodes.symm, fun k => (h.links k).symm, fun x => ?_, fun t sc hsc => ?_, fun t _ => ⟨rfl, h.scopeAt? t⟩⟩
  · rw [scopeOf?, h.nodeAt?, Option.bind_none]
  · cases (h.scopeAt? t).symm.trans hsc

theorem eventsReplay_spawnEntryPoint (h : g.spawnEntryPoint = .ok g') : EventsReplay g g' := by
  simp only [spawnEntryPoint, bind_eq_ok, pure_eq_ok] at h
  obtain ⟨⟨id, g₁⟩, hg₁, rfl⟩ := h
  obtain ⟨events, hevents, hcanvasMatches⟩ := eventsReplay_spawn (Node.buildsUnlinked_entryPoint _) hg₁
  exact ⟨events, hevents, fun c hc => (hcanvasMatches c hc).congr (Nat.le_refl _)⟩

/-- Whatever the canvas shows, it is empty once the graph is. -/
theorem eventsReplay_reset (h : NodesListed g) (hreset : g.reset = .ok g') : EventsReplay g g' := by
  obtain ⟨g₀, hholdsNothing, -, hevents, hspawn⟩ := reset_eq h hreset
  obtain ⟨events, hevents', hcanvasMatches⟩ := eventsReplay_spawnEntryPoint hspawn
  refine ⟨.reset :: events, ?_, fun c _ => hcanvasMatches {} hholdsNothing.canvasMatches⟩
  rw [hevents', hevents, List.append_assoc]
  rfl

theorem eventsReplay_perform {e : Edit} (h : WellFormed g) (he : e ≠ .drainEvents) (hperform : g.perform e = .ok g') :
    EventsReplay g g' := by
  cases perform_editChanges guards_always hperform with
  | changes _ heditChanges => exact heditChanges.eventsReplay
  | create _ hbuildsUnlinked hspawn heditChanges =>
    exact (eventsReplay_spawn hbuildsUnlinked hspawn).trans heditChanges.eventsReplay
  | block _ hbuildsUnlinked hspawn => exact eventsReplay_spawn hbuildsUnlinked hspawn
  | undo hbuildsUnlinked hspawn hdestroy =>
    exact (eventsReplay_spawn hbuildsUnlinked hspawn).trans
      (destroy_editSteps guards_always (h.spawn hbuildsUnlinked hspawn).toLinksScopesValid hdestroy).eventsReplay
  | destroy _ heditChanges hdestroy =>
    exact heditChanges.eventsReplay.trans
      (destroy_editSteps guards_always (h.changes heditChanges.changes).toLinksScopesValid hdestroy).eventsReplay
  | reset hreset => exact eventsReplay_reset h.nodesListed hreset
  | drain => exact (he rfl).elim

/-- A graph that has come about by edits, with the events that have been drained on the way. -/
inductive Logged : List Event → Graph → Prop
  | create {ids : IdSupply} {library : Library} {config : Config} {g : Graph} :
      create {} ids library config = .ok g → Logged [] g
  | edit {log : List Event} {g g' : Graph} (e : Edit) : Logged log g → e ≠ .drainEvents → g.perform e = .ok g' →
      Logged log g'
  | drain {log : List Event} {g : Graph} : Logged log g → Logged (log ++ g.drainEvents.1) g.drainEvents.2
  | issued {log : List Event} {g : Graph} {ids : IdSupply} : Logged log g → g.ids.next ≤ ids.next →
      Logged log { g with ids }

variable {log : List Event}

theorem Logged.reachable (h : Logged log g) : Reachable g := by
  induction h with
  | create hcreate => exact .create hcreate
  | edit e _ _ hperform ih => exact .edit e ih hperform
  | drain _ ih => exact .edit .drainEvents ih rfl
  | issued _ hids ih => exact .issued ih hids

theorem Logged.canvasMatches (h : Logged log g) : CanvasMatches g (Canvas.replay (log ++ g.events)) := by
  induction h with
  | create hcreate =>
    obtain ⟨g₀, hholdsNothing, -, hevents, hspawn⟩ := create_eq hcreate
    obtain ⟨events, hevents', hcanvasMatches⟩ := eventsReplay_spawnEntryPoint hspawn
    rw [List.nil_append, hevents', hevents, List.nil_append]
    exact hcanvasMatches {} hholdsNothing.canvasMatches
  | edit e hlogged he hperform ih =>
    obtain ⟨events, hevents, hcanvasMatches⟩ := eventsReplay_perform hlogged.reachable.wellFormed he hperform
    rw [hevents, ← List.append_assoc, Canvas.replay, List.foldl_append]
    exact hcanvasMatches _ ih
  | @drain log g _ ih =>
    show CanvasMatches { g with events := [] } (Canvas.replay (log ++ g.events ++ []))
    rw [List.append_nil]
    exact ih.congr (Nat.le_refl _)
  | issued _ hids ih => exact ih.congr hids

/-- The events since the creation, those that are still pending included, show the graph. -/
theorem shows_of_logged (h : Logged log g) : (Canvas.replay (log ++ g.events)).Shows g := h.canvasMatches.shows

/-- A `while` in the root scope with an instruction inside. The events are drained before the loop is linked and
its content moved out again. -/
def drainedLoop : Except Fault (List Event × Graph) := do
  let g ← create {} {} default {}
  let g ← g.perform (.conditional .whileLoop ⟨2⟩)
  let g ← g.perform (.emptyInstruction ⟨6⟩)
  let g' ← g.drainEvents.2.perform (.connect ⟨⟨1⟩, ⟨0⟩⟩ ⟨⟨3⟩, ⟨0⟩⟩ true)
  return (g.drainEvents.1, ← g'.perform (.changeScope ⟨7⟩ ⟨2⟩))

theorem shows_drainedLoop : ∃ g log, drainedLoop = .ok (log, g) ∧ Logged log g ∧
    log = [.nodeAdded ⟨1⟩, .nodeAdded ⟨3⟩, .nodeScoped ⟨3⟩ (some ⟨2⟩), .nodeAdded ⟨7⟩, .nodeScoped ⟨7⟩ (some ⟨6⟩)] ∧
    g.events = [.linkAdded ⟨⟨⟨1⟩, ⟨0⟩⟩, ⟨⟨3⟩, ⟨0⟩⟩, .flow⟩, .nodeScoped ⟨7⟩ none, .nodeScoped ⟨7⟩ (some ⟨2⟩)] ∧
    (Canvas.replay (log ++ g.events)).Shows g := by
  obtain ⟨⟨log, g⟩, hg⟩ := exists_of_isOk (x := drainedLoop) (by decide +kernel)
  have hevents := eq_ok_of_toOption_bind (fun r => .ok (r.1, r.2.events)) hg
    (b := ([.nodeAdded ⟨1⟩, .nodeAdded ⟨3⟩, .nodeScoped ⟨3⟩ (some ⟨2⟩), .nodeAdded ⟨7⟩, .nodeScoped ⟨7⟩ (some ⟨6⟩)],
      [.linkAdded ⟨⟨⟨1⟩, ⟨0⟩⟩, ⟨⟨3⟩, ⟨0⟩⟩, .flow⟩, .nodeScoped ⟨7⟩ none, .nodeScoped ⟨7⟩ (some ⟨2⟩)]))
        (by decide +kernel)
  have hlogged : Logged log g := by
    simp only [drainedLoop, bind_eq_ok, pure_eq_ok, Prod.mk.injEq] at hg
    obtain ⟨g₀, h₀, g₁, h₁, g₂, h₂, g₃, h₃, g₄, h₄, rfl, rfl⟩ := hg
    have hnested : Logged [] g₂ :=
      .edit (.emptyInstruction ⟨6⟩) (.edit (.conditional .whileLoop ⟨2⟩) (.create h₀) (by simp) h₁) (by simp) h₂
    exact .edit (.changeScope ⟨7⟩ ⟨2⟩) (.edit (.connect _ _ true) (.drain hnested) (by simp) h₃) (by simp) h₄
  obtain ⟨rfl, hpending⟩ := Prod.mk.inj (Except.ok.inj hevents)
  exact ⟨g, _, hg, hlogged, rfl, hpending, shows_of_logged hlogged⟩

end Graph

end FlowGraph
