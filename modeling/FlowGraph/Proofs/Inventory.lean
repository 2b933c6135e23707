import FlowGraph.Proofs.Arena.Refinement
import FlowGraph.Proofs.Descent

/-!
# The inventory of a graph

Nodes and scopes are taken from the arena one by one and given back one by one. What a reachable graph holds can
still be told from the list of its nodes: each is live and listed once, in the order in which they were made; the
entry point and each conditional have an internal scope, and a conditional's is split in two. No scope is left
over, so the arena holds what these come to.
-/

namespace FlowGraph

def NodeKind.partitions? : NodeKind → Option Nat
  | .entryPoint => some 0
  | .ifElse | .forLoop | .whileLoop => some 2
  | _ => none

theorem NodeKind.partitions?_of_isInvokable {kind : NodeKind} (h : kind.isInvokable = true) :
    kind.partitions? = none := by
  cases kind <;> first | rfl | cases h

theorem Node.Layout.kind_conditional (c : Node.Conditional) :
    (Node.Layout.conditional c).kind ≠ .entryPoint ∧ (Node.Layout.conditional c).kind.partitions? = some 2 := by
  cases c
  all_goals
    constructor
    · decide
    · rfl

namespace Graph

variable {may : Graph → NodeId → ScopeId → Prop} {g g' : Graph} {id : NodeId} {n : Node}

def CreatesNode (g : Graph) (l : Node.Layout) (id : NodeId) (g' : Graph) : Prop :=
  l.kind ≠ .entryPoint ∧ ∃ s, g.spawn (l.build g.config.fanIn) l.kind.partitions? (some s) = .ok (id, g')

inductive AddThenSteps (g : Graph) : Graph → Prop
  | steps {g' : Graph} : Steps always g g' → AddThenSteps g g'
  | birth {l : Node.Layout} {id : NodeId} {g₁ g' : Graph} : CreatesNode g l id g₁ → Steps always g₁ g' →
      AddThenSteps g g'
  | reset {g' : Graph} : g.reset = .ok g' → AddThenSteps g g'
  | drain : AddThenSteps g g.drainEvents.2

theorem buildsUnlinked_build (l : Node.Layout) (fanIn : Nat) : BuildsUnlinked fanIn (l.build fanIn) := by
  cases l with
  | plain => exact Node.buildsUnlinked_plain fanIn
  | emptyInstruction => exact Node.buildsUnlinked_emptyInstruction fanIn
  | entryPoint => exact Node.buildsUnlinked_entryPoint fanIn
  | literal value => exact Node.buildsUnlinked_literal fanIn value
  | declaration type name => exact Node.buildsUnlinked_declaration fanIn type name
  | reference type name => exact Node.buildsUnlinked_reference fanIn type name
  | invokable kind signature callable => exact Node.buildsUnlinked_invokable fanIn kind signature
  | conditional c => exact Node.buildsUnlinked_conditional fanIn c

theorem createsNode_conditional {c : Node.Conditional} {s : ScopeId} (h : g.createConditional c s = .ok (id, g')) :
    CreatesNode g (.conditional c) id g' := by
  obtain ⟨hentry, hsplit⟩ := Node.Layout.kind_conditional c
  exact ⟨hentry, s, hsplit ▸ h⟩

theorem createsNode_invokable {kind : NodeKind} {signature : Signature} {s : ScopeId} (hkind : kind.isInvokable = true)
    (h : g.createInvokable kind signature s = .ok (id, g')) :
    CreatesNode g (.invokable kind signature hkind) id g' := by
  refine ⟨?_, s, ?_⟩
  · rintro rfl
    cases hkind
  · rw [show (Node.Layout.invokable kind signature hkind).kind.partitions? = none from
      NodeKind.partitions?_of_isInvokable hkind]
    exact createInvokable_spawn h

theorem createsNode_of_createNode {kind : NodeKind} {s : ScopeId} {r : Option NodeId}
    (h : g.createNode kind s = .ok (r, g')) :
    g' = g ∨ ∃ l id, CreatesNode g l id g' := by
  cases kind with
  | plain =>
    obtain ⟨_, hcreated, h⟩ := bind_eq_ok.1 h
    obtain ⟨_, hspawn, rfl⟩ := map_eq_ok.1 hcreated
    cases h
    exact .inr ⟨.plain, _, by decide, s, hspawn⟩
  | emptyInstruction =>
    obtain ⟨_, hcreated, h⟩ := bind_eq_ok.1 h
    obtain ⟨_, hspawn, rfl⟩ := map_eq_ok.1 hcreated
    cases h
    exact .inr ⟨.emptyInstruction, _, by decide, s, hspawn⟩
  | ifElse | forLoop | whileLoop =>
    obtain ⟨_, hcreated, h⟩ := bind_eq_ok.1 h
    obtain ⟨_, hspawn, rfl⟩ := map_eq_ok.1 hcreated
    cases h
    exact .inr ⟨_, _, createsNode_conditional hspawn⟩
  | _ =>
    cases h
    exact .inl rfl

/-- An edit that creates does so once, if at all. Only a reference is changed on the way, or destroyed. -/
theorem createsNode_of_creates {e : Edit} (he : e.creates = true) (h : g.perform e = .ok g') :
    g' = g ∨ ∃ l id g₁, CreatesNode g l id g₁ ∧ (g' = g₁ ∨ l.kind = .variableRef ∧
      ((∃ a b m, g₁.validateLink a b = .ok (.ok m) ∧ g' = g₁.addLink m) ∨ g₁.destroy id false = .ok g')) := by
  have hborn (hborn : ∃ l id, CreatesNode g l id g') : ∃ l id g₁, CreatesNode g l id g₁ ∧
      (g' = g₁ ∨ l.kind = .variableRef ∧
      ((∃ a b m, g₁.validateLink a b = .ok (.ok m) ∧ g' = g₁.addLink m) ∨ g₁.destroy id false = .ok g')) := by
    obtain ⟨l, id, hbirth⟩ := hborn
    exact ⟨l, id, g', hbirth, .inl rfl⟩
  cases e with
  | node kind s =>
    obtain ⟨⟨r, g₁⟩, hcreate, ⟨⟩⟩ := bind_eq_ok.1 h
    exact (createsNode_of_createNode hcreate).imp_right hborn
  | emptyInstruction s =>
    obtain ⟨⟨id, g₁⟩, hspawn, ⟨⟩⟩ := bind_eq_ok.1 h
    exact .inr (hborn ⟨.emptyInstruction, id, by decide, s, hspawn⟩)
  | literal value s =>
    obtain ⟨⟨id, g₁⟩, hspawn, ⟨⟩⟩ := bind_eq_ok.1 h
    exact .inr (hborn ⟨.literal value, id, nofun, s, hspawn⟩)
  | declaration type name s =>
    obtain ⟨⟨id, g₁⟩, hspawn, ⟨⟩⟩ := bind_eq_ok.1 h
    exact .inr (hborn ⟨.declaration type name, id, nofun, s, hspawn⟩)
  | reference source s =>
    obtain ⟨⟨g₁, r⟩, hcreate, ⟨⟩⟩ := bind_eq_ok.1 h
    rcases createReference_spawn hcreate with rfl | ⟨type, name, id, g₂, hspawn, hmade⟩
    · exact .inl rfl
    · exact .inr ⟨.reference type name, id, g₂, ⟨nofun, s, hspawn⟩, .inr ⟨rfl, hmade⟩⟩
  | function signature s =>
    obtain ⟨⟨id, g₁⟩, hcreate, ⟨⟩⟩ := bind_eq_ok.1 h
    exact .inr (hborn ⟨_, id, createsNode_invokable rfl hcreate⟩)
  | operator signature s =>
    obtain ⟨⟨id, g₁⟩, hcreate, ⟨⟩⟩ := bind_eq_ok.1 h
    exact .inr (hborn ⟨_, id, createsNode_invokable rfl hcreate⟩)
  | conditional c s =>
    obtain ⟨⟨id, g₁⟩, hspawn, ⟨⟩⟩ := bind_eq_ok.1 h
    exact .inr (hborn ⟨_, id, createsNode_conditional hspawn⟩)
  | _ => cases he

theorem CreatesNode.wellFormed {l : Node.Layout} (h : CreatesNode g l id g') (hg : WellFormed g) : WellFormed g' := by
  obtain ⟨-, s, hspawn⟩ := h
  exact hg.spawn (buildsUnlinked_build l _) hspawn

theorem WellFormed.addThenSteps (hg : WellFormed g) {e : Edit} (h : g.perform e = .ok g') : AddThenSteps g g' := by
  cases hcreates : e.creates with
  | true =>
    rcases createsNode_of_creates hcreates h with rfl | ⟨l, id, g₁, hbirth, rfl | ⟨-, ⟨a, b, m, hm, rfl⟩ | hdestroy⟩⟩
    · exact .steps .refl
    · exact .birth hbirth .refl
    · exact .birth hbirth (.single (.change (.link hm)))
    · exact .birth hbirth (destroy_steps guards_always (hbirth.wellFormed hg).toLinksScopesValid hdestroy)
  | false =>
    by_cases hreset : e = .reset
    · subst hreset
      exact .reset h
    by_cases hdrain : e = .drainEvents
    · subst hdrain
      cases h
      exact .drain
    rcases alter_editChanges guards_always h hcreates hreset hdrain with heditChanges | ⟨-, g₁, id,
        sideEffects, heditChanges,
        hdestroy⟩
    · exact .steps heditChanges.changes.steps
    · have hsteps := heditChanges.changes.steps
      exact .steps (hsteps.trans (destroy_steps guards_always (hg.steps hsteps).toLinksScopesValid hdestroy))

def HasScopesOfKind (g : Graph) (n : Node) : Prop :=
  n.kind.partitions? = n.internalScope.bind fun i => (g.scopeAt? i).map (·.partitions.length)

structure NodesOrdered (g : Graph) : Prop where
  increasing : g.nodes.Pairwise (·.raw < ·.raw)
  issued {x : NodeId} : x ∈ g.nodes → x.raw < g.ids.next
  entry {x : NodeId} {n : Node} : g.nodeAt? x = some n → n.kind = .entryPoint → x = g.root
  hasScopesOfKind {x : NodeId} {n : Node} : g.nodeAt? x = some n → HasScopesOfKind g n

theorem Step.nodes (h : Step may g g') : g'.nodes.Sublist g.nodes := by
  cases h with
  | change hchange =>
    rw [hchange.allKept.nodes]
  | discard _ _ _ _ _ hs =>
    rw [hs.nodes]
    exact List.filter_sublist

theorem Steps.nodes (h : Steps may g g') : g'.nodes.Sublist g.nodes := by
  induction h with
  | refl => exact .refl _
  | tail _ hstep ih => exact hstep.nodes.trans ih

theorem ids_spawn {build : NodeId → Node} {partitions : Option Nat} {s : Option ScopeId}
    (hbuildsUnlinked : BuildsUnlinked g.config.fanIn build) (h : g.spawn build partitions s = .ok (id, g')) :
    id.raw = g.ids.next ∧ id.raw < g'.ids.next := by
  obtain ⟨g₁, g₂, hallocate, hblock, hplaced⟩ := spawn_steps h
  obtain ⟨-, hnodes, -, -, hraw, hnext⟩ := allocate_eq hallocate
  have hn₁ : g₁.nodeAt? id = some (build id) := (hnodes id).trans (if_pos rfl)
  obtain ⟨n, hn, hnone, hle⟩ : ∃ n, (g₂.enlist id).nodeAt? id = some n ∧ n.scope = none ∧
      g₁.ids.next ≤ g₂.ids.next := by
    rcases hblock with ⟨-, rfl⟩ | ⟨k, -, hblock⟩
    · exact ⟨_, hn₁, hbuildsUnlinked.scope id, Nat.le_refl _⟩
    · obtain ⟨i, ps, -, -, hlow, hhigh, -⟩ := addInternalScope_eq hblock hn₁
      obtain ⟨j, ps', -, hs, -⟩ := addsNode_block hallocate hblock
      refine ⟨_, (hs.nodeAt? id).trans (if_pos rfl), hbuildsUnlinked.scope id, ?_⟩
      omega
  refine ⟨hraw, ?_⟩
  have hids : g'.ids = g₂.ids := by
    rcases hplaced with ⟨-, rfl⟩ | ⟨t, -, hplaced⟩
    · rfl
    · exact (insertIntoScope_moves (guards_always _) hplaced hn hnone trivial).changes.allKept.ids
  rw [hids]
  omega

namespace NodesOrdered

theorem steps (h : NodesOrdered g) (ho : ScopesOwned g') (hsteps : Steps may g g') : NodesOrdered g' := by
  have hsurvivorsKept := hsteps.survivorsKept
  refine ⟨h.increasing.sublist hsteps.nodes, ?_, ?_, ?_⟩
  · intro x hx
    rw [hsurvivorsKept.ids]
    exact h.issued (hsteps.nodes.subset hx)
  · intro x n' hn' hkind
    obtain ⟨n, hn, hskeleton⟩ := hsurvivorsKept.node hn'
    rw [hsurvivorsKept.root]
    exact h.entry hn ((Node.of_skeleton hskeleton).1.symm.trans hkind)
  · intro x n' hn'
    obtain ⟨n, hn, hskeleton⟩ := hsurvivorsKept.node hn'
    obtain ⟨hkind, -, hinternal⟩ := Node.of_skeleton hskeleton
    have hscopesOfKind : n.kind.partitions? = _ := h.hasScopesOfKind hn
    rw [HasScopesOfKind, hkind, hscopesOfKind, hinternal]
    cases hi : n.internalScope with
    | none => rfl
    | some i =>
      obtain ⟨sc', hsc', -⟩ := ho.internal hn' (hinternal.trans hi)
      obtain ⟨sc, hsc, hskeleton'⟩ := hsurvivorsKept.scope hsc'
      simp only [Option.bind_some, hsc, hsc', Option.map_some, (Scope.of_skeleton hskeleton').2.2]

theorem congr (h : NodesOrdered g) (hnodes : ∀ x, g'.nodeAt? x = g.nodeAt? x)
    (hscopes : ∀ t, g'.scopeAt? t = g.scopeAt? t) (hlist : g'.nodes = g.nodes) (hids : g.ids.next ≤ g'.ids.next)
    (hroot : g'.root = g.root) : NodesOrdered g' := by
  refine ⟨hlist ▸ h.increasing, ?_, ?_, ?_⟩
  · intro x hx
    exact Nat.lt_of_lt_of_le (h.issued (hlist ▸ hx)) hids
  · intro x n hn
    rw [hroot]
    exact h.entry ((hnodes x).symm.trans hn)
  · intro x n hn
    simp only [HasScopesOfKind, hscopes]
    exact h.hasScopesOfKind ((hnodes x).symm.trans hn)

theorem addsUnplaced {build : NodeId → Node} {n : Node} {ps : List ScopeId} (h : NodesOrdered g) (ho : ScopesOwned g)
    (hnew : AddsUnplaced g build id n ps g') (hkind : (build id).kind ≠ .entryPoint)
    (hpartitions : (build id).kind.partitions? = n.internalScope.map fun _ => ps.length) (hraw : id.raw = g.ids.next)
    (hlt : id.raw < g'.ids.next) : NodesOrdered g' := by
  constructor
  · rw [hnew.nodes, List.pairwise_append]
    refine ⟨h.increasing, List.pairwise_singleton _ _, ?_⟩
    intro x hx y hy
    obtain rfl := List.mem_singleton.1 hy
    rw [hraw]
    exact h.issued hx
  · intro x hx
    rcases List.mem_append.1 (hnew.nodes ▸ hx) with hx | hx
    · have := h.issued hx
      omega
    · obtain rfl := List.mem_singleton.1 hx
      exact hlt
  · intro x m hm hentry
    rw [hnew.nodeAt?] at hm
    split at hm
    next =>
      cases hm
      exact (hkind (hnew.kind.symm.trans hentry)).elim
    next =>
      rw [hnew.root]
      exact h.entry hm hentry
  · intro x m hm
    rw [hnew.nodeAt?] at hm
    split at hm
    next =>
      cases hm
      rw [HasScopesOfKind, hnew.kind, hpartitions]
      cases hi : n.internalScope with
      | none => rfl
      | some i => rw [Option.bind_some, hnew.internal i hi, Option.map_some, Option.map_some]
    next =>
      have hscopesOfKind : m.kind.partitions? = _ := h.hasScopesOfKind hm
      rw [HasScopesOfKind, hscopesOfKind]
      cases hi : m.internalScope with
      | none => rfl
      | some i =>
        obtain ⟨sc, hsc, -⟩ := ho.internal hm hi
        have hold : ¬(n.internalScope = some i ∨ i ∈ ps) := by
          intro hin
          cases (hnew.fresh_scope i hin).1.symm.trans hsc
        rw [Option.bind_some, Option.bind_some, hnew.others i (fun he => hold (.inl he)) fun he => hold (.inr he)]

theorem spawn {build : NodeId → Node} {s : Option ScopeId} (h : NodesOrdered g) (hg : RecordsValid g)
    (hbuildsUnlinked : BuildsUnlinked g.config.fanIn build) (hkind : (build id).kind ≠ .entryPoint)
    (hspawn : g.spawn build (build id).kind.partitions? s = .ok (id, g')) : NodesOrdered g' := by
  obtain ⟨hraw, hlt⟩ := ids_spawn hbuildsUnlinked hspawn
  obtain ⟨n, ps, g₁, hnew, hpartitions, heditMoves⟩ := spawn_editMoves hbuildsUnlinked hspawn
  have hchanges := heditMoves.moves.changes
  have hnodesOrdered : NodesOrdered g₁ :=
    h.addsUnplaced hg.scopesOwned hnew hkind hpartitions hraw (hchanges.allKept.ids ▸ hlt)
  have ho₁ : ScopesOwned g₁ := hg.scopesOwned.addsNode hnew.toAddsNode
  exact hnodesOrdered.steps (ho₁.allKept hchanges.allKept) hchanges.steps

theorem addThenSteps (h : NodesOrdered g) (hg : WellFormed g) (hg' : WellFormed g') (haddThenSteps : AddThenSteps g g')
    (hreset : g.reset = .ok g' → NodesOrdered g') : NodesOrdered g' := by
  cases haddThenSteps with
  | steps hsteps => exact h.steps hg'.scopesOwned hsteps
  | birth hbirth hsteps =>
    have hg₁ := hbirth.wellFormed hg
    obtain ⟨hkind, s, hspawn⟩ := hbirth
    rw [← Node.Layout.kind_build] at hkind hspawn
    exact (h.spawn hg.toRecordsValid (buildsUnlinked_build _ _) hkind hspawn).steps hg'.scopesOwned hsteps
  | reset h => exact hreset h
  | drain => exact h.congr (fun _ => rfl) (fun _ => rfl) rfl (Nat.le_refl _) rfl

end NodesOrdered

structure EntryPointAlone (g₀ g : Graph) : Prop where
  nodes : g.nodes = [⟨g₀.ids.next⟩]
  root : g.root = ⟨g₀.ids.next⟩
  nodeAt? (x : NodeId) : g.nodeAt? x =
    if x = ⟨g₀.ids.next⟩ then some { Node.entryPoint x with internalScope := some ⟨g₀.ids.next + 1⟩ } else none
  scopeAt? (t : ScopeId) : g.scopeAt? t =
    if t = ⟨g₀.ids.next + 1⟩ then some { id := t, owner := ⟨g₀.ids.next⟩, kind := .internal } else none
  links (k : SlotKind) : g.links k = []
  events : g.events = g₀.events ++ [.nodeAdded ⟨g₀.ids.next⟩]
  ids : g.ids.next = g₀.ids.next + 2
  library : g.library = g₀.library
  config : g.config = g₀.config

theorem HoldsNothing.entryPointAlone (h : HoldsNothing g) (hspawn : g.spawnEntryPoint = .ok g') :
    EntryPointAlone g g' := by
  simp only [spawnEntryPoint, bind_eq_ok, pure_eq_ok] at hspawn
  obtain ⟨⟨id, g₁⟩, hg₁, rfl⟩ := hspawn
  obtain ⟨g₂, g₃, hallocate, ⟨⟨⟩, -⟩ | ⟨_, ⟨⟩, hblock⟩, ⟨-, rfl⟩ | ⟨_, ⟨⟩, -⟩⟩ := spawn_steps hg₁
  simp only [addInternalScope, addPartitions, bind_eq_ok, pure_eq_ok] at hblock
  obtain ⟨⟨i, g₄⟩, hi, _, ⟨⟩, hblock⟩ := hblock
  obtain ⟨-, hnodes, hscopes, hframe, hraw, hnext⟩ := allocate_eq hallocate
  obtain ⟨-, hscopes', hnodes', hframe', hraw', hnext'⟩ := allocate_eq hi
  obtain rfl : id = ⟨g.ids.next⟩ := Handle.ext hraw
  obtain rfl : i = ⟨g.ids.next + 1⟩ := Handle.ext (hraw'.trans hnext)
  have hlist : g₃.nodes = [] := by
    rw [← hblock, modifyNode, hframe', hframe]
    exact h.nodes
  have hevents : g₃.events = g.events := by rw [← hblock, modifyNode, hframe', hframe]
  constructor
  · show g₃.nodes ++ [_] = _
    rw [hlist]
    rfl
  · rfl
  · intro x
    show g₃.nodeAt? x = _
    have hx : g₄.nodeAt? x = if x = ⟨g.ids.next⟩ then some (Node.entryPoint ⟨g.ids.next⟩) else g.nodeAt? x :=
      (hnodes' .node (by decide) x).trans (hnodes x)
    rw [← hblock, nodeAt?_modifyNode, hx]
    split
    next hid =>
      subst hid
      rfl
    next => exact h.nodeAt? x
  · intro t
    show g₃.scopeAt? t = _
    rw [← hblock, scopeAt?_modifyNode]
    refine (hscopes' t).trans ?_
    split
    next ht =>
      subst ht
      rfl
    next => exact (hscopes .scope (by decide) t).trans (h.scopeAt? t)
  · intro k
    have hlinks : g₃.links k = g.links k := by
      rw [← hblock, links_modifyNode, hframe', hframe]
      cases k <;> rfl
    rw [← h.links k, ← hlinks]
    cases k <;> rfl
  · show g₃.events ++ _ = _
    rw [hevents]
  · show g₃.ids.next = _
    rw [← hblock]
    exact hnext'.trans (congrArg (· + 1) hnext)
  · show g₃.library = _
    rw [← hblock, modifyNode, hframe', hframe]
  · show g₃.config = _
    rw [← hblock, modifyNode, hframe', hframe]

theorem EntryPointAlone.nodesOrdered {g₀ : Graph} (h : EntryPointAlone g₀ g) : NodesOrdered g := by
  constructor
  · rw [h.nodes]
    exact List.pairwise_singleton _ _
  · intro x hx
    obtain rfl := List.mem_singleton.1 (h.nodes ▸ hx)
    rw [h.ids]
    exact Nat.lt_add_of_pos_right (by decide)
  · intro x n hn _
    rw [h.nodeAt?] at hn
    split at hn
    next hx => rw [hx, h.root]
    next => cases hn
  · intro x n hn
    rw [h.nodeAt?] at hn
    split at hn
    next =>
      cases hn
      rw [HasScopesOfKind, Option.bind_some, h.scopeAt?, if_pos rfl]
      rfl
    next => cases hn

theorem Reachable.nodesOrdered (h : Reachable g) : NodesOrdered g := by
  induction h with
  | create hcreate =>
    obtain ⟨g₀, hholdsNothing, -, -, hspawn⟩ := create_eq hcreate
    exact (hholdsNothing.entryPointAlone hspawn).nodesOrdered
  | edit e hreachable hperform ih =>
    have hg := hreachable.wellFormed
    refine ih.addThenSteps hg (hg.perform hperform) (hg.addThenSteps hperform) fun hreset => ?_
    obtain ⟨g₀, hholdsNothing, -, -, hspawn⟩ := reset_eq hg.nodesListed hreset
    exact (hholdsNothing.entryPointAlone hspawn).nodesOrdered
  | issued _ hids ih => exact ih.congr (fun _ => rfl) (fun _ => rfl) rfl hids rfl

end Graph

namespace Arena

theorem cellsOf_eq_nil {κ : Type} [DecidableEq κ] {Item : κ → Type} {k : κ} {stores : List (Store Item)}
    (h : k ∉ stores.map (·.kind)) : Store.cellsOf k stores = [] := by
  induction stores with
  | nil => rfl
  | cons s rest ih =>
    obtain ⟨hhead, hrest⟩ := not_or.1 (fun hmem => h (List.mem_cons.2 hmem))
    rw [Store.cellsOf, dif_neg (Ne.symm hhead)]
    exact ih hrest

theorem sum_length_stores {stores : List (Store Element.Item)} (hnodup : (stores.map (·.kind)).Nodup) :
    (stores.map (·.length)).sum = (Store.cellsOf .node stores).length + (Store.cellsOf .scope stores).length := by
  induction stores with
  | nil => rfl
  | cons s rest ih =>
    obtain ⟨hfresh, hrest⟩ := List.nodup_cons.1 hnodup
    obtain ⟨kind, cells⟩ := s
    have hkinds : Element.node ≠ Element.scope := by decide
    rw [List.map_cons, List.sum_cons, ih hrest]
    cases kind with
    | node =>
      rw [Store.cellsOf, dif_pos rfl, Store.cellsOf, dif_neg hkinds, cellsOf_eq_nil hfresh, List.length_nil]
      simp [Store.length]
    | scope =>
      rw [Store.cellsOf, dif_neg hkinds.symm, Store.cellsOf, dif_pos rfl, cellsOf_eq_nil hfresh, List.length_nil]
      simp [Store.length]
      omega

theorem live_eq_add (a : Heap) : a.live = (a.handles .node).length + (a.handles .scope).length := by
  rw [a.live_eq_sum, sum_length_stores a.kinds_nodup, handles, handles, List.length_map, List.length_map]
  rfl

theorem mem_handles_iff {a : Heap} {k : Element} {h : Handle k} : h ∈ a.handles k ↔ (a.item? h).isSome := by
  constructor
  · intro hmem
    obtain ⟨x, hx⟩ := exists_of_mem_handles hmem
    rw [hx]
    rfl
  · intro hlive
    obtain ⟨x, hx⟩ := Option.isSome_iff_exists.1 hlive
    exact mem_handles hx

end Arena

namespace Graph

variable {g : Graph} {x : NodeId} {s : ScopeId} {n : Node}

structure HasScopeParts (g : Graph) (x : NodeId) (k : Nat) (i : ScopeId) (sc : Scope) : Prop where
  live : g.scope i = .ok sc
  owner : sc.owner = x
  kind : sc.kind = .internal
  parts : sc.partitions.length = k
  part {j : Nat} {p : ScopeId} : sc.partitions[j]? = some p →
    ∃ sp, g.scope p = .ok sp ∧ sp.owner = x ∧ sp.kind = .partition i j ∧ sp.partitions = []

/-- Each node is listed once, in the order of creation, and each scope belongs to one. -/
structure Inventory (g : Graph) : Prop where
  mem_nodes_iff {x : NodeId} : x ∈ g.nodes ↔ g.contains x = true
  increasing : g.nodes.Pairwise (·.raw < ·.raw)
  entry {x : NodeId} {n : Node} : g.node x = .ok n → (n.kind = .entryPoint ↔ x = g.root)
  plain {x : NodeId} {n : Node} : g.node x = .ok n → n.kind.partitions? = none → n.internalScope = none
  block {x : NodeId} {n : Node} {k : Nat} : g.node x = .ok n → n.kind.partitions? = some k →
    ∃ i sc, n.internalScope = some i ∧ HasScopeParts g x k i sc
  mem_scopes_iff {s : ScopeId} : s ∈ g.scopes ↔ ∃ sc, g.scope s = .ok sc
  scopes : ∃ inner, g.nodes.mapM g.innerScopes = .ok inner ∧ inner.flatten.Nodup ∧ g.scopes.Perm inner.flatten
  issued : (∀ x ∈ g.nodes, x.raw < g.ids.next) ∧ ∀ s ∈ g.scopes, s.raw < g.ids.next
  live : g.arena.live = g.nodes.length + g.scopes.length

theorem mem_scopes_iff : s ∈ g.scopes ↔ ∃ sc, g.scopeAt? s = some sc :=
  Arena.mem_handles_iff.trans Option.isSome_iff_exists

theorem WellFormed.perm_nodes (hg : WellFormed g) : g.nodes.Perm (g.arena.handles .node) := by
  apply (List.perm_ext_iff_of_nodup hg.nodesListed.nodup (g.arena.nodup_handles .node)).2
  intro x
  exact hg.nodesListed.mem_nodes_iff.trans Arena.mem_handles_iff.symm

theorem WellFormed.nodup_innerScopes (hg : WellFormed g) {inner : List ScopeId} (h : g.innerScopes x = .ok inner) :
    inner.Nodup := by
  obtain ⟨n, hn, ⟨-, rfl⟩ | ⟨i, sc, hi, hsc, rfl⟩⟩ := innerScopes_eq_ok_iff.1 h
  · exact List.nodup_nil
  obtain ⟨sc', hsc', -, hkind, hparts⟩ := hg.scopesOwned.internal hn hi
  cases hsc.symm.trans hsc'
  rw [List.nodup_cons]
  constructor
  · intro hmem
    obtain ⟨j, hj⟩ := List.getElem?_of_mem hmem
    obtain ⟨sp, hsp, -, hpart⟩ := hparts j i hj
    cases hsc.symm.trans hsp
    cases hkind.symm.trans hpart
  · rw [List.nodup_iff_getElem?_ne_getElem?]
    intro j k hjk hk heq
    obtain ⟨p, hp⟩ : ∃ p, sc.partitions[k]? = some p := ⟨_, List.getElem?_eq_getElem hk⟩
    obtain ⟨sp, hsp, -, hpart⟩ := hparts k p hp
    obtain ⟨sp', hsp', -, hpart'⟩ := hparts j p (heq.trans hp)
    cases hsp.symm.trans hsp'
    cases hpart.symm.trans hpart'
    omega

theorem WellFormed.exists_innerScopes (hg : WellFormed g) (hx : x ∈ g.nodes) :
    ∃ inner, g.innerScopes x = .ok inner := by
  obtain ⟨n, hn⟩ := Option.isSome_iff_exists.1 (hg.nodesListed.mem_nodes_iff.1 hx)
  cases hi : n.internalScope with
  | none => exact ⟨[], innerScopes_eq_ok_iff.2 ⟨n, hn, .inl ⟨hi, rfl⟩⟩⟩
  | some i =>
    obtain ⟨sc, hsc, -⟩ := hg.scopesOwned.internal hn hi
    exact ⟨_, innerScopes_eq_ok_iff.2 ⟨n, hn, .inr ⟨i, sc, hi, hsc, rfl⟩⟩⟩

theorem WellFormed.mem_flatten_iff (hg : WellFormed g) {inner : List (List ScopeId)}
    (h : g.nodes.mapM g.innerScopes = .ok inner) :
    s ∈ inner.flatten ↔ s ∈ g.scopes := by
  rw [List.mem_flatten, mem_scopes_iff]
  constructor
  · rintro ⟨part, hpart, hs⟩
    obtain ⟨x, -, hx⟩ := of_mem_mapM h hpart
    obtain ⟨sc, hsc, -⟩ := hg.scopesOwned.live_of_inner hx hs
    exact ⟨sc, hsc⟩
  · rintro ⟨sc, hsc⟩
    obtain ⟨n, i, si, hn, -⟩ := hg.scopesOwned.home hsc
    obtain ⟨part, hpart, hx⟩ := exists_of_mem_mapM h (hg.nodesListed.mem_nodes_iff.2 (Option.isSome_of_eq_some hn))
    exact ⟨part, hpart, (hg.scopesOwned.mem_innerScopes hx hsc).2 rfl⟩

theorem WellFormed.nodup_flatten (hg : WellFormed g) {xs : List NodeId} {inner : List (List ScopeId)} (hxs : xs.Nodup)
    (h : xs.mapM g.innerScopes = .ok inner) : inner.flatten.Nodup := by
  rw [mapM_eq_ok_iff] at h
  induction h with
  | nil => exact List.nodup_nil
  | @cons x part xs parts hpart hparts ih =>
    obtain ⟨hx, hxs⟩ := List.nodup_cons.1 hxs
    rw [List.flatten_cons, List.nodup_append]
    refine ⟨hg.nodup_innerScopes hpart, ih hxs, ?_⟩
    rintro s hs _ ht rfl
    obtain ⟨sc, hsc, rfl⟩ := hg.scopesOwned.live_of_inner hpart hs
    obtain ⟨part', hpart', hs'⟩ := List.mem_flatten.1 ht
    obtain ⟨y, hy, hinner⟩ := of_mem_mapM (mapM_eq_ok_iff.2 hparts) hpart'
    rw [(hg.scopesOwned.mem_innerScopes hinner hsc).1 hs'] at hx
    exact hx hy

theorem WellFormed.hasScopeParts (hg : WellFormed g) (hf : ConditionalsSplit g) (hn : g.nodeAt? x = some n)
    {i : ScopeId} (hi : n.internalScope = some i) : ∃ sc, HasScopeParts g x sc.partitions.length i sc := by
  obtain ⟨sc, hsc, howner, hkind, hparts⟩ := hg.scopesOwned.internal hn hi
  refine ⟨sc, scope_eq_ok_iff.2 hsc, howner, hkind, rfl, ?_⟩
  intro j p hp
  obtain ⟨sp, hsp, howner', hpart⟩ := hparts j p hp
  exact ⟨sp, scope_eq_ok_iff.2 hsp, howner', hpart, hf.unsplit hsp hpart⟩

theorem HasScopesOfKind.eq_some {i : ScopeId} {sc : Scope} {k : Nat} (h : HasScopesOfKind g n)
    (hi : n.internalScope = some i) (hscopeParts : HasScopeParts g x k i sc) : n.kind.partitions? = some k := by
  rw [HasScopesOfKind, hi, Option.bind_some, scope_eq_ok_iff.1 hscopeParts.live, Option.map_some,
    hscopeParts.parts] at h
  exact h

theorem Reachable.inventory (hr : Reachable g) : Inventory g := by
  have hg := hr.wellFormed
  have hs := hr.nodesOrdered
  obtain ⟨inner, hinner⟩ := exists_mapM fun x (hx : x ∈ g.nodes) => hg.exists_innerScopes hx
  have hnodup : inner.flatten.Nodup := hg.nodup_flatten hg.nodesListed.nodup hinner
  constructor
  · intro x
    rw [hg.nodesListed.mem_nodes_iff, contains_iff]
  · exact hs.increasing
  · intro x n hn
    constructor
    · exact hs.entry (node_eq_ok_iff.1 hn)
    · rintro rfl
      obtain ⟨r, hr, hkind⟩ := hg.rootIsEntryPoint
      cases (node_eq_ok_iff.1 hn).symm.trans hr
      exact hkind
  · intro x n hn hplain
    have hn := node_eq_ok_iff.1 hn
    cases hi : n.internalScope with
    | none => rfl
    | some i =>
      obtain ⟨sc, hscopeParts⟩ := hg.hasScopeParts hr.rootFinitelyNested.toConditionalsSplit hn hi
      cases hplain.symm.trans ((hs.hasScopesOfKind hn).eq_some hi hscopeParts)
  · intro x n k hn hk
    have hn := node_eq_ok_iff.1 hn
    have hscopesOfKind := hs.hasScopesOfKind hn
    cases hi : n.internalScope with
    | none =>
      rw [HasScopesOfKind, hi, hk] at hscopesOfKind
      cases hscopesOfKind
    | some i =>
      obtain ⟨sc, hscopeParts⟩ := hg.hasScopeParts hr.rootFinitelyNested.toConditionalsSplit hn hi
      cases hk.symm.trans (hscopesOfKind.eq_some hi hscopeParts)
      exact ⟨i, sc, rfl, hscopeParts⟩
  · intro s
    rw [mem_scopes_iff]
    simp only [scope_eq_ok_iff]
  · refine ⟨inner, hinner, hnodup, ?_⟩
    apply (List.perm_ext_iff_of_nodup (g.arena.nodup_handles .scope) hnodup).2
    exact fun s => (hg.mem_flatten_iff hinner).symm
  · constructor
    · exact fun x hx => hs.issued hx
    · intro s hmem
      obtain ⟨sc, hsc⟩ := mem_scopes_iff.1 hmem
      exact hg.idsIssued.scope hsc
  · rw [g.arena.live_eq_add, hg.perm_nodes.length_eq]
    rfl

end Graph

end FlowGraph
