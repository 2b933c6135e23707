import FlowGraph.Graph.Merging
import FlowGraph.Proofs.Changes
import FlowGraph.Proofs.Growth

/-!
# Edits

The edits of a graph, and what each comes down to: a series of changes, the creation of a node, a destruction,
or a fresh start.
-/

namespace FlowGraph

inductive Edit
  | node (kind : NodeKind) (s : ScopeId)
  | emptyInstruction (s : ScopeId)
  | literal (value : Value) (s : ScopeId)
  | declaration (type : ValueType) (name : String) (s : ScopeId)
  | reference (source : NodeId) (s : ScopeId)
  | function (signature : Signature) (s : ScopeId)
  | operator (signature : Signature) (s : ScopeId)
  | conditional (c : Node.Conditional) (s : ScopeId)
  | setValue (id : NodeId) (value : Value)
  | setPropertyValue (id : NodeId) (name : String) (value : Value)
  | connect (a b : SlotRef) (sideEffects : Bool)
  | connectOrMerge (output input : SlotRef)
  | disconnect (link : Link) (sideEffects : Bool)
  | append (id : NodeId) (s : ScopeId)
  | remove (id : NodeId)
  | changeScope (id : NodeId) (s : ScopeId)
  | transfer (source target : ScopeId)
  | resetHead (s : ScopeId)
  | destroy (id : NodeId) (sideEffects : Bool)
  | reset
  | drainEvents

namespace Graph

/-- The graph after an edit, refused or not. -/
def perform (g : Graph) : Edit → Except Fault Graph
  | .node kind s => do return (← g.createNode kind s).2
  | .emptyInstruction s => do return (← g.createEmptyInstruction s).2
  | .literal value s => do return (← g.createLiteral value s).2
  | .declaration type name s => do return (← g.createVariable type name s).2
  | .reference source s => do return (← g.createReference source s).1
  | .function signature s => do return (← g.createFunction signature s).2
  | .operator signature s => do return (← g.createOperator signature s).2
  | .conditional c s => do return (← g.createConditional c s).2
  | .setValue id value => g.setValue id value
  | .setPropertyValue id name value => do return (← g.setPropertyValue id name value).2
  | .connect a b sideEffects => do return (← g.connect a b sideEffects).1
  | .connectOrMerge output input => do return (← g.connectOrMerge output input).1
  | .disconnect link sideEffects => do return (← g.disconnect link sideEffects).1
  | .append id s => do return (← g.appendToScope id s).1
  | .remove id => do return (← g.removeFromScope id).1
  | .changeScope id s => do return (← g.changeScope id s).1
  | .transfer source target => do return (← g.transferChildren source target).1
  | .resetHead s => g.resetHead s
  | .destroy id sideEffects => g.destroy id sideEffects
  | .reset => g.reset
  | .drainEvents => .ok g.drainEvents.2

end Graph

namespace Edit

def block? : Edit → Option ScopeId
  | conditional _ s => some s
  | node kind s => if kind.isConditional then some s else none
  | _ => none

def creates : Edit → Bool
  | node _ _ | emptyInstruction _ | literal _ _ | declaration _ _ _ | reference _ _ => true
  | function _ _ | operator _ _ | conditional _ _ => true
  | _ => false

/-- The edit may remove nodes that were there before. -/
def destroys : Edit → Bool
  | connectOrMerge _ _ | destroy _ _ | reset => true
  | _ => false

end Edit

structure Slot.Unused (fanIn : Nat) (slot : Slot) : Prop where
  adjacent : slot.adjacent = []
  notFull : slot.notFull = true
  capacity : 0 < fanIn → 0 < slot.capacity

structure BuildsUnlinked (fanIn : Nat) (build : NodeId → Node) : Prop where
  scope (id : NodeId) : (build id).scope = none
  internalScope (id : NodeId) : (build id).internalScope = none
  slots (id : NodeId) : ∀ slot ∈ (build id).slots, slot.Unused fanIn

namespace Node

section

variable (fanIn index property : Nat) (side : Side)

theorem unused_flowIn : (flowInSlot index fanIn).Unused fanIn := ⟨rfl, rfl, fun h => h⟩

theorem unused_flowOut : (flowOutSlot index).Unused fanIn := ⟨rfl, rfl, fun _ => Nat.one_pos⟩

theorem unused_branch : (branchSlot index side).Unused fanIn := ⟨rfl, rfl, fun _ => Nat.one_pos⟩

theorem unused_output : (outputSlot index fanIn).Unused fanIn := ⟨rfl, rfl, fun h => h⟩

theorem unused_input : (inputSlot index property).Unused fanIn := ⟨rfl, rfl, fun _ => Nat.one_pos⟩

end

variable (fanIn : Nat)

theorem buildsUnlinked_entryPoint : BuildsUnlinked fanIn entryPoint := by
  refine ⟨fun _ => rfl, fun _ => rfl, fun _ => ?_⟩
  simp only [entryPoint, List.forall_mem_cons]
  exact ⟨unused_branch _ 0 _, nofun⟩

theorem buildsUnlinked_plain : BuildsUnlinked fanIn (plain fanIn) := by
  refine ⟨fun _ => rfl, fun _ => rfl, fun _ => ?_⟩
  simp only [plain, List.forall_mem_cons]
  exact ⟨unused_flowIn _ 0, unused_flowOut _ 1, unused_output _ 2, nofun⟩

theorem buildsUnlinked_emptyInstruction : BuildsUnlinked fanIn (emptyInstruction fanIn) :=
  ⟨fun _ => rfl, fun _ => rfl, (buildsUnlinked_plain fanIn).slots⟩

theorem buildsUnlinked_literal (value : Value) : BuildsUnlinked fanIn (literal value fanIn) := by
  refine ⟨fun _ => rfl, fun _ => rfl, fun _ => ?_⟩
  simp only [literal, List.forall_mem_cons]
  exact ⟨unused_output _ 0, nofun⟩

theorem buildsUnlinked_declaration (type : ValueType) (name : String) :
    BuildsUnlinked fanIn (declaration type name fanIn) := by
  refine ⟨fun _ => rfl, fun _ => rfl, fun _ => ?_⟩
  simp only [declaration, List.forall_mem_cons]
  exact ⟨unused_flowIn _ 0, unused_flowOut _ 1, unused_input _ 2 0, unused_output _ 3, nofun⟩

theorem buildsUnlinked_reference (type : ValueType) (name : String) :
    BuildsUnlinked fanIn (reference type name fanIn) := by
  refine ⟨fun _ => rfl, fun _ => rfl, fun _ => ?_⟩
  simp only [reference, List.forall_mem_cons]
  exact ⟨unused_input _ 0 0, unused_output _ 1, nofun⟩

theorem buildsUnlinked_invokable (kind : NodeKind) (signature : Signature) :
    BuildsUnlinked fanIn (invokable kind signature fanIn) := by
  refine ⟨fun _ => rfl, fun _ => rfl, fun _ => ?_⟩
  simp only [invokable, List.forall_mem_cons, List.forall_mem_map]
  exact ⟨unused_flowIn _ 0, unused_flowOut _ 1, unused_output _ 2, fun i _ => unused_input _ (i + 3) (i + 1)⟩

theorem buildsUnlinked_conditional (c : Conditional) : BuildsUnlinked fanIn (conditional c fanIn) := by
  have hcommon : ∀ slot ∈ [flowInSlot 0 fanIn, flowOutSlot 1, branchSlot 2 .onFalse, branchSlot 3 .onTrue,
      inputSlot 4 1], slot.Unused fanIn := by
    simp only [List.forall_mem_cons]
    exact ⟨unused_flowIn _ 0, unused_flowOut _ 1, unused_branch _ 2 _, unused_branch _ 3 _, unused_input _ 4 1,
      nofun⟩
  cases c with
  | ifElse => exact ⟨fun _ => rfl, fun _ => rfl, fun _ => hcommon⟩
  | whileLoop => exact ⟨fun _ => rfl, fun _ => rfl, fun _ => hcommon⟩
  | forLoop =>
    refine ⟨fun _ => rfl, fun _ => rfl, fun _ => List.forall_mem_append.2 ⟨hcommon, ?_⟩⟩
    simp only [List.forall_mem_cons]
    exact ⟨unused_input _ 5 2, unused_input _ 6 3, nofun⟩

/-- The ways to lay out a node. -/
inductive Layout
  | plain
  | emptyInstruction
  | entryPoint
  | literal (value : Value)
  | declaration (type : ValueType) (name : String)
  | reference (type : ValueType) (name : String)
  | invokable (kind : NodeKind) (signature : Signature) (callable : kind.isInvokable = true)
  | conditional (c : Conditional)

def Layout.build : Layout → NodeId → Node
  | plain => Node.plain fanIn
  | emptyInstruction => Node.emptyInstruction fanIn
  | entryPoint => Node.entryPoint
  | literal value => Node.literal value fanIn
  | declaration type name => Node.declaration type name fanIn
  | reference type name => Node.reference type name fanIn
  | invokable kind signature _ => Node.invokable kind signature fanIn
  | conditional c => Node.conditional c fanIn

end Node

namespace Graph

structure AddsUnplaced (g : Graph) (build : NodeId → Node) (id : NodeId) (n : Node)
    (ps : List ScopeId) (g' : Graph) : Prop
    extends AddsNode g id n ps g' where
  live : g'.nodeAt? id = some n
  built : n = { build id with internalScope := n.internalScope }
  kind : n.kind = (build id).kind
  unscoped : n.scope = none
  unused : ∀ slot ∈ n.slots, slot.Unused g.config.fanIn
  root : g'.root = g.root

theorem spawn_addsUnplaced {g g' : Graph} {build : NodeId → Node} {partitions : Option Nat} {s : Option ScopeId}
    {id : NodeId} (hbuildsUnlinked : BuildsUnlinked g.config.fanIn build)
    (h : g.spawn build partitions s = .ok (id, g')) :
    ∃ n ps g₁, AddsUnplaced g build id n ps g₁ ∧ partitions = n.internalScope.map (fun _ => ps.length) ∧
      (s = none ∧ g' = g₁ ∨ ∃ t, s = some t ∧ g₁.insertIntoScope id t = .ok g') := by
  obtain ⟨n, ps, g₁, hs, hn, hplain, hroot, hplaced⟩ := spawn_eq h hbuildsUnlinked.internalScope
  have hself : g₁.nodeAt? id = some n := by rw [hs.nodeAt?, if_pos rfl]
  refine ⟨n, ps, g₁, ⟨hs, hself, hn, ?_, ?_, ?_, hroot⟩, hplain, hplaced⟩
  · rw [hn]
  · rw [hn]
    exact hbuildsUnlinked.scope id
  · rw [hn]
    exact hbuildsUnlinked.slots id

/-- After its birth a node enters its scope, with the nodes that it brings along, or stays outside of all. -/
theorem spawn_editMoves {g g' : Graph} {build : NodeId → Node} {partitions : Option Nat} {s : Option ScopeId}
    {id : NodeId} (hbuildsUnlinked : BuildsUnlinked g.config.fanIn build)
    (h : g.spawn build partitions s = .ok (id, g')) :
    ∃ n ps g₁, AddsUnplaced g build id n ps g₁ ∧ partitions = n.internalScope.map (fun _ => ps.length) ∧
      EditMoves always g₁ g' := by
  obtain ⟨n, ps, g₁, hnew, hpartitions, hplaced⟩ := spawn_addsUnplaced hbuildsUnlinked h
  refine ⟨n, ps, g₁, hnew, hpartitions, ?_⟩
  rcases hplaced with ⟨-, rfl⟩ | ⟨t, -, hplaced⟩
  · exact .refl
  · exact (insertIntoScope_entries (guards_always t) hplaced hnew.live hnew.unscoped trivial).editMoves

inductive EffectBy (series : Graph → Graph → Prop) (g : Graph) : Edit → Graph → Prop
  | changes {e : Edit} {g' : Graph} : e.block? = none → series g g' → EffectBy series g e g'
  | create {e : Edit} {g₁ g' : Graph} {build : NodeId → Node} {id : NodeId} {s : ScopeId} : e.block? = none →
      BuildsUnlinked g.config.fanIn build → g.spawn build none (some s) = .ok (id, g₁) → series g₁ g' →
      (∃ l : Node.Layout, build = l.build g.config.fanIn) → EffectBy series g e g'
  | block {e : Edit} {g' : Graph} {build : NodeId → Node} {id : NodeId} {s : ScopeId} : e.block? = some s →
      BuildsUnlinked g.config.fanIn build → g.spawn build (some 2) (some s) = .ok (id, g') →
      (∃ c, build = Node.conditional c g.config.fanIn) → EffectBy series g e g'
  | undo {source : NodeId} {s : ScopeId} {g₁ g' : Graph} {build : NodeId → Node} {id : NodeId} :
      BuildsUnlinked g.config.fanIn build → g.spawn build none (some s) = .ok (id, g₁) →
      g₁.destroy id false = .ok g' → (∃ l : Node.Layout, build = l.build g.config.fanIn) →
      EffectBy series g (.reference source s) g'
  | destroy {e : Edit} {g₁ g' : Graph} {id : NodeId} {sideEffects : Bool} : e.destroys = true →
      series g g₁ → g₁.destroy id sideEffects = .ok g' → EffectBy series g e g'
  | reset {g' : Graph} : g.reset = .ok g' → EffectBy series g .reset g'
  | drain : EffectBy series g .drainEvents g.drainEvents.2

abbrev Effect (may : Graph → NodeId → ScopeId → Prop) : Graph → Edit → Graph → Prop := EffectBy (Changes may)

theorem EffectBy.mono {series series' : Graph → Graph → Prop} {g g' : Graph} {e : Edit}
    (hseries : ∀ {g g'}, series g g' → series' g g') (h : EffectBy series g e g') : EffectBy series' g e g' := by
  cases h with
  | changes hblock h => exact .changes hblock (hseries h)
  | create hblock hbuildsUnlinked hspawn h hlayout => exact .create hblock hbuildsUnlinked hspawn (hseries h) hlayout
  | block hblock hbuildsUnlinked hspawn hlayout => exact .block hblock hbuildsUnlinked hspawn hlayout
  | undo hbuildsUnlinked hspawn hdestroy hlayout => exact .undo hbuildsUnlinked hspawn hdestroy hlayout
  | destroy he h hdestroy => exact .destroy he (hseries h) hdestroy
  | reset h => exact .reset h
  | drain => exact .drain

variable {may : Graph → NodeId → ScopeId → Prop} {g g' : Graph}

section

variable {series : Graph → Graph → Prop} (hrefl : ∀ g, series g g)

include hrefl

theorem createNode_effect {kind : NodeKind} {s : ScopeId} {id : Option NodeId}
    (h : g.createNode kind s = .ok (id, g')) : EffectBy series g (.node kind s) g' := by
  cases kind with
  | plain =>
    obtain ⟨_, hcreated, h⟩ := bind_eq_ok.1 h
    obtain ⟨_, hspawn, rfl⟩ := map_eq_ok.1 hcreated
    cases h
    exact .create rfl (Node.buildsUnlinked_plain _) hspawn (hrefl _) ⟨.plain, rfl⟩
  | emptyInstruction =>
    obtain ⟨_, hcreated, h⟩ := bind_eq_ok.1 h
    obtain ⟨_, hspawn, rfl⟩ := map_eq_ok.1 hcreated
    cases h
    exact .create rfl (Node.buildsUnlinked_emptyInstruction _) hspawn (hrefl _) ⟨.emptyInstruction, rfl⟩
  | ifElse | forLoop | whileLoop =>
    obtain ⟨_, hcreated, h⟩ := bind_eq_ok.1 h
    obtain ⟨_, hspawn, rfl⟩ := map_eq_ok.1 hcreated
    cases h
    exact .block rfl (Node.buildsUnlinked_conditional _ _) hspawn ⟨_, rfl⟩
  | _ =>
    cases h
    exact .changes rfl (hrefl _)

omit hrefl in
theorem createInvokable_spawn {kind : NodeKind} {signature : Signature} {s : ScopeId} {id : NodeId}
    (h : g.createInvokable kind signature s = .ok (id, g')) :
    g.spawn (Node.invokable kind signature g.config.fanIn) none (some s) = .ok (id, g') := by
  simp only [createInvokable, bind_eq_ok] at h
  obtain ⟨_, -, hspawn⟩ := h
  exact hspawn

omit hrefl in
theorem eq_of_connect_error {a b : SlotRef} {sideEffects : Bool} {e : ConnectError}
    (h : g.connect a b sideEffects = .ok (g', .error e)) : g' = g := by
  rcases connect_eq h with ⟨rfl, -⟩ | ⟨l, hr, -⟩
  · rfl
  · cases hr

omit hrefl in
theorem createReference_spawn {source : NodeId} {s : ScopeId} {r : Except ConnectError NodeId}
    (h : g.createReference source s = .ok (g', r)) :
    g' = g ∨ ∃ type name id g₁, g.spawn (Node.reference type name g.config.fanIn) none (some s) = .ok (id, g₁) ∧
      ((∃ a b l, g₁.validateLink a b = .ok (.ok l) ∧ g' = g₁.addLink l) ∨ g₁.destroy id false = .ok g') := by
  simp only [createReference, bind_eq_ok] at h
  obtain ⟨target, -, h⟩ := h
  cases target with
  | none =>
    cases h
    exact .inl rfl
  | some target =>
    simp only at h
    split at h
    next =>
      cases h
      exact .inl rfl
    next =>
      obtain ⟨output, -, h⟩ := bind_eq_ok.1 h
      cases output with
      | none =>
        cases h
        exact .inl rfl
      | some output =>
        simp only [bind_eq_ok] at h
        obtain ⟨⟨id, g₁⟩, hspawn, ⟨g₂, linked⟩, hconnect, h⟩ := h
        refine .inr ⟨_, _, id, g₁, hspawn, ?_⟩
        cases linked with
        | ok _ =>
          cases h
          rcases connect_eq hconnect with ⟨-, _, ⟨⟩⟩ | ⟨l, -, hl, ⟨-, rfl⟩ | ⟨⟨⟩, -⟩ | ⟨⟨⟩, -⟩⟩
          exact .inl ⟨_, _, l, hl, rfl⟩
        | error e =>
          simp only [bind_eq_ok] at h
          obtain ⟨g₃, hdestroy, h⟩ := h
          cases h
          obtain rfl := eq_of_connect_error hconnect
          exact .inr hdestroy

theorem create_effect_of_ne {e : Edit} (he : e.creates = true) (hreference : ∀ source s, e ≠ .reference source s)
    (h : g.perform e = .ok g') : EffectBy series g e g' := by
  cases e with
  | node kind s =>
    obtain ⟨⟨id, g₁⟩, hcreate, ⟨⟩⟩ := bind_eq_ok.1 h
    exact createNode_effect hrefl hcreate
  | emptyInstruction s =>
    obtain ⟨⟨id, g₁⟩, hspawn, ⟨⟩⟩ := bind_eq_ok.1 h
    exact .create rfl (Node.buildsUnlinked_emptyInstruction _) hspawn (hrefl _) ⟨.emptyInstruction, rfl⟩
  | literal value s =>
    obtain ⟨⟨id, g₁⟩, hspawn, ⟨⟩⟩ := bind_eq_ok.1 h
    exact .create rfl (Node.buildsUnlinked_literal _ value) hspawn (hrefl _) ⟨.literal value, rfl⟩
  | declaration type name s =>
    obtain ⟨⟨id, g₁⟩, hspawn, ⟨⟩⟩ := bind_eq_ok.1 h
    exact .create rfl (Node.buildsUnlinked_declaration _ type name) hspawn (hrefl _) ⟨.declaration type name, rfl⟩
  | reference source s => exact (hreference source s rfl).elim
  | function signature s =>
    obtain ⟨⟨id, g₁⟩, hcreate, ⟨⟩⟩ := bind_eq_ok.1 h
    exact .create rfl (Node.buildsUnlinked_invokable _ _ signature) (createInvokable_spawn hcreate) (hrefl _)
      ⟨.invokable .function signature rfl, rfl⟩
  | operator signature s =>
    obtain ⟨⟨id, g₁⟩, hcreate, ⟨⟩⟩ := bind_eq_ok.1 h
    exact .create rfl (Node.buildsUnlinked_invokable _ _ signature) (createInvokable_spawn hcreate) (hrefl _)
      ⟨.invokable .operator signature rfl, rfl⟩
  | conditional c s =>
    obtain ⟨⟨id, g₁⟩, hspawn, ⟨⟩⟩ := bind_eq_ok.1 h
    exact .block rfl (Node.buildsUnlinked_conditional _ c) hspawn ⟨c, rfl⟩
  | _ => cases he

variable (hlink : ∀ {g : Graph} {a b : SlotRef} {l : Link}, g.validateLink a b = .ok (.ok l) → series g (g.addLink l))

include hlink

theorem createReference_effect {source : NodeId} {s : ScopeId} {r : Except ConnectError NodeId}
    (h : g.createReference source s = .ok (g', r)) : EffectBy series g (.reference source s) g' := by
  rcases createReference_spawn h with rfl | ⟨type, name, id, g₁, hspawn, ⟨a, b, l, hl, rfl⟩ | hdestroy⟩
  · exact .changes rfl (hrefl _)
  · exact .create rfl (Node.buildsUnlinked_reference _ _ _) hspawn (hlink hl) ⟨.reference _ _, rfl⟩
  · exact .undo (Node.buildsUnlinked_reference _ _ _) hspawn hdestroy ⟨.reference _ _, rfl⟩

theorem create_effect {e : Edit} (he : e.creates = true) (h : g.perform e = .ok g') : EffectBy series g e g' := by
  by_cases hreference : ∃ source s, e = .reference source s
  · obtain ⟨source, s, rfl⟩ := hreference
    obtain ⟨⟨g₁, r⟩, hcreate, ⟨⟩⟩ := bind_eq_ok.1 h
    exact createReference_effect hrefl hlink hcreate
  · exact create_effect_of_ne hrefl he (fun source s heq => hreference ⟨source, s, heq⟩) h

end

/-- The slots are linked, or nothing is done, or a value is written to the input and the node that had it destroyed. -/
theorem connectOrMerge_eq {output input : SlotRef} {r : Except ConnectError (Option Link)}
    (h : g.connectOrMerge output input = .ok (g', r)) :
    (∃ linked, g.connect output input true = .ok (g', linked) ∧ r = linked.map some) ∨ (g' = g ∧ ∃ e, r = .error e) ∨
      ∃ i value, (g.modifyNode input.node (·.modifyProperty i (Property.Writing.value value).apply)).destroy
        output.node true = .ok g' ∧ r = .ok none := by
  simp only [connectOrMerge] at h
  split at h
  next =>
    obtain ⟨⟨linked, result⟩, hlinked, ⟨⟩⟩ := bind_eq_ok.1 h
    exact .inl ⟨result, hlinked, rfl⟩
  next =>
    obtain ⟨source, -, h⟩ := bind_eq_ok.1 h
    cases source with
    | none =>
      cases h
      exact .inr (.inl ⟨rfl, _, rfl⟩)
    | some source =>
      obtain ⟨looked, -, h⟩ := bind_eq_ok.1 h
      cases looked with
      | error e =>
        cases h
        exact .inr (.inl ⟨rfl, e, rfl⟩)
      | ok target =>
        simp only at h
        split at h
        next =>
          obtain ⟨⟨linked, result⟩, hlinked, ⟨⟩⟩ := bind_eq_ok.1 h
          exact .inl ⟨result, hlinked, rfl⟩
        next property _ =>
          obtain ⟨g₁, hdestroy, ⟨⟩⟩ := bind_eq_ok.1 h
          exact .inr (.inr ⟨property, source.value, hdestroy, rfl⟩)

theorem connectOrMerge_effect {output input : SlotRef} {r : Except ConnectError (Option Link)}
    (guards : Guards may) (h : g.connectOrMerge output input = .ok (g', r)) :
    EditChanges may g g' ∨ ∃ g₁, EditChanges may g g₁ ∧ g₁.destroy output.node true = .ok g' := by
  rcases connectOrMerge_eq h with ⟨linked, hlinked, -⟩ | ⟨rfl, -⟩ | ⟨i, value, hdestroy, -⟩
  · exact .inl (connect_editChanges guards hlinked)
  · exact .inl .refl
  · exact .inr ⟨_, .single (.retouch input.node i (.value value)), hdestroy⟩

/-- What is neither created nor emptied is changed, and a node may be destroyed then. -/
theorem alter_editChanges {e : Edit} (guards : Guards may) (h : g.perform e = .ok g') (he : e.creates = false)
    (hreset : e ≠ .reset) (hdrain : e ≠ .drainEvents) :
    EditChanges may g g' ∨ e.destroys = true ∧ ∃ g₁ id sideEffects, EditChanges may g g₁ ∧
    g₁.destroy id sideEffects = .ok g' := by
  cases e with
  | node | emptyInstruction | literal | declaration | reference | function | operator | conditional => cases he
  | setValue id value => exact .inl (setValue_editChanges h)
  | setPropertyValue id name value =>
    obtain ⟨⟨found, g₁⟩, hset, ⟨⟩⟩ := bind_eq_ok.1 h
    exact .inl (setPropertyValue_editChanges hset)
  | connect a b sideEffects =>
    obtain ⟨⟨g₁, r⟩, hconnect, ⟨⟩⟩ := bind_eq_ok.1 h
    exact .inl (connect_editChanges guards hconnect)
  | connectOrMerge output input =>
    obtain ⟨⟨g₁, r⟩, hconnect, ⟨⟩⟩ := bind_eq_ok.1 h
    rcases connectOrMerge_effect guards hconnect with heditChanges | ⟨g₂, heditChanges, hdestroy⟩
    · exact .inl heditChanges
    · exact .inr ⟨rfl, g₂, _, _, heditChanges, hdestroy⟩
  | disconnect link sideEffects =>
    obtain ⟨⟨g₁, r⟩, hdisconnect, ⟨⟩⟩ := bind_eq_ok.1 h
    exact .inl (disconnect_editChanges guards hdisconnect)
  | append id s =>
    obtain ⟨⟨g₁, r⟩, happend, ⟨⟩⟩ := bind_eq_ok.1 h
    exact .inl (appendToScope_editMoves (guards _) happend).editChanges
  | remove id =>
    obtain ⟨⟨g₁, r⟩, hremove, ⟨⟩⟩ := bind_eq_ok.1 h
    exact .inl (removeFromScope_editMoves hremove).editChanges
  | changeScope id s =>
    obtain ⟨⟨g₁, r⟩, hchange, ⟨⟩⟩ := bind_eq_ok.1 h
    exact .inl (changeScope_editMoves (guards _) hchange).editChanges
  | transfer source target =>
    obtain ⟨⟨g₁, r⟩, htransfer, ⟨⟩⟩ := bind_eq_ok.1 h
    exact .inl (transferChildren_editMoves (guards _) htransfer).editChanges
  | resetHead s => exact .inl (.single (.shift (.lead h)))
  | destroy id sideEffects => exact .inr ⟨rfl, g, id, sideEffects, .refl, h⟩
  | reset => exact (hreset rfl).elim
  | drainEvents => exact (hdrain rfl).elim

theorem perform_editChanges {e : Edit} (guards : Guards may) (h : g.perform e = .ok g') :
    EffectBy (EditChanges may) g e g' := by
  cases e with
  | node | emptyInstruction | literal | declaration | reference | function | operator | conditional =>
    exact create_effect (fun _ => .refl) (fun hl => .single (.link hl)) rfl h
  | reset => exact .reset h
  | drainEvents =>
    cases h
    exact .drain
  | _ =>
    rcases alter_editChanges guards h rfl nofun nofun with heditChanges | ⟨he, g₁, id, sideEffects,
        heditChanges, hdestroy⟩
    · exact .changes rfl heditChanges
    · exact .destroy he heditChanges hdestroy

theorem perform_effect {e : Edit} (guards : Guards may) (h : g.perform e = .ok g') : Effect may g e g' :=
  (perform_editChanges guards h).mono EditChanges.changes

end Graph

end FlowGraph
