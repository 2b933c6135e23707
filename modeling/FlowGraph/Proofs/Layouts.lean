import FlowGraph.Proofs.Reachability

/-!
# Layouts of reachable graphs

Links come and go, and properties are written; the slots of a node, its branch and its signature stay as they
were laid out when it was created. Only what was laid out as a conditional or as the entry point has inner
scopes, and such a node feeds nothing.
-/

namespace FlowGraph

def Slot.shape (slot : Slot) : Slot := { slot with adjacent := [], notFull := true }

namespace Slot

variable (slot : Slot) (r : SlotRef)

theorem shape_attach : (slot.attach r).shape = slot.shape := rfl

theorem shape_detach : (slot.detach r).shape = slot.shape := by
  unfold detach
  split
  · rfl
  · rfl

theorem hasFlags_shape {f : SlotFlags} (hf : f.notFull = false) : slot.shape.hasFlags f = slot.hasFlags f := by
  simp only [hasFlags, SlotFlags.contains, hf, Bool.not_false, Bool.true_or, Bool.and_true]
  rfl

theorem hasFlags_input_iff : slot.hasFlags .input = true ↔ slot.kind = .value ∧ slot.isPrimary = false := by
  simp [hasFlags, SlotFlags.contains, flags, SlotFlags.input]

theorem hasFlags_flowOut_iff : slot.hasFlags .flowOut = true ↔ slot.kind = .flow ∧ slot.isPrimary = true := by
  simp [hasFlags, SlotFlags.contains, flags, SlotFlags.flowOut]

theorem hasFlags_flowIn_iff : slot.hasFlags .flowIn = true ↔ slot.kind = .flow ∧ slot.isPrimary = false := by
  simp [hasFlags, SlotFlags.contains, flags, SlotFlags.flowIn]

end Slot

/-- A node without its links and place. Its properties are only counted. -/
def Node.shape (n : Node) : Node :=
  { n with
    properties := ⟨n.properties.toList.map fun _ => default⟩
    slots := n.slots.map Slot.shape, scope := none, internalScope := none }

namespace Node

theorem of_shape {n n' : Node} (h : n'.shape = n.shape) : n'.id = n.id ∧ n'.kind = n.kind ∧ n'.branch = n.branch ∧
    n'.signature = n.signature ∧ n'.slots.map Slot.shape = n.slots.map Slot.shape := by
  simp only [shape, Node.mk.injEq] at h
  obtain ⟨hid, hkind, -, -, hslots, -, -, hbranch, hsignature⟩ := h
  exact ⟨hid, hkind, hbranch, hsignature, hslots⟩

theorem shape_modifySlot (n : Node) (id : SlotId) {f : Slot → Slot} (hf : ∀ slot, (f slot).shape = slot.shape) :
    (n.modifySlot id f).shape = n.shape := by
  have hslots : (n.slots.modify id.index f).map Slot.shape = n.slots.map Slot.shape := by
    refine List.ext_getElem? fun i => ?_
    rw [List.getElem?_map, List.getElem?_map, List.getElem?_modify]
    split
    next => simp [Function.comp_def, hf]
    next => simp
  simp only [shape, modifySlot, hslots]

theorem shape_modifyProperty (n : Node) (i : Nat) (f : Property → Property) :
    (n.modifyProperty i f).shape = n.shape := by
  have hproperties : (n.properties.toList.modify i f).map (fun _ => (default : Property)) =
      n.properties.toList.map fun _ => default := by
    rw [List.map_const', List.map_const', List.length_modify]
  simp only [shape, modifyProperty, PropertyBag.modify, hproperties]

theorem length_filterSlots_of_shape {n n' : Node} (h : n'.shape = n.shape) {f : SlotFlags} (hf : f.notFull = false) :
    (n'.filterSlots f).length = (n.filterSlots f).length := by
  have hcount (m : Node) : (m.filterSlots f).length = (m.slots.map Slot.shape).countP (·.hasFlags f) := by
    rw [List.countP_map, filterSlots, ← List.countP_eq_length_filter]
    refine List.countP_congr fun slot _ => ?_
    rw [Function.comp_apply, slot.hasFlags_shape hf]
  rw [hcount, hcount, (of_shape h).2.2.2.2]

theorem mem_filterSlots_input {n : Node} {slot : Slot} :
    slot ∈ n.filterSlots .input ↔ slot ∈ n.slots ∧ slot.kind = .value ∧ slot.isPrimary = false := by
  rw [filterSlots, List.mem_filter, slot.hasFlags_input_iff]

theorem mem_inputs {n : Node} {x : NodeId} :
    x ∈ n.inputs ↔ ∃ slot ∈ n.filterSlots .input, ∃ r ∈ slot.adjacent, r.node = x := by
  simp only [inputs, adjacentNodes, List.mem_eraseDups, List.mem_flatMap, List.mem_map]

theorem mem_inputs_of_first {n : Node} {slot : Slot} {r : SlotRef} (hslot : slot ∈ n.filterSlots .input)
    (hr : slot.first? = some r) : r.node ∈ n.inputs :=
  mem_inputs.2 ⟨slot, hslot, r, List.mem_of_mem_head? hr, rfl⟩

end Node

namespace Node.Layout

variable {fanIn : Nat} {id : NodeId}

def kind : Layout → NodeKind
  | plain => .plain
  | emptyInstruction => .emptyInstruction
  | entryPoint => .entryPoint
  | literal _ => .literal
  | declaration _ _ => .variable
  | reference _ _ => .variableRef
  | invokable kind _ _ => kind
  | conditional c => c.kind

theorem id_build (l : Layout) : (l.build fanIn id).id = id := by
  cases l with
  | conditional c => cases c <;> rfl
  | _ => rfl

theorem kind_build (l : Layout) : (l.build fanIn id).kind = l.kind := by
  cases l with
  | conditional c => cases c <;> rfl
  | _ => rfl

theorem not_output {l : Layout} (h : l.kind.isConditional = true ∨ l.kind = .entryPoint) :
    ∀ slot ∈ (l.build fanIn id).slots, slot.kind = .value → slot.isPrimary = false := by
  cases l with
  | entryPoint => simp [build, Node.entryPoint, branchSlot]
  | conditional c =>
    cases c <;> simp [build, Node.conditional, flowInSlot, flowOutSlot, branchSlot, inputSlot]
  | invokable kind signature callable =>
    rcases h with h | h
    · cases kind <;> cases callable <;> cases h
    · cases kind <;> cases callable <;> cases h
  | _ => rcases h with h | h <;> cases h

theorem inputs_invokable {l : Layout} (h : l.kind.isInvokable = true) (fanIn : Nat) (id : NodeId) : ∃ signature,
    (l.build fanIn id).signature = some signature ∧
      ((l.build fanIn id).filterSlots .input).length = signature.arity := by
  cases l with
  | invokable kind signature callable =>
    refine ⟨signature, rfl, ?_⟩
    have hinputs : (Node.invokable kind signature fanIn id).filterSlots .input =
        (List.range signature.arity).map fun i => inputSlot (i + 3) (i + 1) := by
      simp [filterSlots, Node.invokable, Slot.hasFlags, Slot.flags, SlotFlags.contains, SlotFlags.input, flowInSlot,
        flowOutSlot, outputSlot, inputSlot]
    show ((Node.invokable kind signature fanIn id).filterSlots .input).length = _
    rw [hinputs, List.length_map, List.length_range]
  | conditional c => cases c <;> cases h
  | _ => cases h

theorem input_of_branch {l : Layout} {b : Branch} (h : (l.build fanIn id).branch = some b) {i : SlotId}
    (hi : i = b.condition ∨ b.initialization = some i ∨ b.iteration = some i) {slot : Slot}
    (hslot : (l.build fanIn id).slots[i.index]? = some slot) : slot.kind = .value ∧ slot.isPrimary = false := by
  cases l with
  | conditional c =>
    cases c with
    | ifElse | whileLoop =>
      cases h
      rcases hi with rfl | hi | hi
      · cases hslot
        exact ⟨rfl, rfl⟩
      · cases hi
      · cases hi
    | forLoop =>
      cases h
      rcases hi with rfl | hi | hi
      · cases hslot
        exact ⟨rfl, rfl⟩
      · cases hi
        cases hslot
        exact ⟨rfl, rfl⟩
      · cases hi
        cases hslot
        exact ⟨rfl, rfl⟩
  | _ => cases h

/-- The inputs of a node are numbered like the properties they are on. -/
theorem exists_offset (l : Layout) (fanIn : Nat) (id : NodeId) : ∃ offset, ∀ (i : Nat) (slot : Slot),
    (l.build fanIn id).slots[i]? = some slot → slot.kind = .value → slot.isPrimary = false →
      i = slot.property + offset ∧ slot.property < (l.build fanIn id).properties.size := by
  cases l with
  | plain | emptyInstruction | entryPoint | literal =>
    refine ⟨0, fun i slot hslot hkind hprimary => ?_⟩
    have hmem := List.mem_of_getElem? hslot
    simp only [build, Node.plain, Node.emptyInstruction, Node.entryPoint, Node.literal, List.mem_cons,
      List.not_mem_nil, or_false] at hmem
    have hnone : ¬(slot.kind = .value ∧ slot.isPrimary = false) := by
      rcases hmem with rfl | rfl | rfl <;> simp [flowInSlot, flowOutSlot, outputSlot, branchSlot]
    exact (hnone ⟨hkind, hprimary⟩).elim
  | declaration type name =>
    refine ⟨2, fun i slot hslot hkind hprimary => ?_⟩
    rcases i with _ | _ | _ | _ | i <;> cases hslot
    · cases hkind
    · cases hkind
    · exact ⟨rfl, Nat.zero_lt_one⟩
    · cases hprimary
  | reference type name =>
    refine ⟨0, fun i slot hslot hkind hprimary => ?_⟩
    rcases i with _ | _ | i <;> cases hslot
    · exact ⟨rfl, Nat.zero_lt_one⟩
    · cases hprimary
  | invokable kind signature callable =>
    refine ⟨2, fun i slot hslot hkind hprimary => ?_⟩
    rcases i with _ | _ | _ | i
    · cases hslot
      cases hkind
    · cases hslot
      cases hkind
    · cases hslot
      cases hprimary
    · have harg : ((List.range signature.arity).map fun i => inputSlot (i + 3) (i + 1))[i]? = some slot := hslot
      rw [List.getElem?_map, Option.map_eq_some_iff] at harg
      obtain ⟨j, hj, rfl⟩ := harg
      obtain ⟨hlt, rfl⟩ := List.getElem?_eq_some_iff.1 hj
      rw [List.length_range] at hlt
      rw [List.getElem_range]
      refine ⟨rfl, ?_⟩
      have hsize : ((invokable kind signature callable).build fanIn id).properties.size = signature.arity + 1 := by
        simp [build, Node.invokable, PropertyBag.size, Signature.arity]
      rw [hsize]
      exact Nat.succ_lt_succ hlt
  | conditional c =>
    have hinputs (rest : List Slot) (size : Nat) (hsize : 1 < size)
        (hrest : ∀ (i : Nat) (slot : Slot), rest[i]? = some slot → i + 2 = slot.property ∧ slot.property < size)
        (i : Nat) (slot : Slot)
        (hslot : ([flowInSlot 0 fanIn, flowOutSlot 1, branchSlot 2 .onFalse, branchSlot 3 .onTrue, inputSlot 4 1] ++
          rest)[i]? = some slot) (hkind : slot.kind = .value) : i = slot.property + 3 ∧ slot.property < size := by
      by_cases hi : i < 5
      · have hfront : [flowInSlot 0 fanIn, flowOutSlot 1, branchSlot 2 .onFalse, branchSlot 3 .onTrue,
            inputSlot 4 1][i]? = some slot := by rwa [List.getElem?_append_left hi] at hslot
        rcases i with _ | _ | _ | _ | _ | i <;> cases hfront
        on_goal 5 => exact ⟨rfl, hsize⟩
        all_goals cases hkind
      · rw [List.getElem?_append_right (Nat.le_of_not_lt hi)] at hslot
        obtain ⟨hproperty, hlt⟩ := hrest _ slot hslot
        simp only [List.length_cons, List.length_nil] at hproperty
        exact ⟨by omega, hlt⟩
    refine ⟨3, fun i slot hslot hkind _ => ?_⟩
    cases c with
    | ifElse | whileLoop => exact hinputs [] 2 (by decide) (fun _ _ h => by cases h) i slot hslot hkind
    | forLoop =>
      refine hinputs [inputSlot 5 2, inputSlot 6 3] 4 (by decide) (fun i slot hslot => ?_) i slot hslot hkind
      rcases i with _ | _ | i <;> cases hslot
      · exact ⟨rfl, by decide⟩
      · exact ⟨rfl, by decide⟩

/-- An input takes one link. It is on the value of its node if that is a variable or refers to one, and other nodes
that have inputs are called or are conditionals. -/
theorem input_traits (l : Layout) {slot : Slot} (hslot : slot ∈ (l.build fanIn id).slots) (hkind : slot.kind = .value)
    (hprimary : slot.isPrimary = false) : slot.capacity = 1 ∧
      (slot.property = 0 ∧ (l.kind = .variable ∨ l.kind = .variableRef) ∨
        slot.property ≠ 0 ∧ (l.kind.isInvokable = true ∨ l.kind.isConditional = true)) := by
  have hnot (h : slot.kind = .flow ∨ slot.isPrimary = true) : False := by
    rcases h with h | h
    · cases hkind.symm.trans h
    · cases hprimary.symm.trans h
  cases l with
  | plain | emptyInstruction | entryPoint | literal =>
    simp only [build, Node.plain, Node.emptyInstruction, Node.entryPoint, Node.literal, List.mem_cons,
      List.not_mem_nil, or_false] at hslot
    refine (hnot ?_).elim
    rcases hslot with rfl | rfl | rfl <;> simp [flowInSlot, flowOutSlot, outputSlot, branchSlot]
  | declaration type name =>
    simp only [build, Node.declaration, List.mem_cons, List.not_mem_nil, or_false] at hslot
    rcases hslot with rfl | rfl | rfl | rfl
    · exact (hnot (.inl rfl)).elim
    · exact (hnot (.inl rfl)).elim
    · exact ⟨rfl, .inl ⟨rfl, .inl rfl⟩⟩
    · exact (hnot (.inr rfl)).elim
  | reference type name =>
    simp only [build, Node.reference, List.mem_cons, List.not_mem_nil, or_false] at hslot
    rcases hslot with rfl | rfl
    · exact ⟨rfl, .inl ⟨rfl, .inr rfl⟩⟩
    · exact (hnot (.inr rfl)).elim
  | invokable kind signature callable =>
    simp only [build, Node.invokable, List.mem_cons, List.mem_map] at hslot
    rcases hslot with rfl | rfl | rfl | ⟨i, -, rfl⟩
    · exact (hnot (.inl rfl)).elim
    · exact (hnot (.inl rfl)).elim
    · exact (hnot (.inr rfl)).elim
    · exact ⟨rfl, .inr ⟨Nat.succ_ne_zero i, .inl callable⟩⟩
  | conditional c =>
    have hconditional : (conditional c).kind.isConditional = true := by cases c <;> rfl
    have hinput : slot = flowInSlot 0 fanIn ∨ slot = flowOutSlot 1 ∨ slot = branchSlot 2 .onFalse ∨
        slot = branchSlot 3 .onTrue ∨ slot = inputSlot 4 1 ∨ slot = inputSlot 5 2 ∨ slot = inputSlot 6 3 := by
      cases c with
      | ifElse | whileLoop =>
        simp only [build, Node.conditional, List.mem_cons, List.not_mem_nil, or_false] at hslot
        tauto
      | forLoop =>
        simpa only [build, Node.conditional, List.cons_append, List.nil_append, List.mem_cons, List.not_mem_nil,
          or_false] using hslot
    rcases hinput with rfl | rfl | rfl | rfl | rfl | rfl | rfl
    · exact (hnot (.inl rfl)).elim
    · exact (hnot (.inl rfl)).elim
    · exact (hnot (.inl rfl)).elim
    · exact (hnot (.inl rfl)).elim
    all_goals exact ⟨rfl, .inr ⟨by decide, .inr hconditional⟩⟩

end Node.Layout

namespace Graph

structure HasLayouts (g : Graph) : Prop where
  shaped {x : NodeId} {n : Node} : g.nodeAt? x = some n →
    ∃ l : Node.Layout, n.shape = (l.build g.config.fanIn x).shape
  framed {x : NodeId} {n : Node} {i : ScopeId} : g.nodeAt? x = some n → n.internalScope = some i →
    n.kind.isConditional = true ∨ n.kind = .entryPoint

variable {may : Graph → NodeId → ScopeId → Prop} {g g' : Graph} {id : NodeId} {n : Node}

def SurvivorsRelated (R : Node → Node → Prop) (g g' : Graph) : Prop :=
  ∀ x n', g'.nodeAt? x = some n' → ∃ n, g.nodeAt? x = some n ∧ R n n'

end Graph

namespace Node

structure KeptByEdits (R : Node → Node → Prop) : Prop where
  refl (n : Node) : R n n
  trans {n₁ n₂ n₃ : Node} : R n₁ n₂ → R n₂ n₃ → R n₁ n₃
  moved (n : Node) (scope : Option ScopeId) : R n { n with scope }
  retouched (n : Node) (i : Nat) (w : Property.Writing) : R n (n.modifyProperty i w.apply)
  relinked (n : Node) (id : SlotId) {f : Slot → Slot} : (∀ slot, (f slot).shape = slot.shape) → R n (n.modifySlot id f)

theorem keptByEdits_shape : KeptByEdits fun n n' => n'.shape = n.shape where
  refl _ := rfl
  trans h h' := h'.trans h
  moved _ _ := rfl
  retouched n i w := n.shape_modifyProperty i w.apply
  relinked n id _ hf := n.shape_modifySlot id hf

namespace KeptByEdits

open FlowGraph.Graph

variable {R : Node → Node → Prop} {may : Graph → NodeId → ScopeId → Prop} {g g' g₁ g₂ g₃ : Graph} {id : NodeId}

theorem survivorsRelated_of_nodes (hR : KeptByEdits R) (h : ∀ x, g'.nodeAt? x = g.nodeAt? x) :
    SurvivorsRelated R g g' :=
  fun x n hn => ⟨n, (h x).symm.trans hn, hR.refl n⟩

theorem survivorsRelated_refl (hR : KeptByEdits R) (g : Graph) : SurvivorsRelated R g g :=
  hR.survivorsRelated_of_nodes fun _ => rfl

theorem survivorsRelated_trans (hR : KeptByEdits R) (h : SurvivorsRelated R g₁ g₂) (h' : SurvivorsRelated R g₂ g₃) :
    SurvivorsRelated R g₁ g₃ := by
  intro x n₃ hn₃
  obtain ⟨n₂, hn₂, hsecond⟩ := h' x n₃ hn₃
  obtain ⟨n₁, hn₁, hfirst⟩ := h x n₂ hn₂
  exact ⟨n₁, hn₁, hR.trans hfirst hsecond⟩

theorem modifyNode (hR : KeptByEdits R) {f : Node → Node} (hf : ∀ n, R n (f n)) :
    SurvivorsRelated R g (g.modifyNode id f) := by
  intro x n' hn'
  rw [nodeAt?_modifyNode] at hn'
  split at hn'
  next =>
    obtain ⟨n, hn, rfl⟩ := Option.map_eq_some_iff.1 hn'
    exact ⟨n, hn, hf n⟩
  next => exact ⟨n', hn', hR.refl n'⟩

theorem modifySlot (hR : KeptByEdits R) (r : SlotRef) {f : Slot → Slot} (hf : ∀ slot, (f slot).shape = slot.shape) :
    SurvivorsRelated R g (g.modifySlot r f) :=
  hR.modifyNode fun n => hR.relinked n r.slot hf

theorem modifyScope (hR : KeptByEdits R) (s : ScopeId) (f : Scope → Scope) : SurvivorsRelated R g (g.modifyScope s f) :=
  hR.survivorsRelated_of_nodes (nodeAt?_modifyScope f)

theorem modifyLinks (hR : KeptByEdits R) (kind : SlotKind) (f : List Link → List Link) :
    SurvivorsRelated R g (g.modifyLinks kind f) :=
  hR.survivorsRelated_of_nodes (nodeAt?_modifyLinks kind f)

theorem emit (hR : KeptByEdits R) (e : Event) : SurvivorsRelated R g (g.emit e) :=
  hR.survivorsRelated_of_nodes (nodeAt?_emit e)

theorem move (hR : KeptByEdits R) (h : Graph.Move may g g') : SurvivorsRelated R g g' := by
  cases h with
  | note e => exact hR.emit e
  | enter => exact hR.survivorsRelated_trans (hR.modifyNode (hR.moved · _)) (hR.modifyScope _ _)
  | leave => exact hR.survivorsRelated_trans (hR.modifyNode (hR.moved · _)) (hR.modifyScope _ _)
  | declare => exact hR.modifyScope _ _
  | lead => exact hR.modifyScope _ _

theorem change (hR : KeptByEdits R) (h : Change may g g') : SurvivorsRelated R g g' := by
  cases h with
  | move h => exact hR.move h
  | retouch id i w => exact hR.modifyNode fun n => hR.retouched n i w
  | @link _ _ l =>
    exact hR.survivorsRelated_trans (hR.modifySlot _ (Slot.shape_attach · l.head)) <|
      hR.survivorsRelated_trans (hR.modifySlot _ (Slot.shape_attach · l.tail)) <|
      hR.survivorsRelated_trans (hR.modifyLinks _ _) (hR.emit _)
  | @unlink l =>
    exact hR.survivorsRelated_trans (hR.modifyLinks _ _) <| hR.survivorsRelated_trans
      (hR.modifySlot _ (Slot.shape_detach · l.head)) <|
      hR.survivorsRelated_trans (hR.modifySlot _ (Slot.shape_detach · l.tail)) (hR.emit _)

theorem step (hR : KeptByEdits R) (h : Step may g g') : SurvivorsRelated R g g' := by
  cases h with
  | change h => exact hR.change h
  | discard _ _ _ _ _ hs =>
    intro x n hn
    rw [hs.nodeAt?] at hn
    split at hn
    next => cases hn
    next => exact ⟨n, hn, hR.refl n⟩

theorem steps (hR : KeptByEdits R) (h : Steps may g g') : SurvivorsRelated R g g' := by
  induction h with
  | refl => exact hR.survivorsRelated_refl g
  | tail _ hstep ih => exact hR.survivorsRelated_trans ih (hR.step hstep)

end KeptByEdits

end Node

namespace Graph

variable {may : Graph → NodeId → ScopeId → Prop} {g g' : Graph} {id : NodeId} {n : Node}

def ShapesKept (g g' : Graph) : Prop :=
  ∀ x n', g'.nodeAt? x = some n' → ∃ n, g.nodeAt? x = some n ∧ n'.shape = n.shape

theorem Step.shapesKept (h : Step may g g') : ShapesKept g g' := Node.keptByEdits_shape.step h

theorem Steps.shapesKept (h : Steps may g g') : ShapesKept g g' := Node.keptByEdits_shape.steps h

theorem Change.shapesKept (h : Change may g g') : ShapesKept g g' := Step.shapesKept (.change h)

theorem Changes.shapesKept (h : Changes may g g') : ShapesKept g g' := h.steps.shapesKept

namespace HasLayouts

theorem survivorsKept (h : HasLayouts g) (hl : SurvivorsKept g g') (hm : ShapesKept g g') : HasLayouts g' := by
  refine ⟨?_, ?_⟩
  · intro x n' hn'
    obtain ⟨n, hn, hshape⟩ := hm x n' hn'
    obtain ⟨l, hl'⟩ := h.shaped hn
    exact ⟨l, by rw [hshape, hl', hl.config]⟩
  · intro x n' i hn' hi
    obtain ⟨n, hn, hskeleton⟩ := hl.node hn'
    obtain ⟨hkind, -, hinternal⟩ := Node.of_skeleton hskeleton
    rw [hkind]
    exact h.framed hn (hinternal.symm.trans hi)

theorem steps (h : HasLayouts g) (hsteps : Steps may g g') : HasLayouts g' :=
  h.survivorsKept hsteps.survivorsKept hsteps.shapesKept

theorem changes (h : HasLayouts g) (hchanges : Changes may g g') : HasLayouts g' := h.steps hchanges.steps

theorem congr (h : HasLayouts g) (hnodes : ∀ x, g'.nodeAt? x = g.nodeAt? x) (hconfig : g'.config = g.config) :
    HasLayouts g' := by
  refine ⟨?_, ?_⟩
  · intro x n hn
    rw [hconfig]
    exact h.shaped ((hnodes x).symm.trans hn)
  · intro x n i hn
    exact h.framed ((hnodes x).symm.trans hn)

theorem spawn {l : Node.Layout} {partitions : Option Nat} {s : Option ScopeId} (h : HasLayouts g)
    (hbuildsUnlinked : BuildsUnlinked g.config.fanIn (l.build g.config.fanIn))
    (hframed : partitions = none ∨ l.kind.isConditional = true ∨ l.kind = .entryPoint)
    (hspawn : g.spawn (l.build g.config.fanIn) partitions s = .ok (id, g')) : HasLayouts g' := by
  obtain ⟨n, ps, g₁, hnew, hplain, heditMoves⟩ := spawn_editMoves hbuildsUnlinked hspawn
  have hlayouts : HasLayouts g₁ := by
    refine ⟨?_, ?_⟩
    · intro x m hm
      rw [hnew.config]
      rw [hnew.nodeAt?] at hm
      split at hm
      next hx =>
        cases hm
        refine ⟨l, ?_⟩
        rw [hnew.built, hx]
        rfl
      next => exact h.shaped hm
    · intro x m i hm hi
      rw [hnew.nodeAt?] at hm
      split at hm
      next =>
        cases hm
        rw [hnew.kind, l.kind_build]
        rcases hframed with hnone | hframed
        · cases (Option.map_eq_none_iff.1 (hplain.symm.trans hnone)).symm.trans hi
        · exact hframed
      next => exact h.framed hm hi
  exact hlayouts.changes heditMoves.moves.changes

end HasLayouts

theorem HoldsNothing.hasLayouts (h : HoldsNothing g) (hspawn : g.spawnEntryPoint = .ok g') : HasLayouts g' := by
  simp only [spawnEntryPoint, bind_eq_ok, pure_eq_ok] at hspawn
  obtain ⟨⟨id, g₁⟩, hg₁, rfl⟩ := hspawn
  have hlayouts : HasLayouts g := by
    refine ⟨?_, ?_⟩ <;> simp [h.nodeAt?]
  exact (hlayouts.spawn (l := .entryPoint) (Node.buildsUnlinked_entryPoint _) (.inr (.inr rfl)) hg₁).congr
    (fun _ => rfl) rfl

theorem HasLayouts.perform {e : Edit} (h : HasLayouts g) (hw : WellFormed g) (hperform : g.perform e = .ok g') :
    HasLayouts g' := by
  cases perform_effect guards_always hperform with
  | changes _ hchanges => exact h.changes hchanges
  | create _ hbuildsUnlinked hspawn hchanges hlayout =>
    obtain ⟨l, rfl⟩ := hlayout
    exact (h.spawn hbuildsUnlinked (.inl rfl) hspawn).changes hchanges
  | block _ hbuildsUnlinked hspawn hlayout =>
    obtain ⟨c, rfl⟩ := hlayout
    have hconditional : (Node.Layout.conditional c).kind.isConditional = true := by cases c <;> rfl
    exact h.spawn (l := .conditional c) hbuildsUnlinked (.inr (.inl hconditional)) hspawn
  | undo hbuildsUnlinked hspawn hdestroy hlayout =>
    obtain ⟨l, rfl⟩ := hlayout
    exact (h.spawn hbuildsUnlinked (.inl rfl) hspawn).steps
      (destroy_steps guards_always (hw.spawn hbuildsUnlinked hspawn).toLinksScopesValid hdestroy)
  | destroy _ hchanges hdestroy =>
    exact (h.changes hchanges).steps (destroy_steps guards_always (hw.changes hchanges).toLinksScopesValid hdestroy)
  | reset hreset =>
    obtain ⟨g₀, hholdsNothing, -, -, hspawn⟩ := reset_eq hw.nodesListed hreset
    exact hholdsNothing.hasLayouts hspawn
  | drain => exact h.congr (fun _ => rfl) rfl

theorem Reachable.hasLayouts (h : Reachable g) : HasLayouts g := by
  induction h with
  | create hcreate =>
    obtain ⟨g₀, hholdsNothing, -, -, hspawn⟩ := create_eq hcreate
    exact hholdsNothing.hasLayouts hspawn
  | edit e hreachable hperform ih => exact ih.perform hreachable.wellFormed hperform
  | issued _ _ ih => exact ih.congr (fun _ => rfl) rfl

namespace HasLayouts

theorem id_eq (h : HasLayouts g) (hn : g.nodeAt? id = some n) : n.id = id := by
  obtain ⟨l, hshape⟩ := h.shaped hn
  exact (Node.of_shape hshape).1.trans l.id_build

theorem exists_built (h : HasLayouts g) (hn : g.nodeAt? id = some n) {i : Nat} {slot : Slot}
    (hslot : n.slots[i]? = some slot) :
    ∃ (l : Node.Layout) (built : Slot), n.kind = l.kind ∧ (l.build g.config.fanIn id).slots[i]? = some built ∧
      built.shape = slot.shape := by
  obtain ⟨l, hshape⟩ := h.shaped hn
  obtain ⟨-, hkind, -, -, hslots⟩ := Node.of_shape hshape
  have hlayouts : (n.slots.map Slot.shape)[i]? = some slot.shape := by rw [List.getElem?_map, hslot, Option.map_some]
  rw [hslots, List.getElem?_map, Option.map_eq_some_iff] at hlayouts
  obtain ⟨built, hbuilt, heq⟩ := hlayouts
  exact ⟨l, built, hkind.trans l.kind_build, hbuilt, heq⟩

theorem not_framed_of_output (h : HasLayouts g) (hn : g.nodeAt? id = some n) {slot : Slot} (hslot : slot ∈ n.slots)
    (hkind : slot.kind = .value) (hprimary : slot.isPrimary = true) :
    ¬(n.kind.isConditional = true ∨ n.kind = .entryPoint) := by
  obtain ⟨l, hshape⟩ := h.shaped hn
  obtain ⟨-, hkind', -, -, hslots⟩ := Node.of_shape hshape
  have hmem : slot.shape ∈ (l.build g.config.fanIn id).slots.map Slot.shape :=
    hslots ▸ List.mem_map_of_mem hslot
  obtain ⟨slot', hslot', heq⟩ := List.mem_map.1 hmem
  simp only [Slot.shape, Slot.mk.injEq] at heq
  obtain ⟨-, -, hvalue, houtput, -⟩ := heq
  intro hframed
  rw [hkind', l.kind_build] at hframed
  cases (houtput.trans hprimary).symm.trans
    (Node.Layout.not_output hframed slot' hslot' (hvalue.trans hkind))

theorem plain_of_output (h : HasLayouts g) (hn : g.nodeAt? id = some n) {slot : Slot} (hslot : slot ∈ n.slots)
    (hkind : slot.kind = .value) (hprimary : slot.isPrimary = true) :
    n.internalScope = none ∧ n.kind.isConditional = false := by
  have hplain := h.not_framed_of_output hn hslot hkind hprimary
  refine ⟨?_, ?_⟩
  · cases hi : n.internalScope with
    | none => rfl
    | some i => exact (hplain (h.framed hn hi)).elim
  · exact Bool.eq_false_iff.2 fun hconditional => hplain (.inl hconditional)

theorem plain_of_source (h : HasLayouts g) (hw : LinksMatch g) {r r' : SlotRef} {slot : Slot}
    (hslot : g.slotAt? r = some slot) (hkind : slot.kind = .value) (hprimary : slot.isPrimary = false)
    (hr' : r' ∈ slot.adjacent) :
    ∃ m, g.nodeAt? r'.node = some m ∧ m.internalScope = none ∧ m.kind.isConditional = false := by
  have hlink := hw.registered hslot hr'
  rw [Slot.linkTo, hprimary, if_neg Bool.false_ne_true, hkind] at hlink
  obtain ⟨-, -, tail, -, htail, -, htailKind, -, htailPrimary, -⟩ := hw.joined hlink
  obtain ⟨m, hm, htail⟩ := Option.bind_eq_some_iff.1 htail
  exact ⟨m, hm, h.plain_of_output hm (List.mem_of_getElem? htail) htailKind htailPrimary⟩

theorem plain_of_input (h : HasLayouts g) (hw : LinksMatch g) (hn : g.nodeAt? id = some n) {x : NodeId}
    (hx : x ∈ n.inputs) :
    ∃ m, g.nodeAt? x = some m ∧ m.internalScope = none ∧ m.kind.isConditional = false := by
  obtain ⟨slot, hslot, r, hr, rfl⟩ := Node.mem_inputs.1 hx
  obtain ⟨hmem, hkind, hprimary⟩ := Node.mem_filterSlots_input.1 hslot
  obtain ⟨i, hi⟩ := List.getElem?_of_mem hmem
  exact h.plain_of_source hw (r := ⟨id, ⟨i⟩⟩) (Option.bind_eq_some_iff.2 ⟨n, hn, hi⟩) hkind hprimary hr

theorem input_of_branch (h : HasLayouts g) (hn : g.nodeAt? id = some n) {b : Branch} (hb : n.branch = some b)
    {i : SlotId} (hi : i = b.condition ∨ b.initialization = some i ∨ b.iteration = some i) {slot : Slot}
    (hslot : n.slot? i = some slot) : slot.kind = .value ∧ slot.isPrimary = false := by
  obtain ⟨l, hshape⟩ := h.shaped hn
  obtain ⟨-, -, hbranch, -, hslots⟩ := Node.of_shape hshape
  have hlayouts : (n.slots.map Slot.shape)[i.index]? = some slot.shape := by
    rw [List.getElem?_map]
    exact congrArg (Option.map Slot.shape) hslot
  rw [hslots, List.getElem?_map, Option.map_eq_some_iff] at hlayouts
  obtain ⟨slot', hslot', heq⟩ := hlayouts
  obtain ⟨hvalue, hprimary⟩ := Node.Layout.input_of_branch (hbranch.symm.trans hb) hi hslot'
  simp only [Slot.shape, Slot.mk.injEq] at heq
  obtain ⟨-, -, hkind, horder, -⟩ := heq
  exact ⟨hkind.symm.trans hvalue, horder.symm.trans hprimary⟩

theorem plain_of_branch (h : HasLayouts g) (hw : LinksMatch g) (hn : g.nodeAt? id = some n) {b : Branch}
    (hb : n.branch = some b) {i : SlotId} (hi : i = b.condition ∨ b.initialization = some i ∨ b.iteration = some i)
    {r : SlotRef} (hr : (n.slot? i).bind Slot.first? = some r) :
    ∃ m, g.nodeAt? r.node = some m ∧ m.internalScope = none ∧ m.kind.isConditional = false := by
  obtain ⟨slot, hslot, hr⟩ := Option.bind_eq_some_iff.1 hr
  obtain ⟨hkind, hprimary⟩ := h.input_of_branch hn hb hi hslot
  exact h.plain_of_source hw (r := ⟨id, i⟩) (Option.bind_eq_some_iff.2 ⟨n, hn, hslot⟩) hkind hprimary
    (List.mem_of_mem_head? hr)

theorem value_of_reference (h : HasLayouts g) (hn : g.nodeAt? id = some n) (hkind : n.kind = .variableRef) :
    ∀ slot ∈ n.slots, slot.kind = .value := by
  intro slot hslot
  obtain ⟨l, hshape⟩ := h.shaped hn
  obtain ⟨-, hkind', -, -, hslots⟩ := Node.of_shape hshape
  have hreference : l.kind = .variableRef := by rw [← l.kind_build, ← hkind', hkind]
  have hmem : slot.shape ∈ (l.build g.config.fanIn id).slots.map Slot.shape := hslots ▸ List.mem_map_of_mem hslot
  obtain ⟨slot', hslot', heq⟩ := List.mem_map.1 hmem
  simp only [Slot.shape, Slot.mk.injEq] at heq
  rw [← heq.2.2.1]
  cases l with
  | reference type name =>
    simp only [Node.Layout.build, Node.reference, List.mem_cons, List.not_mem_nil, or_false] at hslot'
    rcases hslot' with rfl | rfl <;> rfl
  | conditional c => cases c <;> cases hreference
  | invokable kind signature callable =>
    obtain rfl : kind = .variableRef := hreference
    cases callable
  | _ => cases hreference

theorem exists_valueIn (h : HasLayouts g) (hn : g.nodeAt? id = some n) (hkind : n.kind = .variableRef) :
    ∃ slot, n.valueIn? = some slot := by
  obtain ⟨l, hshape⟩ := h.shaped hn
  obtain ⟨-, hkind', -, -, hslots⟩ := Node.of_shape hshape
  have hreference : l.kind = .variableRef := by rw [← l.kind_build, ← hkind', hkind]
  have hinput : (Node.inputSlot 0 0).shape ∈ (l.build g.config.fanIn id).slots.map Slot.shape := by
    cases l with
    | reference type name => exact List.mem_cons_self
    | conditional c => cases c <;> cases hreference
    | invokable kind signature callable =>
      obtain rfl : kind = .variableRef := hreference
      cases callable
    | _ => cases hreference
  rw [← hslots] at hinput
  obtain ⟨slot, hslot, hshape⟩ := List.mem_map.1 hinput
  have hflags : slot.hasFlags .input = true := by
    rw [← Slot.hasFlags_shape slot rfl, hshape]
    rfl
  have hproperty : slot.property = 0 := congrArg Slot.property hshape
  refine Option.isSome_iff_exists.1 (List.find?_isSome.2 ⟨slot, List.mem_filter.2 ⟨hslot, hflags⟩, ?_⟩)
  rw [hproperty]
  rfl

theorem inputs_apart (h : HasLayouts g) (hn : g.nodeAt? id = some n) : ∃ offset, ∀ (i : Nat) (slot : Slot),
    n.slots[i]? = some slot → slot.kind = .value → slot.isPrimary = false →
      i = slot.property + offset ∧ slot.property < n.properties.size := by
  obtain ⟨l, hshape⟩ := h.shaped hn
  obtain ⟨offset, hoffset⟩ := l.exists_offset g.config.fanIn id
  have hsize : n.properties.size = (l.build g.config.fanIn id).properties.size := by
    have hproperties := congrArg (fun n : Node => n.properties.size) hshape
    simpa [Node.shape, PropertyBag.size] using hproperties
  refine ⟨offset, fun i slot hslot hkind hprimary => ?_⟩
  have hlayouts : (n.slots.map Slot.shape)[i]? = some slot.shape := by rw [List.getElem?_map, hslot, Option.map_some]
  rw [(Node.of_shape hshape).2.2.2.2, List.getElem?_map, Option.map_eq_some_iff] at hlayouts
  obtain ⟨slot', hslot', heq⟩ := hlayouts
  simp only [Slot.shape, Slot.mk.injEq] at heq
  obtain ⟨-, hproperty, hkind', hprimary', -⟩ := heq
  obtain ⟨hi, hlt⟩ := hoffset i slot' hslot' (hkind'.trans hkind) (hprimary'.trans hprimary)
  exact ⟨hproperty ▸ hi, hsize ▸ hproperty ▸ hlt⟩

theorem input_traits (h : HasLayouts g) (hn : g.nodeAt? id = some n) {slot : Slot} (hslot : slot ∈ n.slots)
    (hkind : slot.kind = .value) (hprimary : slot.isPrimary = false) : slot.capacity = 1 ∧
      (slot.property = 0 ∧ n.isVariableLike = true ∨
        slot.property ≠ 0 ∧ (n.isInvokable = true ∨ n.kind.isConditional = true)) := by
  obtain ⟨l, hshape⟩ := h.shaped hn
  obtain ⟨-, hkind', -, -, hslots⟩ := Node.of_shape hshape
  rw [l.kind_build] at hkind'
  have hmem : slot.shape ∈ (l.build g.config.fanIn id).slots.map Slot.shape := hslots ▸ List.mem_map_of_mem hslot
  obtain ⟨slot', hslot', heq⟩ := List.mem_map.1 hmem
  simp only [Slot.shape, Slot.mk.injEq] at heq
  obtain ⟨-, hproperty, hvalue, horder, -, hcapacity, -⟩ := heq
  have htraits := l.input_traits hslot' (hvalue.trans hkind) (horder.trans hprimary)
  rw [hproperty, hcapacity, ← hkind'] at htraits
  simpa only [Node.isVariableLike, Node.isInvokable, Bool.or_eq_true, beq_iff_eq] using htraits

theorem inputs_of_invokable (h : HasLayouts g) (hn : g.nodeAt? id = some n) (hinvokable : n.isInvokable = true) :
    ∃ signature, n.signature = some signature ∧ (n.filterSlots .input).length = signature.arity := by
  obtain ⟨l, hshape⟩ := h.shaped hn
  obtain ⟨-, hkind, -, hsignature, -⟩ := Node.of_shape hshape
  rw [Node.isInvokable, hkind, l.kind_build] at hinvokable
  obtain ⟨signature, hs, harity⟩ := Node.Layout.inputs_invokable hinvokable g.config.fanIn id
  exact ⟨signature, hsignature.trans hs, (Node.length_filterSlots_of_shape hshape rfl).trans harity⟩

end HasLayouts

end Graph

end FlowGraph
