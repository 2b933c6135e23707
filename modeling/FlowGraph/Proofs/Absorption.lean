import FlowGraph.Proofs.Entrances
import FlowGraph.Proofs.Merging

/-!
# Absorbed literals

A literal is linked to an input, or merged into it and gone. Between the graphs that come out, the one difference in
what programs are made of is where the reader has the value from: from the literal in the first, and as its
input's own in the second.
-/

namespace FlowGraph

theorem forall₂_modify {α : Type} {R : α → α → Prop} {as : List α} {i : Nat} {f : α → α}
    (hi : ∀ a, as[i]? = some a → R (f a) a) (hother : ∀ j a, j ≠ i → as[j]? = some a → R a a) :
    List.Forall₂ R (as.modify i f) as := by
  induction as generalizing i with
  | nil =>
    rw [List.modify_nil]
    exact .nil
  | cons a as ih =>
    cases i with
    | zero =>
      refine .cons (hi a rfl) (List.forall₂_same.2 fun b hb => ?_)
      obtain ⟨j, hj⟩ := List.getElem?_of_mem hb
      exact hother (j + 1) b (Nat.succ_ne_zero j) hj
    | succ i =>
      refine .cons (hother 0 a (Nat.succ_ne_zero i).symm rfl) (ih hi fun j b hj hb => ?_)
      exact hother (j + 1) b (fun heq => hj (Nat.succ.inj heq)) hb

theorem rel_find? {α β : Type} {R : α → β → Prop} {p : α → Bool} {q : β → Bool} (hpq : ∀ a b, R a b → p a = q b)
    {as : List α} {bs : List β} (h : List.Forall₂ R as bs) : Option.Rel R (as.find? p) (bs.find? q) := by
  induction h with
  | nil => exact .none
  | @cons a b _ _ hab _ ih =>
    rw [List.find?_cons, List.find?_cons, hpq a b hab]
    cases q b with
    | true => exact .some hab
    | false => exact ih

namespace Scope

def bare (sc : Scope) : Scope := { sc with children := [] }

theorem of_bare {sc sc' : Scope} (h : sc'.bare = sc.bare) : sc'.owner = sc.owner ∧ sc'.partitions = sc.partitions ∧
    sc'.declared = sc.declared ∧ sc'.head = sc.head := by
  simp only [bare, Scope.mk.injEq] at h
  obtain ⟨-, howner, -, hpartitions, -, hdeclared, hhead⟩ := h
  exact ⟨howner, hpartitions, hdeclared, hhead⟩

theorem bare_forget {sc : Scope} {id : NodeId} (hdeclared : id ∉ sc.declared) (hhead : sc.head ≠ some id) :
    (sc.forget id).bare = sc.bare := by
  have hkept : sc.declared.filter (· != id) = sc.declared := by
    rw [List.filter_eq_self]
    intro v hv
    rw [bne_iff_ne]
    rintro rfl
    exact hdeclared hv
  simp only [forget, bare, hkept, if_neg hhead]

end Scope

theorem Property.flags_setType (p : Property) (type : ValueType) : (p.setType type).flags = p.flags := by
  unfold setType
  split
  next => rfl
  next => rfl

namespace Node

section

variable {n : Node} {i j : Nat} {f : Property → Property}

theorem property_modifyProperty (h : i < n.properties.size) :
    (n.modifyProperty i f).property i = f (n.property i) := by
  simp only [property, modifyProperty, PropertyBag.get?, PropertyBag.modify, List.getElem?_modify_eq]
  rw [List.getElem?_eq_getElem h]
  rfl

theorem property_modifyProperty_ne (h : i ≠ j) : (n.modifyProperty i f).property j = n.property j := by
  simp only [property, modifyProperty, PropertyBag.get?, PropertyBag.modify, List.getElem?_modify_ne _ _ h]

theorem flags_modifyProperty (hf : ∀ p, (f p).flags = p.flags) (i j : Nat) :
    ((n.modifyProperty i f).property j).flags = (n.property j).flags := by
  by_cases hij : i = j
  · subst hij
    by_cases hlt : i < n.properties.size
    · rw [property_modifyProperty hlt, hf]
    · simp only [property, modifyProperty, PropertyBag.get?, PropertyBag.modify, List.getElem?_modify_eq,
        List.getElem?_eq_none (Nat.le_of_not_lt hlt)]
      rfl
  · rw [property_modifyProperty_ne hij]

theorem slot?_modifySlot {n : Node} {i : SlotId} {slot : Slot} {f : Slot → Slot} (h : n.slot? i = some slot) :
    (n.modifySlot i f).slot? i = some (f slot) := by
  rw [slot?] at h
  rw [slot?, modifySlot, List.getElem?_modify_eq, h]
  rfl

end

variable {tail : SlotRef} {v : Value}

inductive FoldedSlot (tail : SlotRef) (v : Value) (n m : Node) : Slot → Slot → Prop
  | same {slot : Slot} : (slot.kind = .value → slot.isPrimary = false →
      (n.property slot.property).value = (m.property slot.property).value) → FoldedSlot tail v n m slot slot
  | merged {slot : Slot} : slot.kind = .value → slot.isPrimary = false → slot.adjacent = [] →
      (m.property slot.property).value = v → FoldedSlot tail v n m (slot.attach tail) slot

structure FoldedInput (tail : SlotRef) (v : Value) (n m : Node) : Prop where
  frame : n.frame = m.frame
  slots : List.Forall₂ (FoldedSlot tail v n m) n.slots m.slots
  flags : ∀ i, (n.property i).flags = (m.property i).flags

namespace FoldedSlot

variable {n m : Node} {a b : Slot}

theorem hasFlags {f : SlotFlags} (hf : f.notFull = false) (h : FoldedSlot tail v n m a b) :
    a.hasFlags f = b.hasFlags f := by
  cases h with
  | same => rfl
  | merged => rw [← Slot.hasFlags_shape _ hf, Slot.shape_attach, Slot.hasFlags_shape _ hf]

theorem property (h : FoldedSlot tail v n m a b) : a.property = b.property := by
  cases h with
  | same => rfl
  | merged => rfl

theorem of_first? {r : SlotRef} (h : FoldedSlot tail v n m a b) (hr : b.first? = some r) : a = b := by
  cases h with
  | same => rfl
  | merged _ _ hfree =>
    rw [Slot.first?, hfree] at hr
    cases hr

theorem of_first?_eq_none (h : FoldedSlot tail v n m a b) (hkind : b.kind = .value) (hprimary : b.isPrimary = false)
    (hnone : b.first? = none) : a.first? = some tail ∧ (m.property b.property).value = v ∨
      a.first? = none ∧ (n.property a.property).value = (m.property b.property).value := by
  cases h with
  | same hvalue => exact .inr ⟨hnone, hvalue hkind hprimary⟩
  | merged _ _ hfree hvalue =>
    refine .inl ⟨?_, hvalue⟩
    rw [Slot.first?, Slot.attach, hfree]
    rfl

variable {as bs : List Slot}

theorem eq_of_flow (h : List.Forall₂ (FoldedSlot tail v n m) as bs)
    (hflow : ∀ slot ∈ bs, slot.kind = .flow) : as = bs := by
  induction h with
  | nil => rfl
  | cons hslot _ ih =>
    cases hslot with
    | same => rw [ih fun slot hslot => hflow slot (List.mem_cons_of_mem _ hslot)]
    | merged hkind => cases hkind.symm.trans (hflow _ List.mem_cons_self)

theorem mem_of_first? (h : List.Forall₂ (FoldedSlot tail v n m) as bs) {slot : Slot} {r : SlotRef} (hslot : slot ∈ bs)
    (hr : slot.first? = some r) : slot ∈ as := by
  induction h with
  | nil => cases hslot
  | cons hfoldedSlot _ ih =>
    rcases List.mem_cons.1 hslot with rfl | hslot
    · rw [hfoldedSlot.of_first? hr]
      exact List.mem_cons_self
    · exact List.mem_cons_of_mem _ (ih hslot)

theorem first?_of_rel {a b : Option Slot} (h : Option.Rel (FoldedSlot tail v n m) a b) {r : SlotRef}
    (hr : b.bind Slot.first? = some r) : a.bind Slot.first? = some r := by
  obtain ⟨slot, rfl, hr⟩ := Option.bind_eq_some_iff.1 hr
  cases h with
  | some hfoldedSlot =>
    rw [hfoldedSlot.of_first? hr]
    exact hr

end FoldedSlot

namespace FoldedInput

variable {n m : Node}

theorem kind (h : FoldedInput tail v n m) : n.kind = m.kind := (of_frame h.frame).2.1

theorem name (h : FoldedInput tail v n m) : n.name = m.name := (of_frame h.frame).2.2.1

theorem scope (h : FoldedInput tail v n m) : n.scope = m.scope := (of_frame h.frame).1

theorem internalScope (h : FoldedInput tail v n m) : n.internalScope = m.internalScope := (of_frame h.frame).2.2.2

theorem branch (h : FoldedInput tail v n m) : n.branch = m.branch := by
  have hframe := h.frame
  simp only [Node.frame, Node.mk.injEq] at hframe
  exact hframe.2.2.2.2.2.2.2.1

theorem signature (h : FoldedInput tail v n m) : n.signature = m.signature := by
  have hframe := h.frame
  simp only [Node.frame, Node.mk.injEq] at hframe
  exact hframe.2.2.2.2.2.2.2.2

theorem filterSlots (h : FoldedInput tail v n m) {f : SlotFlags} (hf : f.notFull = false) :
    List.Forall₂ (FoldedSlot tail v n m) (n.filterSlots f) (m.filterSlots f) :=
  List.rel_filter (fun _ _ hslot => iff_of_eq (congrArg (· = true) (hslot.hasFlags hf))) h.slots

theorem slot? (h : FoldedInput tail v n m) (i : SlotId) : Option.Rel (FoldedSlot tail v n m) (n.slot? i) (m.slot? i) :=
  rel_getElem? h.slots i.index

theorem valueIn? (h : FoldedInput tail v n m) : Option.Rel (FoldedSlot tail v n m) n.valueIn? m.valueIn? :=
  rel_find? (fun _ _ hslot => by rw [hslot.property]) (h.filterSlots rfl)

theorem flowOutputs (h : FoldedInput tail v n m) : n.flowOutputs = m.flowOutputs := by
  have hsame : n.filterSlots .flowOut = m.filterSlots .flowOut := by
    refine FoldedSlot.eq_of_flow (h.filterSlots rfl) fun slot hslot => ?_
    have htraits : slot.kind = .flow ∧ slot.isPrimary = true := by
      simpa [Slot.hasFlags, SlotFlags.contains, Slot.flags, SlotFlags.flowOut] using (List.mem_filter.1 hslot).2
    exact htraits.1
  rw [Node.flowOutputs, adjacentNodes, hsame]
  rfl

theorem mem_filterSlots (h : FoldedInput tail v n m) {f : SlotFlags} (hf : f.notFull = false) {slot : Slot}
    {r : SlotRef} (hslot : slot ∈ m.filterSlots f) (hr : slot.first? = some r) : slot ∈ n.filterSlots f :=
  FoldedSlot.mem_of_first? (h.filterSlots hf) hslot hr

theorem first?_of_slot? (h : FoldedInput tail v n m) {i : SlotId} {r : SlotRef}
    (hr : (m.slot? i).bind Slot.first? = some r) : (n.slot? i).bind Slot.first? = some r :=
  FoldedSlot.first?_of_rel (h.slot? i) hr

theorem first?_of_valueIn? (h : FoldedInput tail v n m) {r : SlotRef} (hr : m.valueIn?.bind Slot.first? = some r) :
    n.valueIn?.bind Slot.first? = some r :=
  FoldedSlot.first?_of_rel h.valueIn? hr

theorem unlinked_valueIn (h : FoldedInput tail v n m) {slot : Slot} (hslot : m.valueIn? = some slot)
    (hnone : slot.first? = none) : n.valueIn?.bind Slot.first? = some tail ∧ m.value = v ∨
      n.valueIn?.bind Slot.first? = none ∧ n.value = m.value := by
  have hfound := List.find?_some hslot
  have hzero : slot.property = 0 := beq_iff_eq.1 hfound
  obtain ⟨hkind, hprimary⟩ :=
    slot.hasFlags_input_iff.1 (List.mem_filter.1 (List.mem_of_find?_eq_some hslot)).2
  have hrel := h.valueIn?
  rw [hslot] at hrel
  cases hslot' : n.valueIn? with
  | none =>
    rw [hslot'] at hrel
    cases hrel
  | some slot' =>
    rw [hslot'] at hrel
    cases hrel with
    | some hfoldedSlot =>
      have hsame := hfoldedSlot.of_first?_eq_none hkind hprimary hnone
      rwa [hfoldedSlot.property, hzero] at hsame

/-- An input of the second node that nothing feeds is fed in the first, or has the same value of its own. -/
theorem unlinked_slot (h : FoldedInput tail v n m) {i : SlotId}
    (hinput : ∀ slot, m.slot? i = some slot → slot.kind = .value ∧ slot.isPrimary = false)
    (hnone : (m.slot? i).bind Slot.first? = none) :
    (n.slot? i).bind Slot.first? = some tail ∧
        ((m.slot? i).elim .void fun slot => (m.property slot.property).value) = v ∨
      (n.slot? i).bind Slot.first? = none ∧ ((n.slot? i).elim .void fun slot => (n.property slot.property).value) =
        (m.slot? i).elim .void fun slot => (m.property slot.property).value := by
  have hrel := h.slot? i
  cases hb : m.slot? i with
  | none =>
    rw [hb] at hrel
    cases ha : n.slot? i with
    | none => exact .inr ⟨rfl, rfl⟩
    | some a =>
      rw [ha] at hrel
      cases hrel
  | some b =>
    obtain ⟨hkind, hprimary⟩ := hinput b hb
    rw [hb] at hrel hnone
    cases ha : n.slot? i with
    | none =>
      rw [ha] at hrel
      cases hrel
    | some a =>
      rw [ha] at hrel
      cases hrel with
      | some hfoldedSlot => exact hfoldedSlot.of_first?_eq_none hkind hprimary hnone

end FoldedInput

theorem FoldedInput.refl (n : Node) : FoldedInput tail v n n :=
  ⟨rfl, List.forall₂_same.2 fun _ _ => .same fun _ _ => rfl, fun _ => rfl⟩

theorem foldedInput_of_slot {n : Node} {i : SlotId} {slot : Slot} {f : Property → Property} {offset : Nat}
    (hslot : n.slot? i = some slot) (hkind : slot.kind = .value) (hprimary : slot.isPrimary = false)
    (hfree : slot.adjacent = []) (hf : ∀ p, (f p).flags = p.flags)
    (hapart : ∀ (j : Nat) (slot : Slot), n.slots[j]? = some slot → slot.kind = .value → slot.isPrimary = false →
      j = slot.property + offset ∧ slot.property < n.properties.size) :
    FoldedInput tail v ((n.modifySlot i (·.attach tail)).modifyProperty slot.property f)
      (n.modifyProperty slot.property (·.setValue v)) := by
  obtain ⟨hindex, hlt⟩ := hapart i.index slot hslot hkind hprimary
  have hvalue : ((n.modifyProperty slot.property (·.setValue v)).property slot.property).value = v := by
    rw [property_modifyProperty hlt]
    rfl
  refine ⟨rfl, ?_, fun j => ?_⟩
  · refine forall₂_modify (fun slot' hslot' => ?_) fun j slot' hj hslot' => .same fun hkind' hprimary' => ?_
    · obtain rfl := Option.some.inj (hslot.symm.trans hslot')
      exact .merged hkind hprimary hfree hvalue
    · obtain ⟨hindex', -⟩ := hapart j slot' hslot' hkind' hprimary'
      have hne : slot.property ≠ slot'.property := by
        intro heq
        rw [← heq, ← hindex] at hindex'
        exact hj hindex'
      exact congrArg Property.value ((property_modifyProperty_ne hne).trans (property_modifyProperty_ne hne).symm)
  · exact (flags_modifyProperty hf slot.property j).trans (flags_modifyProperty (fun _ => by rfl) slot.property j).symm

end Node

namespace Graph

variable {g g' h : Graph} {id : NodeId} {l : Link} {v : Value}

structure DifferAt (id : NodeId) (g g' : Graph) : Prop where
  library : g'.library = g.library
  root : g'.root = g.root
  node : ∀ x, x ≠ id → g'.nodeAt? x = g.nodeAt? x
  scope : ∀ s, (g'.scopeAt? s).map Scope.bare = (g.scopeAt? s).map Scope.bare

namespace DifferAt

theorem refl (g : Graph) : DifferAt id g g := ⟨rfl, rfl, fun _ _ => rfl, fun _ => rfl⟩

theorem trans {g₁ g₂ g₃ : Graph} (h : DifferAt id g₁ g₂) (h' : DifferAt id g₂ g₃) : DifferAt id g₁ g₃ :=
  ⟨h'.library.trans h.library, h'.root.trans h.root, fun x hx => (h'.node x hx).trans (h.node x hx),
    fun s => (h'.scope s).trans (h.scope s)⟩

theorem modifyNode (h : DifferAt id g g') (x : NodeId) (f : Node → Node) :
    DifferAt id (g.modifyNode x f) (g'.modifyNode x f) := by
  refine ⟨h.library, h.root, fun y hy => ?_, fun s => ?_⟩
  · rw [nodeAt?_modifyNode, nodeAt?_modifyNode, h.node y hy]
  · rw [scopeAt?_modifyNode, scopeAt?_modifyNode, h.scope]

theorem of_modifyNode {x : NodeId} {f : Node → Node} (hf : ∀ n, f n = n) : DifferAt id (g.modifyNode x f) g := by
  refine ⟨rfl, rfl, fun y _ => ?_, fun s => ?_⟩
  · rw [nodeAt?_modifyNode, funext hf, Option.map_id', ite_self]
  · rw [scopeAt?_modifyNode]

end DifferAt

def NotDeclaredNorHead (g : Graph) (id : NodeId) : Prop :=
  ∀ s sc, g.scopeAt? s = some sc → id ∉ sc.declared ∧ sc.head ≠ some id

theorem differAt_unscope (h : g.NotDeclaredNorHead id) (home : Option ScopeId) : DifferAt id g (g.unscope id home) := by
  cases home with
  | none => exact .refl g
  | some s =>
    refine ⟨rfl, rfl, fun x hx => (nodeAt?_displace x).trans (if_neg hx), fun t => ?_⟩
    rw [scopeAt?_unscope]
    split
    next =>
      cases hsc : g.scopeAt? t with
      | none => rfl
      | some sc =>
        obtain ⟨hdeclared, hhead⟩ := h t sc hsc
        exact congrArg some (Scope.bare_forget hdeclared hhead)
    next => rfl

theorem differAt_rehome (h : g.NotDeclaredNorHead id) (home : Option ScopeId) (t : ScopeId) :
    DifferAt id g (g.rehome id home t) := by
  refine (differAt_unscope h home).trans ⟨rfl, rfl, fun x hx => (nodeAt?_place x).trans (if_neg hx), fun s => ?_⟩
  have hplaced : (g.rehome id home t).scopeAt? s = if s = t then ((g.unscope id home).scopeAt? s).map (·.addChild id)
    else (g.unscope id home).scopeAt? s := scopeAt?_place s
  rw [hplaced]
  split
  next => cases (g.unscope id home).scopeAt? s <;> rfl
  next => rfl

theorem differAt_erase {n : Node} (hn : g.nodeAt? id = some n) : DifferAt id g (g.erase id) := by
  refine ⟨rfl, rfl, fun x hx => ?_, fun s => ?_⟩
  · exact (Arena.item?_erase x).trans (if_neg fun hraw => hx (Handle.ext hraw))
  · exact congrArg (Option.map Scope.bare) (Arena.item?_erase_of_ne hn (by decide) s)

theorem nodeAt?_erase : (g.erase id).nodeAt? id = none := (Arena.item?_erase id).trans (if_pos rfl)

/-- A literal is in its scope, and that is all there is between them. -/
theorem notDeclaredNorHead_of_literal (hr : Reachable g) {n : Node} (hn : g.nodeAt? id = some n)
    (hkind : n.kind = .literal) :
    g.NotDeclaredNorHead id := by
  intro s sc hsc
  constructor
  · intro hdeclared
    have hvar := ((hr.wellFormed.scopesMatchNodes.scopeMatchesNodes hsc).declared id hdeclared).2 n hn
    cases hvar.symm.trans (isVariable_of_literal hkind)
  · intro hhead
    obtain ⟨m, hm, slot, hslot, hflow, -⟩ := hr.headsHaveFlowIn s id (Option.bind_eq_some_iff.2 ⟨sc, hsc, hhead⟩)
    cases hn.symm.trans hm
    obtain ⟨out, hout, hshape⟩ := hr.hasLayouts.onlyOutput_of_literal hn hkind
    rw [hout, List.mem_singleton] at hslot
    subst hslot
    have hvalue : slot.kind = .value := congrArg Slot.kind hshape
    cases hflow.symm.trans hvalue

structure FoldedLiteral (g h : Graph) (l : Link) (v : Value) : Prop where
  library : g.library = h.library
  root : g.root = h.root
  scope : ∀ s, (g.scopeAt? s).map Scope.bare = (h.scopeAt? s).map Scope.bare
  literal : ∃ n, g.nodeAt? l.tail.node = some n ∧ n.kind = .literal ∧ n.value = v
  gone : h.nodeAt? l.tail.node = none
  reader : ∃ n m, g.nodeAt? l.head.node = some n ∧ h.nodeAt? l.head.node = some m ∧ n.FoldedInput l.tail v m
  other : ∀ x, x ≠ l.tail.node → x ≠ l.head.node → g.nodeAt? x = h.nodeAt? x
  inner : l.head.node ≠ h.root

def SameValues (g h : Graph) : Prop :=
  ∀ x n m, g.nodeAt? x = some n → h.nodeAt? x = some m → n.kind ≠ .variableRef → n.value = m.value

theorem nodeAt?_addLink {x : NodeId} (hx : x ≠ l.tail.node) : (g.addLink l).nodeAt? x =
    if x = l.head.node then (g.nodeAt? x).map (·.modifySlot l.head.slot (·.attach l.tail)) else g.nodeAt? x := by
  simp only [addLink, nodeAt?_emit, nodeAt?_modifyLinks, modifySlot, nodeAt?_modifyNode, if_neg hx]

theorem nodeAt?_addLink_tail (hapart : l.tail.node ≠ l.head.node) : (g.addLink l).nodeAt? l.tail.node =
    (g.nodeAt? l.tail.node).map (·.modifySlot l.tail.slot (·.attach l.head)) := by
  simp only [addLink, nodeAt?_emit, nodeAt?_modifyLinks, modifySlot, nodeAt?_modifyNode, if_neg hapart, if_pos]

theorem nodeAt?_addLink_head {n : Node} (hapart : l.tail.node ≠ l.head.node) (hn : g.nodeAt? l.head.node = some n) :
    (g.addLink l).nodeAt? l.head.node = some (n.modifySlot l.head.slot (·.attach l.tail)) := by
  rw [nodeAt?_addLink hapart.symm, if_pos rfl, hn]
  rfl

theorem addLink_fields (g : Graph) (l : Link) : (g.addLink l).library = g.library ∧ (g.addLink l).root = g.root := by
  unfold addLink modifyLinks
  cases l.kind with
  | value | flow => exact ⟨rfl, rfl⟩

structure LinkedAndMerged (g linked merged : Graph) (l : Link) (v : Value) (n : Node) (slot : Slot)
    (f : Property → Property) :
    Prop where
  reader : g.nodeAt? l.head.node = some n
  input : n.slot? l.head.slot = some slot
  kind : slot.kind = .value
  secondary : slot.isPrimary = false
  free : slot.adjacent = []
  flags : ∀ p, (f p).flags = p.flags
  linking : DifferAt l.tail.node ((g.addLink l).modifyNode l.head.node (·.modifyProperty slot.property f)) linked
  merging : DifferAt l.tail.node (g.modifyNode l.head.node (·.modifyProperty slot.property (·.setValue v))) merged
  literal : ∃ n, linked.nodeAt? l.tail.node = some n ∧ n.kind = .literal ∧ n.value = v
  gone : merged.nodeAt? l.tail.node = none
  apart : l.head.node ≠ l.tail.node

namespace LinkedAndMerged

variable {linked merged : Graph} {n : Node} {slot : Slot} {f : Property → Property}

theorem reader_linked (h : LinkedAndMerged g linked merged l v n slot f) : linked.nodeAt? l.head.node =
    some ((n.modifySlot l.head.slot (·.attach l.tail)).modifyProperty slot.property f) := by
  rw [h.linking.node _ h.apart, nodeAt?_modifyNode, if_pos rfl, nodeAt?_addLink h.apart, if_pos rfl, h.reader]
  rfl

theorem reader_merged (h : LinkedAndMerged g linked merged l v n slot f) :
    merged.nodeAt? l.head.node = some (n.modifyProperty slot.property (·.setValue v)) := by
  rw [h.merging.node _ h.apart, nodeAt?_modifyNode, if_pos rfl, h.reader]
  rfl

theorem other (h : LinkedAndMerged g linked merged l v n slot f) {x : NodeId} (hx : x ≠ l.tail.node)
    (hother : x ≠ l.head.node) :
    linked.nodeAt? x = merged.nodeAt? x := by
  rw [h.linking.node x hx, h.merging.node x hx, nodeAt?_modifyNode, nodeAt?_modifyNode, if_neg hother, if_neg hother,
    nodeAt?_addLink hx, if_neg hother]

theorem foldedLiteral (h : LinkedAndMerged g linked merged l v n slot f) (hl : HasLayouts g)
    (hrootIsEntryPoint : RootIsEntryPoint g) :
    linked.FoldedLiteral merged l v := by
  obtain ⟨offset, hoffset⟩ := hl.inputs_apart h.reader
  obtain ⟨hlibrary, hroot⟩ := addLink_fields g l
  refine ⟨?_, ?_, fun s => ?_, h.literal, h.gone, ⟨_, _, h.reader_linked, h.reader_merged, ?_⟩, fun x => h.other, ?_⟩
  · exact (h.linking.library.trans hlibrary).trans h.merging.library.symm
  · exact (h.linking.root.trans hroot).trans h.merging.root.symm
  · rw [h.linking.scope, h.merging.scope, scopeAt?_modifyNode, scopeAt?_modifyNode, (sameFrames_addLink g l).scopes]
  · exact Node.foldedInput_of_slot h.input h.kind h.secondary h.free h.flags hoffset
  · intro heq
    obtain ⟨entry, hentry, hkind⟩ := hrootIsEntryPoint
    have hroot' : merged.root = g.root := h.merging.root
    rw [← hroot', ← heq, h.reader] at hentry
    cases hentry
    obtain ⟨-, ⟨-, hlike⟩ | ⟨-, hinvokable | hconditional⟩⟩ :=
      hl.input_traits h.reader (List.mem_of_getElem? h.input) h.kind h.secondary
    · rw [Node.isVariableLike, hkind] at hlike
      cases hlike
    · rw [Node.isInvokable, hkind] at hinvokable
      cases hinvokable
    · rw [hkind] at hconditional
      cases hconditional

/-- An input that is on the value of its node is that of a variable, which is written to, or that of a reference. -/
theorem sameValues (h : LinkedAndMerged g linked merged l v n slot f) (hl : HasLayouts g)
    (hvalue : n.isVariable = true → ∀ p, (f p).value = v) : linked.SameValues merged := by
  intro x n' m' hn' hm' hkind
  have hx : x ≠ l.tail.node := by
    rintro rfl
    cases h.gone.symm.trans hm'
  by_cases hreader : x = l.head.node
  · subst hreader
    cases h.reader_linked.symm.trans hn'
    cases h.reader_merged.symm.trans hm'
    obtain ⟨offset, hoffset⟩ := hl.inputs_apart h.reader
    obtain ⟨-, hlt⟩ := hoffset l.head.slot.index slot h.input h.kind h.secondary
    obtain ⟨-, ⟨hzero, hlike⟩ | ⟨hne, -⟩⟩ :=
      hl.input_traits h.reader (List.mem_of_getElem? h.input) h.kind h.secondary
    · have hvar : n.isVariable = true := by
        rw [Node.isVariableLike, Bool.or_eq_true, beq_iff_eq, beq_iff_eq] at hlike
        exact beq_iff_eq.2 (hlike.resolve_right hkind)
      rw [Node.value, Node.value, Node.valueProperty, Node.valueProperty, ← hzero,
        Node.property_modifyProperty (n := n.modifySlot _ _) hlt, Node.property_modifyProperty hlt, hvalue hvar]
      rfl
    · rw [Node.value, Node.value, Node.valueProperty, Node.valueProperty, Node.property_modifyProperty_ne hne,
        Node.property_modifyProperty_ne hne]
      rfl
  · rw [h.other hx hreader, hm'] at hn'
    cases hn'
    rfl

end LinkedAndMerged

def preset (g : Graph) (id : NodeId) (value : Value) : Except Fault Graph := do
  if (← g.node id).isVariable then g.setValue id value else return g

theorem Reachable.addLink {a b : SlotRef} (hr : Reachable g) (hl : g.validateLink a b = .ok (.ok l)) :
    Reachable (g.addLink l) := by
  have hconnect : g.connect a b false = .ok (g.addLink l, .ok l) := bind_eq_ok.2 ⟨_, hl, rfl⟩
  exact .edit (.connect a b false) hr (bind_eq_ok.2 ⟨_, hconnect, rfl⟩)

theorem validateLink_eq_ok {a b : SlotRef} (h : g.validateLink a b = .ok (.ok l)) : ∃ slotA slotB,
    g.slot? a = .ok (some slotA) ∧ g.slot? b = .ok (some slotB) ∧ linkOf a b slotA slotB = .ok l := by
  obtain ⟨slotA, slotB, hA, hB, hlink⟩ := validateLink_eq_ok_iff.1 h
  exact ⟨slotA, slotB, slot?_eq_some_iff.2 hA, slot?_eq_some_iff.2 hB, linkOf_eq_ok_iff.2 hlink⟩

theorem eq_of_linkOf {a b : SlotRef} {slotA slotB : Slot} (h : linkOf a b slotA slotB = .ok l)
    (hprimary : slotA.isPrimary = true) : l = ⟨a, b, slotA.kind⟩ :=
  (linkOf_eq_ok_iff.1 h).2.trans (if_pos hprimary)

section

variable {source : Node} {output input : SlotRef} {linked : Graph} (hr : Reachable g)
  (hsource : g.node output.node = .ok source) (hkind : source.kind = .literal)

include hr hsource hkind

theorem input_of_connect (h : g.connect output input true = .ok (linked, .ok l)) : l = ⟨output, input, .value⟩ ∧
    g.validateLink output input = .ok (.ok l) ∧ (g.addLink l).onValueConnected l = .ok linked ∧
      output.node ≠ input.node ∧ ∃ n slot, g.nodeAt? input.node = some n ∧ n.slot? input.slot = some slot ∧
        slot.kind = .value ∧ slot.isPrimary = false ∧ slot.adjacent = [] := by
  rw [node_eq_ok_iff] at hsource
  obtain ⟨-, _, ⟨⟩⟩ | ⟨l', hl', hvalidate, hwrite⟩ := connect_eq h
  cases hl'
  obtain ⟨slotA, slotB, hA, hB, hlink⟩ := validateLink_eq_ok hvalidate
  have hA := slotAt?_of_slot? hA
  have hB := slotAt?_of_slot? hB
  have hslotA := hA
  rw [slotAt?, hsource, Option.bind_some] at hslotA
  obtain ⟨-, hshape⟩ := (hr.hasLayouts.onlyOutput_of_literal hsource hkind).slot hslotA
  have hvalue : slotA.kind = .value := congrArg Slot.kind hshape
  have hprimary : slotA.isPrimary = true := congrArg Slot.isPrimary hshape
  obtain rfl := eq_of_linkOf hlink hprimary
  rw [hvalue] at hvalidate hwrite ⊢
  obtain ⟨t, slot, hlinkable⟩ := linkable_of_validateLink hvalidate
  cases hB.symm.trans hlinkable.head
  obtain ⟨n, hn, hslot⟩ := Option.bind_eq_some_iff.1 hB
  obtain ⟨hcapacity, -⟩ :=
    hr.hasLayouts.input_traits hn (List.mem_of_getElem? hslot) hlinkable.head_kind hlinkable.head_primary
  have hfree : slotB.adjacent = [] := by
    have hroom := (hr.wellFormed.linksMatch.roomKnown hB).2
    rw [hlinkable.head_room, hcapacity, eq_comm, decide_eq_true_eq, Nat.lt_one_iff] at hroom
    exact List.length_eq_zero_iff.1 hroom
  have hwrite : (g.addLink ⟨output, input, .value⟩).onValueConnected ⟨output, input, .value⟩ = .ok linked := by
    rcases hwrite with ⟨⟨⟩, -⟩ | ⟨-, ⟨⟩, -⟩ | ⟨-, -, hwrite⟩
    exact hwrite
  exact ⟨rfl, hvalidate, hwrite, hlinkable.nodes, n, slotB, hn, hslot, hlinkable.head_kind, hlinkable.head_primary,
    hfree⟩

end

theorem of_rehome {n : Node} (home : Option ScopeId) (t : ScopeId) (hn : g.nodeAt? id = some n)
    (hhome : n.scope = home) :
    (g.rehome id home t).nodeAt? id = some { n with scope := some t } := by
  rw [rehome, nodeAt?_emit, nodeAt?_place, if_pos rfl, nodeAt?_unscope home hn hhome, if_pos rfl]
  rfl

/-- A linked literal may be moved, and the input may be given its type, unless it is that of a variable. -/
theorem of_onValueConnected {tail head : Node} {slot : Slot} {fanIn : Nat} (hh : ScopesMatchNodes g)
    (hnotDeclaredNorHead : g.NotDeclaredNorHead l.tail.node) (htail : g.nodeAt? l.tail.node = some tail)
    (hkind : tail.kind = .literal) (honlyOutput : tail.OnlyOutput fanIn) (hid : tail.id = l.tail.node)
    (hout : ∃ out, tail.slot? l.tail.slot = some out) (hapart : l.head.node ≠ l.tail.node)
    (hhead : g.nodeAt? l.head.node = some head) (hslot : head.slot? l.head.slot = some slot)
    (h : g.onValueConnected l = .ok g') :
    (∃ n, g'.nodeAt? l.tail.node = some n ∧ n.kind = .literal ∧ n.value = tail.value) ∧
      (head.isVariable = true ∧ DifferAt l.tail.node g g' ∨ head.isVariable = false ∧ ∃ type,
        DifferAt l.tail.node (g.modifyNode l.head.node (·.modifyProperty slot.property (·.setType type))) g') := by
  obtain ⟨out, hout⟩ := hout
  have hrest {moved : Graph} {tail' : Node} (hdifferAt : DifferAt l.tail.node g moved)
      (htail' : moved.nodeAt? l.tail.node = some tail') (hkind' : tail'.kind = .literal)
      (hvalue : tail'.value = tail.value) (hslots : tail'.slots = tail.slots) (h : moved.retype l = .ok g') :
      (∃ n, g'.nodeAt? l.tail.node = some n ∧ n.kind = .literal ∧ n.value = tail.value) ∧
        (head.isVariable = true ∧ DifferAt l.tail.node g g' ∨ head.isVariable = false ∧ ∃ type,
          DifferAt l.tail.node (g.modifyNode l.head.node (·.modifyProperty slot.property (·.setType type))) g') := by
    have hhead' : moved.nodeAt? l.head.node = some head := (hdifferAt.node _ hapart).trans hhead
    have hout' : tail'.slot? l.tail.slot = some out := by rw [Node.slot?, hslots]; exact hout
    simp only [retype, node_eq_ok_iff.2 htail', node_eq_ok_iff.2 hhead', ok_bind, hout', hslot] at h
    cases hvar : head.isVariable with
    | true =>
      simp only [hvar] at h
      cases h
      exact ⟨⟨tail', htail', hkind', hvalue⟩, .inl ⟨rfl, hdifferAt⟩⟩
    | false =>
      simp only [hvar] at h
      cases h
      refine ⟨⟨tail', ?_, hkind', hvalue⟩, .inr ⟨rfl, _, hdifferAt.modifyNode _ _⟩⟩
      rw [nodeAt?_modifyNode, if_neg hapart.symm, htail']
  simp only [onValueConnected, node_eq_ok_iff.2 htail, node_eq_ok_iff.2 hhead, ok_bind,
    honlyOutput.hasFlowAdjacent_eq_false, isVariable_of_literal hkind] at h
  cases htarget : (head.internalScope <|> head.scope) with
  | none =>
    simp only [htarget] at h
    exact hrest (.refl g) htail hkind rfl rfl h
  | some t =>
    simp only [htarget, hid] at h
    obtain ⟨⟨moved, r⟩, hmoved, hretyped⟩ := bind_eq_ok.1 h
    rcases changeScope_of_alone hh htail honlyOutput.noInputsNorSuccessor
        (isVariable_of_literal hkind) hmoved with rfl | rfl
    · exact hrest (.refl _) htail hkind rfl rfl hretyped
    · exact hrest (differAt_rehome hnotDeclaredNorHead tail.scope t)
        (of_rehome tail.scope t htail rfl) hkind rfl rfl hretyped

theorem of_connect {source : Node} {output input : SlotRef} {n : Node} {slot : Slot} {linked : Graph}
    (hr : Reachable g) (hsource : g.nodeAt? output.node = some source) (hkind : source.kind = .literal)
    (hn : g.nodeAt? input.node = some n) (hslot : n.slot? input.slot = some slot)
    (hvalidate : g.validateLink output input = .ok (.ok ⟨output, input, .value⟩))
    (hwrite : (g.addLink ⟨output, input, .value⟩).onValueConnected ⟨output, input, .value⟩ = .ok linked) :
    (∃ n, linked.nodeAt? output.node = some n ∧ n.kind = .literal ∧ n.value = source.value) ∧
      (n.isVariable = true ∧ DifferAt output.node (g.addLink ⟨output, input, .value⟩) linked ∨
        n.isVariable = false ∧ ∃ type, DifferAt output.node ((g.addLink ⟨output, input, .value⟩).modifyNode input.node
          (·.modifyProperty slot.property (·.setType type))) linked) := by
  obtain ⟨t, h, hlinkable⟩ := linkable_of_validateLink hvalidate
  have hapart : output.node ≠ input.node := hlinkable.nodes
  obtain ⟨source', hsource', hout⟩ := Option.bind_eq_some_iff.1 hlinkable.tail
  cases hsource.symm.trans hsource'
  have hr' := hr.addLink hvalidate
  obtain ⟨tail, htail, hkind', hvalue, hout⟩ :
      ∃ tail, (g.addLink ⟨output, input, .value⟩).nodeAt? output.node = some tail ∧
      tail.kind = .literal ∧ tail.value = source.value ∧ ∃ out, tail.slot? output.slot = some out := by
    refine ⟨source.modifySlot output.slot (·.attach input), ?_, hkind, rfl, _, Node.slot?_modifySlot hout⟩
    rw [nodeAt?_addLink_tail hapart, hsource']
    rfl
  have hhead := nodeAt?_addLink_head (l := ⟨output, input, .value⟩) hapart hn
  rw [← hvalue]
  have hlinked := of_onValueConnected (l := ⟨output, input, .value⟩) hr'.wellFormed.scopesMatchNodes
    (notDeclaredNorHead_of_literal hr' htail hkind') htail hkind' (hr'.hasLayouts.onlyOutput_of_literal htail hkind')
    (hr'.hasLayouts.id_eq htail) hout hapart.symm hhead (Node.slot?_modifySlot hslot) hwrite
  exact hlinked

/-- Merging a literal that nothing reads is writing its value to the input, and destroying it. -/
theorem connectOrMerge_of_literal {source : Node} {output input : SlotRef} {n : Node} {slot : Slot}
    (hmerge : g.config.mergeLiterals = true) (hsource : g.node output.node = .ok source)
    (hkind : source.kind = .literal) (hfree : source.outputs = []) (hn : g.nodeAt? input.node = some n)
    (hslot : n.slot? input.slot = some slot) (hvalue : slot.kind = .value) (hprimary : slot.isPrimary = false) :
    g.connectOrMerge output input = (do
      let merged ← (g.modifyNode input.node (·.modifyProperty slot.property (·.setValue source.value))).destroy
        output.node true
      return (merged, .ok none)) := by
  have htarget : g.slot? input = .ok (some slot) := by
    simp only [slot?, node?_eq_some_iff.2 hn, ok_bind, Option.bind_some, hslot]
    rfl
  exact connectOrMerge_of_merge hmerge hsource (lookupSlot_eq_ok_iff.2 htarget)
    (mergeTarget?_eq_some_iff.2 ⟨⟨hkind, hfree, hvalue, hprimary⟩, rfl⟩)

/-- A merged literal leaves nothing behind but its value. -/
theorem of_connectOrMerge {source : Node} {output input : SlotRef} {n : Node} {slot : Slot} {merged : Graph}
    {r : Except ConnectError (Option Link)} (hr : Reachable g) (hmerge : g.config.mergeLiterals = true)
    (hsource : g.node output.node = .ok source) (hkind : source.kind = .literal) (hfree : source.outputs = [])
    (hapart : output.node ≠ input.node) (hn : g.nodeAt? input.node = some n) (hslot : n.slot? input.slot = some slot)
    (hvalue : slot.kind = .value) (hprimary : slot.isPrimary = false)
    (h : g.connectOrMerge output input = .ok (merged, r)) : r = .ok none ∧ merged.nodeAt? output.node = none ∧
      DifferAt output.node
        (g.modifyNode input.node (·.modifyProperty slot.property (·.setValue source.value))) merged := by
  rw [connectOrMerge_of_literal hmerge hsource hkind hfree hn hslot hvalue hprimary] at h
  obtain ⟨destroyed, hdestroy, h⟩ := bind_eq_ok.1 h
  cases h
  rw [node_eq_ok_iff] at hsource
  have hwellFormed := hr.wellFormed.changes (.single (.retouch input.node slot.property (.value source.value)))
  have hsource' : (g.modifyNode input.node (·.modifyProperty slot.property (·.setValue source.value))).nodeAt?
      output.node = some source := by
    rw [nodeAt?_modifyNode, if_neg hapart, hsource]
  have hroot : output.node ≠ g.root := by
    intro heq
    obtain ⟨entry, hentry, hentryKind⟩ := hr.wellFormed.rootIsEntryPoint
    rw [← heq, hsource] at hentry
    cases hentry
    cases hkind.symm.trans hentryKind
  have hnotDeclaredNorHead :
      (g.modifyNode input.node (·.modifyProperty slot.property (·.setValue source.value))).NotDeclaredNorHead
      output.node := by
    intro s sc hsc
    rw [scopeAt?_modifyNode] at hsc
    exact notDeclaredNorHead_of_literal hr hsource hkind s sc hsc
  obtain rfl := destroy_of_onlyOutput hdestroy hwellFormed.linksMatch hwellFormed.scopesMatchNodes hroot hsource'
    (hr.hasLayouts.onlyOutput_of_literal hsource hkind) (isVariable_of_literal hkind)
    (hr.hasLayouts.internalScope_of_literal hsource hkind) hfree
  have hunscoped := nodeAt?_unscope source.scope hsource' rfl output.node
  rw [if_pos rfl] at hunscoped
  exact ⟨rfl, nodeAt?_erase, (differAt_unscope hnotDeclaredNorHead source.scope).trans (differAt_erase hunscoped)⟩

theorem exists_connectOrMerge {source : Node} {output input : SlotRef} {linked : Graph} (hr : Reachable g)
    (hmerge : g.config.mergeLiterals = true) (hsource : g.node output.node = .ok source)
    (hkind : source.kind = .literal) (hfree : source.outputs = [])
    (hlive : ∀ s ∈ source.scope, ∃ sc, g.scopeAt? s = some sc)
    (hconnect : g.connect output input true = .ok (linked, .ok l)) :
    ∃ merged, g.connectOrMerge output input = .ok (merged, .ok none) := by
  obtain ⟨-, -, -, hapart, n, slot, hn, hslot, hvalue, hprimary, -⟩ := input_of_connect hr hsource hkind hconnect
  rw [connectOrMerge_of_literal hmerge hsource hkind hfree hn hslot hvalue hprimary]
  rw [node_eq_ok_iff] at hsource
  have hwellFormed := hr.wellFormed.changes (.single (.retouch input.node slot.property (.value source.value)))
  have hsource' : (g.modifyNode input.node (·.modifyProperty slot.property (·.setValue source.value))).nodeAt?
      output.node = some source := by
    rw [nodeAt?_modifyNode, if_neg hapart, hsource]
  obtain ⟨merged, hdestroy⟩ := exists_destroy_of_onlyOutput hwellFormed.linksMatch hwellFormed.scopesMatchNodes hsource'
    (hr.hasLayouts.onlyOutput_of_literal hsource hkind) (isVariable_of_literal hkind)
      (hr.hasLayouts.internalScope_of_literal hsource hkind)
    hfree fun s hs => by rw [scopeAt?_modifyNode]; exact hlive s hs
  exact ⟨merged, bind_eq_ok.2 ⟨merged, hdestroy, rfl⟩⟩

/-- Whether a literal is linked or merged, the nodes that are left do the same, once a variable that reads it has its
value as the own one. -/
theorem foldedLiteral_of_merge {source : Node} {output input : SlotRef} {linked merged : Graph}
    {r : Except ConnectError (Option Link)} (hr : Reachable g) (hmerge : g.config.mergeLiterals = true)
    (hsource : g.node output.node = .ok source) (hkind : source.kind = .literal) (hfree : source.outputs = [])
    (hconnect : g.connect output input true = .ok (linked, .ok l))
    (hmerged : g.connectOrMerge output input = .ok (merged, r)) : r = .ok none ∧ l = ⟨output, input, .value⟩ ∧
      Reachable linked ∧ Reachable merged ∧ linked.FoldedLiteral merged l source.value ∧
      ∃ own, linked.preset input.node source.value = .ok own ∧ Reachable own ∧ own.FoldedLiteral merged l source.value ∧
        own.SameValues merged := by
  obtain ⟨rfl, hvalidate, hwrite, hapart, n, slot, hn, hslot, hvalue, hprimary, hempty⟩ :=
    input_of_connect hr hsource hkind hconnect
  obtain ⟨rfl, hgone, hmerging⟩ :=
    of_connectOrMerge hr hmerge hsource hkind hfree hapart hn hslot hvalue hprimary hmerged
  obtain ⟨hliteral, hlinking⟩ := of_connect hr (node_eq_ok_iff.1 hsource) hkind hn hslot hvalidate hwrite
  have hr' : Reachable linked := .edit (.connect output input true) hr (bind_eq_ok.2 ⟨_, hconnect, rfl⟩)
  have hr'' : Reachable merged := .edit (.connectOrMerge output input) hr (bind_eq_ok.2 ⟨_, hmerged, rfl⟩)
  have hlinkedAndMerged {own : Graph} {f : Property → Property} (hf : ∀ p, (f p).flags = p.flags)
      (hdifferAt : DifferAt output.node ((g.addLink ⟨output, input, .value⟩).modifyNode input.node
        (·.modifyProperty slot.property f)) own)
      (hliteral : ∃ n, own.nodeAt? output.node = some n ∧ n.kind = .literal ∧ n.value = source.value) :
      LinkedAndMerged g own merged ⟨output, input, .value⟩ source.value n slot f :=
    ⟨hn, hslot, hvalue, hprimary, hempty, hf, hdifferAt, hmerging, hliteral, hgone, hapart.symm⟩
  have hhead := nodeAt?_addLink_head (l := ⟨output, input, .value⟩) hapart hn
  refine ⟨rfl, rfl, hr', hr'', ?_⟩
  rcases hlinking with ⟨hvar, hdifferAt⟩ | ⟨hvar, type, hdifferAt⟩
  · have hm : linked.nodeAt? input.node = some (n.modifySlot input.slot (·.attach output)) :=
      (hdifferAt.node _ hapart.symm).trans hhead
    have hsame (m : Node) : m.modifyProperty slot.property id = m := by
      rw [Node.modifyProperty, PropertyBag.modify, List.modify_id]
    have hlinked := hlinkedAndMerged (f := id) (fun _ => rfl) ((DifferAt.of_modifyNode hsame).trans hdifferAt) hliteral
    have hset : linked.setValue input.node source.value =
        .ok (linked.modifyNode input.node (·.modifyProperty 0 (·.setValue source.value))) :=
      bind_eq_ok.2 ⟨_, node_eq_ok_iff.2 hm, rfl⟩
    have hpreset : linked.preset input.node source.value =
        .ok (linked.modifyNode input.node (·.modifyProperty 0 (·.setValue source.value))) :=
      bind_eq_ok.2 ⟨_, node_eq_ok_iff.2 hm, (if_pos hvar).trans hset⟩
    have hzero : slot.property = 0 := by
      obtain ⟨-, ⟨hzero, -⟩ | ⟨-, hkind'⟩⟩ := hr.hasLayouts.input_traits hn (List.mem_of_getElem? hslot) hvalue hprimary
      · exact hzero
      · rw [Node.isInvokable, beq_iff_eq.1 hvar] at hkind'
        rcases hkind' with hkind' | hkind' <;> cases hkind'
    have hown : LinkedAndMerged g (linked.modifyNode input.node (·.modifyProperty 0 (·.setValue source.value))) merged
        ⟨output, input, .value⟩ source.value n slot (·.setValue source.value) := by
      refine hlinkedAndMerged (fun _ => rfl) (hzero ▸ hdifferAt.modifyNode _ _) ?_
      obtain ⟨m, hm, hkind', hvalue'⟩ := hliteral
      exact ⟨m, by rw [nodeAt?_modifyNode, if_neg hapart, hm], hkind', hvalue'⟩
    exact ⟨hlinked.foldedLiteral hr.hasLayouts hr.wellFormed.rootIsEntryPoint, _, hpreset,
      .edit (.setValue input.node source.value) hr' hset,
      hown.foldedLiteral hr.hasLayouts hr.wellFormed.rootIsEntryPoint, hown.sameValues hr.hasLayouts fun _ _ => rfl⟩
  · have hm := (hdifferAt.node _ hapart.symm).trans (nodeAt?_modifyNode ..)
    rw [if_pos rfl, hhead, Option.map_some] at hm
    have hown := hlinkedAndMerged (fun p => p.flags_setType type) hdifferAt hliteral
    have hpreset : linked.preset input.node source.value = .ok linked :=
      bind_eq_ok.2 ⟨_, node_eq_ok_iff.2 hm, if_neg (Bool.eq_false_iff.1 hvar)⟩
    refine ⟨hown.foldedLiteral hr.hasLayouts hr.wellFormed.rootIsEntryPoint, linked, hpreset, hr',
      hown.foldedLiteral hr.hasLayouts hr.wellFormed.rootIsEntryPoint,
      hown.sameValues hr.hasLayouts fun hvar' => ?_⟩
    cases hvar.symm.trans hvar'

end Graph

end FlowGraph
