import FlowGraph.Proofs.Readings
import FlowGraph.Proofs.Safety

/-!
# Variables with another value of their own

A variable that is pushed is read as its own value until it is initialized. Where no instruction reads it so early,
its own value makes no difference to a run.
-/

namespace FlowGraph

open Relation

theorem Node.value_modifyProperty {n : Node} {v : Value} (h : n.value = v) :
    (n.modifyProperty 0 (·.setValue v)).value = n.value := by
  by_cases hsize : 0 < n.properties.size
  · rw [h]
    exact congrArg Property.value (property_modifyProperty hsize)
  · have hnone : n.properties.toList = [] := List.eq_nil_of_length_eq_zero (Nat.eq_zero_of_not_pos hsize)
    simp only [value, valueProperty, property, modifyProperty, PropertyBag.get?, PropertyBag.modify, hnone,
      List.modify_nil]

inductive Graph.Reads (g : Graph) (m : Memory) : Op → NodeId → Prop
  | deref {y : NodeId} : Reads g m (.deref y) y
  | self {y : NodeId} {n : Node} : g.node y = .ok n → n.isInvokable = false → n.kind ≠ .variable → Reads g m (.eval y) y
  | own {y : NodeId} {n : Node} : g.node y = .ok n → n.kind = .variable → m.pushed? y = some none →
      n.valueIn?.bind Slot.first? = none → Reads g m (.eval y) y
  | initializer {y : NodeId} {n : Node} {r : SlotRef} : g.node y = .ok n → n.kind = .variable →
      m.pushed? y = some none → n.valueIn?.bind Slot.first? = some r → Reads g m (.eval y) r.node
  | argument {y : NodeId} {n : Node} {slot : Slot} {r : SlotRef} : g.node y = .ok n → n.isInvokable = true →
      slot ∈ n.filterSlots .input → slot.first? = some r → Reads g m (.eval y) r.node

/-- The states that code comes to from its first line. -/
inductive Code.ReachesState (g : Graph) (c : Code) : State → Prop
  | start : ReachesState g c {}
  | step {s s' : State} {target : Nat} : ReachesState g c s → c.advance g s = (.ok (some target), s') →
      ReachesState g c (s'.at target)

namespace Graph

variable {g own : Graph} {m : Memory} {x y : NodeId} {n : Node} {v : Value} {k : Nat} {s : State} {op : Op}

def ReadsSame (g : Graph) (x : NodeId) (v : Value) (m : Memory) (y : NodeId) : Prop :=
  ReflTransGen (RefersTo g) y x → m.pushed? x = some none →
    ∀ n, g.nodeAt? x = some n → n.kind = .variable → n.value = v

/-- Some instruction reads the variable before it is initialized, and not as this value. -/
def ReadsEarly (g : Graph) (c : Code) (x : NodeId) (v : Value) : Prop :=
  ∃ s op y, c.ReachesState g s ∧ c.op? s.registers.cursor = some op ∧ Reads g s.memory op y ∧
  ¬ReadsSame g x v s.memory y

structure OwnValueSet (g own : Graph) (x : NodeId) (v : Value) : Prop where
  library : own.library = g.library
  other : ∀ y, y ≠ x → own.nodeAt? y = g.nodeAt? y
  reader : ∃ n, g.nodeAt? x = some n ∧ n.kind = .variable ∧
    own.nodeAt? x = some (n.modifyProperty 0 (·.setValue v))

namespace OwnValueSet

theorem node (hp : OwnValueSet g own x v) (hn : g.nodeAt? y = some n) : ∃ n', own.nodeAt? y = some n' ∧
    n'.frame = n.frame ∧ n'.slots = n.slots ∧ (y ≠ x → n' = n) := by
  by_cases hy : y = x
  · subst hy
    obtain ⟨n', hn', -, hown⟩ := hp.reader
    cases hn.symm.trans hn'
    exact ⟨_, hown, rfl, rfl, fun hne => (hne rfl).elim⟩
  · exact ⟨n, (hp.other y hy).trans hn, rfl, rfl, fun _ => rfl⟩

theorem live_iff (hp : OwnValueSet g own x v) (y : NodeId) : (own.nodeAt? y).isSome ↔ (g.nodeAt? y).isSome := by
  by_cases hy : y = x
  · subst hy
    obtain ⟨n, hn, -, hown⟩ := hp.reader
    rw [hn, hown]
    exact iff_of_true rfl rfl
  · rw [hp.other y hy]

theorem depthBound_eq (hp : OwnValueSet g own x v) : own.depthBound = g.depthBound :=
  Nat.le_antisymm (depthBound_le fun y => (hp.live_iff y).1) (depthBound_le fun y => (hp.live_iff y).2)

theorem contains_eq (hp : OwnValueSet g own x v) (y : NodeId) : own.contains y = g.contains y := by
  rw [Bool.eq_iff_iff, contains_iff, contains_iff, hp.live_iff]

theorem readWithin_eq (hp : OwnValueSet g own x v) (hl : HasLayouts g) (hw : LinksMatch g) (hn : g.nodeAt? y = some n)
    (hquiet : ReadsSame g x v m y) : own.readWithin m k y = g.readWithin m k y := by
  induction k generalizing y n with
  | zero => rfl
  | succ k ih =>
    obtain ⟨n', hn', hframe, hslots, hother⟩ := hp.node hn
    rw [readWithin, readWithin, node?_eq_some_iff.2 hn', node?_eq_some_iff.2 hn]
    by_cases hy : y = x
    · obtain ⟨reader, hreader, hkind, hown⟩ := hp.reader
      subst hy
      cases hn.symm.trans hreader
      cases hn'.symm.trans hown
      have hkind' : (n.modifyProperty 0 (·.setValue v)).kind = .variable := hkind
      simp only [hkind, hkind']
      cases hpushed : m.pushed? y with
      | none => rfl
      | some value =>
        cases value with
        | some w => rfl
        | none =>
          have hvalue := hquiet .refl hpushed n hn hkind
          exact congrArg Except.ok (Node.value_modifyProperty hvalue)
    · obtain rfl := hother hy
      dsimp only
      split
      next => rfl
      next hkind =>
        cases hr : n'.valueIn?.bind Slot.first? with
        | none => rfl
        | some r =>
          obtain ⟨source, hsource⟩ := live_of_valueIn hl hw hn hr
          have hpoints : RefersTo g y r.node := by
            simp only [RefersTo, referencedVariable, bind_eq_ok, node_eq_ok_iff]
            exact ⟨n', hn, by rw [if_pos hkind, hr]; rfl⟩
          exact ih hsource fun hreach => hquiet (.head hpoints hreach)
      next => rfl

theorem read_eq (hp : OwnValueSet g own x v) (hl : HasLayouts g) (hw : LinksMatch g) (hn : g.nodeAt? y = some n)
    (hquiet : ReadsSame g x v m y) : own.read m y = g.read m y := by
  rw [Graph.read, hp.depthBound_eq, hp.readWithin_eq hl hw hn hquiet, ← Graph.read]

theorem targetVariable_eq (hp : OwnValueSet g own x v) (hn : g.nodeAt? y = some n) :
    own.targetVariable y = g.targetVariable y := by
  obtain ⟨n', hn', hframe, hslots, -⟩ := hp.node hn
  have hkind : n'.kind = n.kind := (Node.of_frame hframe).2.1
  simp only [Graph.targetVariable, referencedVariable, node_eq_ok_iff.2 hn, node_eq_ok_iff.2 hn', ok_bind, hkind,
    Node.valueIn?, Node.findSlotOf?, Node.filterSlots, hslots]

end OwnValueSet

end Graph

namespace Exec

open FlowGraph.Graph

variable {g own : Graph} {x y : NodeId} {n : Node} {v : Value} {s : State} {op : Op}

theorem apply_mapM_congr {α β : Type} {f f' : α → Exec β} {as : List α}
    (hf : ∀ a ∈ as, (f a).apply s = (f' a).apply s) (hstill : ∀ a ∈ as, ((f' a).apply s).2 = s) :
    (as.mapM f).apply s = (as.mapM f').apply s := by
  induction as with
  | nil => rfl
  | cons a as ih =>
    rw [List.mapM_cons, List.mapM_cons, apply_bind, apply_bind, hf a List.mem_cons_self]
    have hstate := hstill a List.mem_cons_self
    rcases hr : (f' a).apply s with ⟨t | b, s'⟩
    · rfl
    · rw [hr] at hstate
      obtain rfl : s' = s := hstate
      dsimp only
      rw [apply_bind, apply_bind, ih (fun a' ha' => hf a' (List.mem_cons_of_mem _ ha')) fun a' ha' =>
        hstill a' (List.mem_cons_of_mem _ ha')]

theorem apply_argument_snd (g : Graph) (n : Node) (slot : Slot) (s : State) : ((argument g n slot).apply s).2 = s := by
  unfold argument
  dsimp only
  split
  next => rfl
  next source _ =>
    rw [apply_bind, apply_read]
    cases g.read s.memory source.node with
    | error t => rfl
    | ok w =>
      dsimp only
      split
      next =>
        cases g.targetVariable source.node with
        | error f => rfl
        | ok target => rfl
      next => rfl

section

variable (hp : OwnValueSet g own x v) (hl : HasLayouts g) (hw : LinksMatch g)
variable (hquiet : ∀ z, Reads g s.memory (.eval y) z → ReadsSame g x v s.memory z)

include hp hl hw hquiet

theorem apply_argument (hn : g.nodeAt? y = some n) (hinvokable : n.isInvokable = true) {slot : Slot}
    (hslot : slot ∈ n.filterSlots .input) : (argument own n slot).apply s = (argument g n slot).apply s := by
  unfold argument
  dsimp only
  cases hr : slot.first? with
  | none => rfl
  | some r =>
    obtain ⟨source, hsource⟩ := live_of_first hl hw hn hslot hr
    dsimp only
    rw [apply_bind, apply_bind, apply_read, apply_read, hp.targetVariable_eq hsource,
      hp.read_eq hl hw hsource (hquiet r.node (.argument (node_eq_ok_iff.2 hn) hinvokable hslot hr))]

theorem apply_invoke (hn : g.nodeAt? y = some n) (hinvokable : n.isInvokable = true) :
    (invoke own n).apply s = (invoke g n).apply s := by
  unfold invoke
  rw [hp.library]
  split
  next => rfl
  next f _ =>
    rw [apply_bind, apply_bind, apply_mapM_congr (fun slot hslot =>
      apply_argument hp hl hw hquiet hn hinvokable hslot) fun slot _ => apply_argument_snd g n slot s]

theorem apply_firstValue {n' : Node} (hn : g.nodeAt? y = some n) (hn' : own.nodeAt? y = some n')
    (hkind : n.kind = .variable) : (firstValue own n').apply s = (firstValue g n).apply s := by
  obtain ⟨_, hn'', hframe, hslots, hother⟩ := hp.node hn
  cases hn'.symm.trans hn''
  have hid : n'.id = n.id := by
    simp only [Node.frame, Node.mk.injEq] at hframe
    exact hframe.1
  have hvalueIn : n'.valueIn? = n.valueIn? := by
    rw [Node.valueIn?, Node.findSlotOf?, Node.filterSlots, hslots]
    rfl
  unfold firstValue
  rw [hid, hvalueIn]
  rw [apply_get_bind, apply_get_bind]
  split
  next => rfl
  next => rfl
  next hpushed =>
    rw [hl.id_eq hn] at hpushed
    cases hr : n.valueIn?.bind Slot.first? with
    | some r =>
      obtain ⟨source, hsource⟩ := live_of_valueIn hl hw hn hr
      dsimp only
      rw [apply_bind, apply_bind, apply_read, apply_read, hp.read_eq hl hw hsource
        (hquiet r.node (.initializer (node_eq_ok_iff.2 hn) hkind hpushed hr))]
    | none =>
      have hvalue : n'.value = n.value := by
        by_cases hy : y = x
        · obtain ⟨reader, hreader, -, hown⟩ := hp.reader
          subst hy
          cases hn.symm.trans hreader
          cases hn'.symm.trans hown
          have hown := hquiet y (.own (node_eq_ok_iff.2 hn) hkind hpushed hr) .refl hpushed n hn hkind
          exact Node.value_modifyProperty hown
        · rw [hother hy]
      dsimp only
      rw [hvalue]

theorem apply_valueFor {n' : Node} (hn : g.nodeAt? y = some n) (hn' : own.nodeAt? y = some n') :
    (valueFor own n').apply s = (valueFor g n).apply s := by
  by_cases hvariable : n.kind = .variable
  · have hfirst := apply_firstValue hp hl hw hquiet hn hn' hvariable
    obtain ⟨_, hn'', hframe, -⟩ := hp.node hn
    cases hn'.symm.trans hn''
    unfold valueFor
    rw [(Node.of_frame hframe).2.1, hvariable]
    exact hfirst
  · have hy : y ≠ x := by
      rintro rfl
      obtain ⟨reader, hreader, hkind, -⟩ := hp.reader
      cases hn.symm.trans hreader
      exact hvariable hkind
    cases hn'.symm.trans ((hp.other y hy).trans hn)
    unfold valueFor
    split
    next hkind => exact (hvariable hkind).elim
    next hkind => rw [apply_bind, apply_bind, apply_invoke hp hl hw hquiet hn (by rw [Node.isInvokable, hkind]; rfl)]
    next hkind => rw [apply_bind, apply_bind, apply_invoke hp hl hw hquiet hn (by rw [Node.isInvokable, hkind]; rfl)]
    next hfunction hoperator =>
      have hinvokable : n.isInvokable = false := by
        rw [Node.isInvokable]
        cases hkind : n.kind with
        | function => exact (hfunction hkind).elim
        | operator => exact (hoperator hkind).elim
        | _ => rfl
      rw [apply_bind, apply_bind, apply_read, apply_read, hl.id_eq hn,
        hp.read_eq hl hw hn (hquiet y (.self (node_eq_ok_iff.2 hn) hinvokable hvariable))]

theorem apply_evaluate (hn : g.nodeAt? y = some n) : (evaluate own y).apply s = (evaluate g y).apply s := by
  obtain ⟨n', hn', -⟩ := hp.node hn
  unfold evaluate
  rw [node?_eq_some_iff.2 hn', node?_eq_some_iff.2 hn]
  change (valueFor own n' >>= _).apply s = (valueFor g n >>= _).apply s
  rw [apply_bind, apply_bind, apply_valueFor hp hl hw hquiet hn hn']

end

theorem apply_perform (hp : OwnValueSet g own x v) (hl : HasLayouts g) (hw : LinksMatch g) (hlive : op.NodesExist g)
    (hquiet : ∀ z, Reads g s.memory op z → ReadsSame g x v s.memory z) :
    (perform own op).apply s = (perform g op).apply s := by
  cases op with
  | deref y =>
    obtain ⟨n, hn⟩ := Option.isSome_iff_exists.1 (contains_iff.1 hlive)
    unfold perform
    dsimp only
    rw [apply_bind, apply_bind, apply_read, apply_read, hp.read_eq hl hw hn (hquiet y .deref)]
  | eval y =>
    obtain ⟨n, hn⟩ := Option.isSome_iff_exists.1 (contains_iff.1 hlive)
    unfold perform
    dsimp only
    rw [apply_bind, apply_bind, apply_evaluate hp hl hw hquiet hn]
  | pushVar y =>
    unfold perform
    dsimp only
    rw [hp.contains_eq]
  | mov target word => cases target <;> rfl
  | _ => rfl

end Exec

namespace Code

open FlowGraph.Graph

variable {g own : Graph} {c : Code} {x : NodeId} {v : Value} {s : State}

theorem finish_eq (hp : OwnValueSet g own x v) (hvalidCode : ValidCode g c) (hnot : ¬ReadsEarly g c x v)
    (hs : c.ReachesState g s) (n : Nat) : c.finish own n s = c.finish g n s := by
  have hadvance {s : State} (hs : c.ReachesState g s) : c.advance own s = c.advance g s := by
    unfold advance
    dsimp only
    cases hop : c.op? s.registers.cursor with
    | none => rfl
    | some op =>
      dsimp only
      rw [Exec.apply_perform hp hvalidCode.hasLayouts hvalidCode.linksMatch (hvalidCode.nodesExist hop) fun z hz => ?_]
      by_contra haffected
      exact hnot ⟨s, op, z, hs, hop, hz, haffected⟩
  induction n generalizing s with
  | zero => rfl
  | succ n ih =>
    rw [finish, finish, hadvance hs]
    rcases hr : c.advance g s with ⟨t | _ | target, s'⟩
    · rfl
    · rfl
    · exact ih (hs.step hr)

end Code

end FlowGraph
