import FlowGraph.Proofs.Atomicity
import FlowGraph.Proofs.Readings

/-!
# References in a circle

A link is checked on its own, so references may come to refer to each other in a circle, and a read that comes to such a
circle has no end. Apart from that, compiled code fails over its own graph only as instructions are meant to.
-/

namespace FlowGraph

open Relation

namespace Exec

variable {α β : Type} {x : Exec α} {s : State}

def Endless (x : Exec α) (s : State) : Prop := ∃ s', x.apply s = (.error (.fault .endless), s')

abbrev Ends (x : Exec α) : Prop := ReturnsOrTraps (· ≠ .fault .endless) (fun _ => True) x

theorem Ends.not_endless (h : Ends x) : ¬x.Endless s := fun ⟨_, heq⟩ => h.trap (congrArg Prod.fst heq) rfl

theorem endless_bind_iff {f : α → Exec β} (hf : ∀ a, Ends (f a)) : (x >>= f).Endless s ↔ x.Endless s := by
  constructor
  · rintro ⟨s', h⟩
    obtain hx | ⟨a, s₁, -, ha⟩ := bind_eq_error_iff.1 h
    · exact ⟨s', hx⟩
    · exact ((hf a).not_endless ⟨s', ha⟩).elim
  · rintro ⟨s', hx⟩
    exact ⟨s', bind_eq_error_iff.2 (.inl hx)⟩

/-- The first that comes to no end keeps the others from their turn. -/
theorem endless_mapM_iff {f : α → Exec β} (hf : ∀ a, KeepsState (f a)) {as : List α} : (as.mapM f).Endless s ↔
    ∃ before a after, as = before ++ a :: after ∧ (∀ b ∈ before, ∃ v, (f b).apply s = (.ok v, s)) ∧
      (f a).Endless s := by
  induction as with
  | nil =>
    refine iff_of_false (fun ⟨_, h⟩ => by cases h) ?_
    rintro ⟨before, a, after, h, -⟩
    simp at h
  | cons a as ih =>
    rw [List.mapM_cons]
    constructor
    · rintro ⟨s', h⟩
      obtain ha | ⟨b, s₁, hb, hrest⟩ := bind_eq_error_iff.1 h
      · exact ⟨[], a, as, rfl, nofun, s', ha⟩
      · obtain rfl := hf a s _ s₁ hb
        obtain ⟨before, c, after, rfl, hbefore, hc⟩ :=
          ih.1 ((endless_bind_iff fun _ => .pure trivial).1 ⟨s', hrest⟩)
        exact ⟨a :: before, c, after, rfl, List.forall_mem_cons.2 ⟨⟨b, hb⟩, hbefore⟩, hc⟩
    · rintro ⟨before, c, after, hsplit, hbefore, hc⟩
      cases before with
      | nil =>
        cases hsplit
        obtain ⟨s', hc⟩ := hc
        exact ⟨s', bind_eq_error_iff.2 (.inl hc)⟩
      | cons b before =>
        cases hsplit
        obtain ⟨⟨v, hv⟩, hbefore⟩ := List.forall_mem_cons.1 hbefore
        obtain ⟨s', hrest⟩ := (endless_bind_iff fun _ => .pure trivial).2 (ih.2 ⟨before, c, after, rfl, hbefore, hc⟩)
        exact ⟨s', bind_eq_error_iff.2 (.inr ⟨v, s, hv, hrest⟩)⟩

end Exec

namespace Graph

variable {g : Graph} {c : Code} {id x : NodeId} {n : Node} {op : Op} {s : State} {memory : Memory}

inductive ReadsCircle (g : Graph) (memory : Memory) : Op → Prop
  | deref {x : NodeId} : LeadsToCircle g x → ReadsCircle g memory (.deref x)
  | eval {x : NodeId} : LeadsToCircle g x → ReadsCircle g memory (.eval x)
  | initializer {x : NodeId} {n : Node} {r : SlotRef} : g.node x = .ok n → n.kind = .variable →
      memory.pushed? x = some none → n.valueIn?.bind Slot.first? = some r → LeadsToCircle g r.node →
      ReadsCircle g memory (.eval x)
  | argument {x : NodeId} {n : Node} {before after : List Slot} {slot : Slot} {r : SlotRef} : g.node x = .ok n →
      n.isInvokable = true → n.filterSlots .input = before ++ slot :: after →
      (∀ b ∈ before, ∀ q, b.first? = some q → ∃ v, g.read memory q.node = .ok v) → slot.first? = some r →
      LeadsToCircle g r.node → ReadsCircle g memory (.eval x)

theorem ReadsCircle.exists_circle (h : ReadsCircle g memory op) : ∃ y, TransGen (RefersTo g) y y := by
  cases h with
  | deref h | eval h | initializer _ _ _ _ h | argument _ _ _ _ _ h =>
    obtain ⟨y, -, hcircle⟩ := h
    exact ⟨y, hcircle⟩

theorem LeadsToCircle.reference (h : LeadsToCircle g x) (hn : g.nodeAt? x = some n) : n.kind = .variableRef := by
  obtain ⟨y, hpoints, -⟩ := h.refersTo
  rw [RefersTo, referencedVariable, node_eq_ok_iff.2 hn, ok_bind] at hpoints
  by_contra hkind
  rw [if_neg hkind] at hpoints
  cases hpoints

def FeedsCircle (g : Graph) (slot : Option Slot) : Prop :=
  ∃ r, slot.bind Slot.first? = some r ∧ LeadsToCircle g r.node

theorem readsCircle_eval_iff (hn : g.nodeAt? x = some n) : ReadsCircle g memory (.eval x) ↔
    LeadsToCircle g x ∨ n.kind = .variable ∧ memory.pushed? x = some none ∧ FeedsCircle g n.valueIn? ∨
      n.isInvokable = true ∧ ∃ before slot after, n.filterSlots .input = before ++ slot :: after ∧
        (∀ b ∈ before, ∀ q, b.first? = some q → ∃ v, g.read memory q.node = .ok v) ∧ FeedsCircle g (some slot) := by
  have hnode := node_eq_ok_iff.2 hn
  constructor
  · intro h
    cases h with
    | eval hcircle => exact .inl hcircle
    | initializer hn' hkind hpushed hr hcircle =>
      cases hnode.symm.trans hn'
      exact .inr (.inl ⟨hkind, hpushed, _, hr, hcircle⟩)
    | argument hn' hinvokable hsplit hbefore hr hcircle =>
      cases hnode.symm.trans hn'
      exact .inr (.inr ⟨hinvokable, _, _, _, hsplit, hbefore, _, hr, hcircle⟩)
  · rintro (hcircle | ⟨hkind, hpushed, r, hr, hcircle⟩ | ⟨hinvokable, before, slot, after, hsplit,
    hbefore, r, hr, hcircle⟩)
    · exact .eval hcircle
    · exact .initializer hnode hkind hpushed hr hcircle
    · exact .argument hnode hinvokable hsplit hbefore hr hcircle

end Graph

namespace Exec

open FlowGraph.Graph

variable {g : Graph} {c : Code} {id x : NodeId} {n : Node} {op : Op} {s : State}

theorem endless_read_iff (hl : HasLayouts g) (hw : LinksMatch g) (hn : g.nodeAt? id = some n) :
    (read g id).Endless s ↔ LeadsToCircle g id := by
  rw [Endless, apply_read]
  constructor
  · rintro ⟨s', h⟩
    exact leadsToCircle_of_read hl hw hn (congrArg Prod.fst h)
  · exact fun h => ⟨s, by rw [Graph.read, readWithin_of_leadsToCircle h]⟩

theorem endless_argument_iff (hl : HasLayouts g) (hw : LinksMatch g) (hn : g.nodeAt? id = some n) {slot : Slot}
    (hslot : slot ∈ n.filterSlots .input) :
    (argument g n slot).Endless s ↔ FeedsCircle g (some slot) := by
  unfold argument FeedsCircle
  dsimp only [Option.bind_some]
  split
  next hnone =>
    refine iff_of_false (fun ⟨_, h⟩ => by cases h) ?_
    rintro ⟨r, hr, -⟩
    cases hnone.symm.trans hr
  next r hr =>
    obtain ⟨m, hm⟩ := live_of_first hl hw hn hslot hr
    rw [endless_bind_iff, endless_read_iff hl hw hm, hr]
    · simp
    · intro v
      split
      next =>
        obtain ⟨target, htarget⟩ := exists_targetVariable hm
        exact (ReturnsOrTraps.lift htarget (Q := fun _ => True) trivial).bind fun _ _ => .pure trivial
      next => exact .pure trivial

theorem argument_eq_ok_iff (hl : HasLayouts g) (hw : LinksMatch g) (hn : g.nodeAt? id = some n) {slot : Slot}
    (hslot : slot ∈ n.filterSlots .input) : (∃ v, (argument g n slot).apply s = (.ok v, s)) ↔
      ∀ r, slot.first? = some r → ∃ v, g.read s.memory r.node = .ok v := by
  unfold argument
  dsimp only
  split
  next hnone =>
    refine iff_of_true ⟨_, rfl⟩ fun r hr => ?_
    cases hnone.symm.trans hr
  next r hr =>
    obtain ⟨m, hm⟩ := live_of_first hl hw hn hslot hr
    obtain ⟨target, htarget⟩ := exists_targetVariable hm
    rw [hr]
    constructor
    · rintro ⟨v, h⟩ q ⟨⟩
      obtain ⟨value, s₁, hread, -⟩ := bind_eq_ok_iff.1 h
      exact ⟨value, (read_eq_ok_iff.1 hread).1⟩
    · intro h
      obtain ⟨v, hv⟩ := h r rfl
      have hread := (@read_eq_ok_iff g r.node s s v).2 ⟨hv, rfl⟩
      split
      next =>
        exact ⟨_, bind_eq_ok_iff.2 ⟨v, s, hread, bind_eq_ok_iff.2 ⟨target, s, lift_eq_ok_iff.2 ⟨htarget, rfl⟩, rfl⟩⟩⟩
      next => exact ⟨_, bind_eq_ok_iff.2 ⟨v, s, hread, rfl⟩⟩

theorem ends_assign (v : NodeId) (w : Value) : Ends (assign v w) := returnsOrTraps_assign (by exact nofun) w

theorem endless_invoke_iff (hl : HasLayouts g) (hw : LinksMatch g) (he : NodesListed g) (hvalid : g.validate = .ok [])
    (hn : g.nodeAt? id = some n) (hinvokable : n.isInvokable = true) : (invoke g n).Endless s ↔
      ∃ before slot after, n.filterSlots .input = before ++ slot :: after ∧
        (∀ b ∈ before, ∀ q, b.first? = some q → ∃ v, g.read s.memory q.node = .ok v) ∧ FeedsCircle g (some slot) := by
  obtain ⟨signature, hs, -⟩ := hl.inputs_of_invokable hn hinvokable
  obtain ⟨f, hf⟩ := resolved_of_validate he hvalid hn hs
  obtain ⟨fn, hfn, -⟩ := g.library.get?_of_find? hf
  have hresolved : n.signature.bind g.library.find? = some f := by rw [hs, Option.bind_some, hf]
  have hanswer (args : List Value) : g.library.call f args = .ok (fn.call args) := by rw [Library.call, hfn]
  unfold invoke
  rw [hresolved]
  dsimp only
  refine (endless_bind_iff fun arguments => ?_).trans ((endless_mapM_iff (keepsState_argument g n)).trans ?_)
  · refine (ReturnsOrTraps.lift (hanswer _) (Q := fun _ => True) trivial).bind fun r _ => ?_
    split
    next => exact .fail (fun h => by cases h)
    next => exact (ReturnsOrTraps.forM (fun v => ends_assign v _) _).bind fun _ _ => .pure trivial
  · refine exists_congr fun before => exists_congr fun slot => exists_congr fun after => and_congr_right
      fun hsplit => ?_
    have hmem {b : Slot} (hb : b ∈ before ++ slot :: after) : b ∈ n.filterSlots .input := hsplit ▸ hb
    refine and_congr (forall₂_congr fun b hb => ?_) (endless_argument_iff hl hw hn (hmem (by simp)))
    exact argument_eq_ok_iff hl hw hn (hmem (List.mem_append_left _ hb))

theorem endless_firstValue_iff (hl : HasLayouts g) (hw : LinksMatch g) (hn : g.nodeAt? id = some n) :
    (firstValue g n).Endless s ↔ s.memory.pushed? id = some none ∧ FeedsCircle g n.valueIn? := by
  have hassign (v : Value) : Ends (do assign n.id v; return v : Exec Value) :=
    (ends_assign n.id v).bind fun _ _ => .pure trivial
  rw [← hl.id_eq hn]
  unfold firstValue
  rw [Endless, apply_get_bind]
  cases hpushed : s.memory.pushed? n.id with
  | none => exact iff_of_false (fun ⟨_, h⟩ => by cases h) fun h => by cases h.1
  | some value =>
    cases value with
    | some v => exact iff_of_false (fun ⟨_, h⟩ => by cases h) fun h => by cases h.1
    | none =>
      rw [eq_self, true_and]
      unfold FeedsCircle
      cases hfirst : n.valueIn?.bind Slot.first? with
      | none =>
        refine ((endless_bind_iff hassign (x := Pure.pure n.value)).trans ?_)
        exact iff_of_false (fun ⟨_, h⟩ => by cases h) nofun
      | some r =>
        obtain ⟨m, hm⟩ := live_of_valueIn hl hw hn hfirst
        refine (endless_bind_iff hassign (x := read g r.node)).trans ((endless_read_iff hl hw hm).trans ?_)
        simp only [Option.some.injEq, exists_eq_left']

theorem endless_evaluate_iff (hl : HasLayouts g) (hw : LinksMatch g) (he : NodesListed g) (hvalid : g.validate = .ok [])
    (hn : g.nodeAt? id = some n) : (evaluate g id).Endless s ↔ ReadsCircle g s.memory (.eval id) := by
  have hkeep (v : Value) : Ends (do modifyMemory (·.setValue n.id v); return v : Exec Value) :=
    (ReturnsOrTraps.setValue n.id v).bind fun _ _ => .pure trivial
  have hvalue : (evaluate g id).Endless s ↔ (valueFor g n).Endless s := by
    have hfound : (lift (g.node? id)).apply s = (.ok (some n), s) := lift_eq_ok_iff.2 ⟨node?_eq_some_iff.2 hn, rfl⟩
    rw [Endless, evaluate, apply_bind, hfound]
    refine endless_bind_iff fun v => ?_
    exact (ReturnsOrTraps.write (by decide) _).bind fun _ _ => .modify fun _ => ⟨rfl, fun _ => rfl⟩
  have hno (hkind : n.kind ≠ .variableRef) : ¬LeadsToCircle g id := fun h => hkind (h.reference hn)
  rw [hvalue, readsCircle_eval_iff hn]
  unfold valueFor Node.isInvokable
  split
  next hkind =>
    rw [endless_firstValue_iff hl hw hn, hkind]
    simp [hno, hkind, NodeKind.isInvokable]
  next hkind =>
    rw [endless_bind_iff hkeep, endless_invoke_iff hl hw he hvalid hn (by rw [Node.isInvokable, hkind]; rfl), hkind]
    simp [hno, hkind, NodeKind.isInvokable]
  next hkind =>
    rw [endless_bind_iff hkeep, endless_invoke_iff hl hw he hvalid hn (by rw [Node.isInvokable, hkind]; rfl), hkind]
    simp [hno, hkind, NodeKind.isInvokable]
  next hvariable hfunction hoperator =>
    rw [endless_bind_iff hkeep, hl.id_eq hn, endless_read_iff hl hw hn]
    have hplain : n.kind.isInvokable = false := by
      unfold NodeKind.isInvokable
      split
      next h => exact (hfunction h).elim
      next h => exact (hoperator h).elim
      next => rfl
    simp only [hplain, iff_false_intro hvariable, Bool.false_eq_true, false_and, or_false]

theorem endless_perform_iff (hg : ValidCode g c) {line : Nat} (hop : c.op? line = some op) :
    (perform g op).Endless s ↔ ReadsCircle g s.memory op := by
  cases op with
  | deref x =>
    obtain ⟨n, hn⟩ := Option.isSome_iff_exists.1 (contains_iff.1 (hg.nodesExist hop))
    refine (endless_bind_iff fun v => ?_).trans ((endless_read_iff hg.hasLayouts hg.linksMatch hn).trans ?_)
    · exact (ReturnsOrTraps.write (by decide) _).bind fun _ _ => .pure trivial
    · refine ⟨.deref, fun h => ?_⟩
      cases h with
      | deref h => exact h
  | eval x =>
    obtain ⟨n, hn⟩ := Option.isSome_iff_exists.1 (contains_iff.1 (hg.nodesExist hop))
    refine (endless_bind_iff fun _ => .pure trivial).trans ?_
    exact endless_evaluate_iff hg.hasLayouts hg.linksMatch hg.nodesListed hg.valid hn
  | pushVar v =>
    refine iff_of_false ?_ (fun h => by cases h)
    rintro ⟨_, h⟩
    have hlive : g.contains v = true := hg.nodesExist hop
    rw [perform, hlive] at h
    cases h
  | popVar v =>
    refine iff_of_false ?_ (fun h => by cases h)
    rintro ⟨_, h⟩
    change (if (s.memory.pushed? v).isNone = true then _ else _ : Exec Move).apply s = _ at h
    split at h
    next => cases h
    next => cases h
  | mov target word =>
    refine iff_of_false ?_ (fun h => by cases h)
    rintro ⟨_, h⟩
    cases target with
    | eip | rax | rdx => cases h
  | cmp | jmp | jne | pushFrame | popFrame | ret =>
    refine iff_of_false ?_ (fun h => by cases h)
    rintro ⟨_, h⟩
    cases h

end Exec

variable {g : Graph} {c : Code} {s s' : State} {t : Trap}

theorem Code.advance_endless_iff (hg : g.ValidCode c) {op : Op} (hop : c.op? s.registers.cursor = some op)
    (h : c.advance g s = (.error t, s')) :
    (t = .fault .endless ↔ g.ReadsCircle s.memory op) ∧ (t = .fault .endless → s' = s) := by
  have hsame : t = .fault .endless → s' = s := by
    rintro rfl
    obtain hsame | ⟨id, v, done, x, hop, hfailsWhileWriting⟩ := Code.advance_eq_error h
    · exact hsame
    · cases (congrArg Prod.fst h).symm.trans
        (congrArg Prod.fst (Code.advance_of_failsWhileWriting hop hfailsWhileWriting))
  refine ⟨?_, hsame⟩
  rw [← Exec.endless_perform_iff hg hop]
  simp only [advance, hop] at h
  constructor
  · rintro rfl
    split at h
    next hperform =>
      cases h
      exact ⟨_, hperform⟩
    next move s₁ hperform =>
      split at h
      next => cases h
      next => cases h
  · rintro ⟨s₁, hperform⟩
    rw [hperform] at h
    cases h
    rfl

namespace Machine

variable {m m' : Machine}

/-- The instruction under the cursor comes to read a node from which references lead into a circle. -/
def ReadsCircle (g : Graph) (m : Machine) : Prop := ∃ op, m.nextOp? = some op ∧ g.ReadsCircle m.state.memory op

theorem step_endless_iff (hg : g.ValidCode c) (hprogram : m.program = some c) (h : m.step g = (m', .error t)) :
    (t = .fault .endless ↔ m.ReadsCircle g) ∧ (t = .fault .endless → m'.ReadsCircle g) := by
  obtain ⟨steps, hstep⟩ := step_eq (g := g) hprogram
  rw [h] at hstep
  rcases hadvance : c.advance g m.state with ⟨t' | target, s'⟩
  · rw [hadvance] at hstep
    cases hstep
    obtain ⟨op, hop⟩ : ∃ op, c.op? m.state.registers.cursor = some op := by
      cases hop : c.op? m.state.registers.cursor with
      | none =>
        rw [Code.advance, hop] at hadvance
        cases hadvance
      | some op => exact ⟨op, rfl⟩
    obtain ⟨hiff, hsame⟩ := Code.advance_endless_iff hg hop hadvance
    have hnext : m.nextOp? = some op := by rw [nextOp?, hprogram, Option.bind_some, cursor, hop]
    have hreads : m.ReadsCircle g ↔ g.ReadsCircle m.state.memory op := by
      simp only [ReadsCircle, hnext, Option.some.injEq, exists_eq_left']
    rw [hreads]
    refine ⟨hiff, fun ht => ⟨op, ?_, ?_⟩⟩
    · rw [← hnext, nextOp?, nextOp?, cursor, cursor, hsame ht]
    · rw [hsame ht]
      exact hiff.1 ht
  · rw [hadvance] at hstep
    rcases target with _ | target <;> cases hstep

theorem program_step (hprogram : m.program = some c) : (m.step g).1.program = some c := by
  obtain ⟨steps, hstep⟩ := step_eq (g := g) hprogram
  rw [hstep]
  split <;> exact hprogram

/-- A run that fails does so in its last step, if it does not come to its limit. -/
theorem exists_step_of_proceed {n : Nat} (hprogram : m.program = some c) (h : proceed g n m = some (m', .error t)) :
    (∃ limit, t = .error (.stepLimit limit)) ∨ ∃ m₁ : Machine, m₁.program = some c ∧ m₁.step g = (m', .error t) := by
  induction n generalizing m with
  | zero => cases h
  | succ n ih =>
    simp only [proceed] at h
    split at h
    next limit _ =>
      cases h
      exact .inl ⟨limit, rfl⟩
    next =>
      split at h
      next m₁ hstep => exact ih (by simpa [hstep] using program_step (g := g) hprogram) h
      next => cases h
      next hstep =>
        cases h
        exact .inr ⟨m, hprogram, hstep⟩

theorem readsCircle_of_run {n : Nat} (hg : g.ValidCode c) (hprogram : m.program = some c)
    (hstopped : m.isStopped = true) (h : m.run g n = some (m', .error (.fault .endless))) : m'.ReadsCircle g := by
  unfold Machine.run at h
  obtain ⟨hbusy, -⟩ | ⟨-, hstart⟩ := start_eq hprogram .running
  · cases hbusy.symm.trans hstopped
  · rw [hstart] at h
    obtain ⟨⟨m₁, r₁⟩, hproceed, hsettle⟩ := Option.map_eq_some_iff.1 h
    have hended : r₁ = .error (.fault .endless) ∧ m₁ = m' := by
      cases r₁ with
      | ok a => cases hsettle
      | error t =>
        cases t with
        | error e => cases hsettle
        | fault f =>
          cases hsettle
          exact ⟨rfl, rfl⟩
    obtain ⟨rfl, rfl⟩ := hended
    obtain ⟨limit, ⟨⟩⟩ | ⟨m₂, hprogram₂, hstep⟩ := exists_step_of_proceed (m := { m.clear with mode := .running })
      hprogram hproceed
    exact (step_endless_iff hg hprogram₂ hstep).2 rfl

theorem stepOver_endless_iff (hg : g.ValidCode c) (hprogram : m.program = some c) (hdebugging : m.isDebugging = true)
    (h : m.stepOver g = (m', .error t)) : t = .fault .endless ↔ m.ReadsCircle g := by
  simp only [Machine.stepOver, hdebugging, Bool.not_true, Bool.false_eq_true, if_false] at h
  split at h
  next => cases h
  next result hother =>
    have hfailed : ∃ m₁ : Machine, m.step g = (m₁, .error t) := by
      rcases hstep : m.step g with ⟨m₁, r⟩
      rw [hstep] at h
      cases r with
      | ok a => cases h
      | error t' =>
        cases t' with
        | error e | fault f =>
          cases h
          exact ⟨_, rfl⟩
    obtain ⟨m₁, hstep⟩ := hfailed
    exact (step_endless_iff hg hprogram hstep).1

end Machine

namespace Graph

/-- If no references refer to each other in a circle, compiled code fails over its own graph only at the step limit, and
at an instruction that reads a variable that is not pushed, or that calls a function with arguments of the wrong types or
one that fails. In any case that is all it fails with, unless an instruction comes to read a node from which references
lead into a circle. -/
theorem safe_of_compile {m : Machine} {insertReturn : Bool} (hr : Reachable g)
    (hcompile : g.compile insertReturn = .ok (.ok c)) (hsession : Machine.Session g c m) :
    ((∀ x, ¬TransGen (RefersTo g) x x) →
      (∀ n m' t, m.isStopped = true → m.run g n = some (m', .error t) →
        (∃ limit, m.stepLimit = some limit ∧ t = .error (.stepLimit limit)) ∨
          ∃ op, m'.nextOp? = some op ∧ Permitted g op t) ∧
      ∀ m' t, m.isDebugging = true → m.stepOver g = (m', .error t) →
        ∃ op, m'.nextOp? = some op ∧ Permitted g op t) ∧
    (∀ n m' t, m.isStopped = true → m.run g n = some (m', .error t) →
      (∃ limit, m.stepLimit = some limit ∧ t = .error (.stepLimit limit)) ∨
        (∃ op, m'.nextOp? = some op ∧ Permitted g op t) ∨ t = .fault .endless ∧ m'.ReadsCircle g) ∧
    ∀ m' t, m.isDebugging = true → m.stepOver g = (m', .error t) →
      ((∃ op, m'.nextOp? = some op ∧ Permitted g op t) ↔ ¬m.ReadsCircle g) := by
  have hg := validCode_of_compile hr hcompile
  have hprogram := (hsession.hasProgram hg).program
  obtain ⟨hruns, hsteps⟩ := traps_of_compile hr hcompile hsession
  have hrun (n : Nat) (m' : Machine) (t : Trap) (hstopped : m.isStopped = true) (h : m.run g n = some (m', .error t)) :
      (∃ limit, m.stepLimit = some limit ∧ t = .error (.stepLimit limit)) ∨
        (∃ op, m'.nextOp? = some op ∧ Permitted g op t) ∨ t = .fault .endless ∧ m'.ReadsCircle g := by
    refine (hruns n m' t hstopped h).imp_right ?_
    rintro ⟨op, hop, hpermitted | rfl⟩
    · exact .inl ⟨op, hop, hpermitted⟩
    · exact .inr ⟨rfl, Machine.readsCircle_of_run hg hprogram hstopped h⟩
  have hstep (m' : Machine) (t : Trap) (hdebugging : m.isDebugging = true) (h : m.stepOver g = (m', .error t)) :
      (∃ op, m'.nextOp? = some op ∧ Permitted g op t) ↔ ¬m.ReadsCircle g := by
    rw [← Machine.stepOver_endless_iff hg hprogram hdebugging h]
    constructor
    · rintro ⟨op, -, hpermitted⟩
      exact hpermitted.ne_endless
    · intro hends
      obtain ⟨op, hop, htrap⟩ := hsteps m' t hdebugging h
      exact ⟨op, hop, htrap.resolve_right hends⟩
  refine ⟨fun hcircle => ⟨fun n m' t hstopped h => ?_, fun m' t hdebugging h => ?_⟩, hrun, hstep⟩
  · refine (hrun n m' t hstopped h).imp_right fun hend => hend.resolve_right ?_
    rintro ⟨-, op, -, hreads⟩
    obtain ⟨y, hy⟩ := hreads.exists_circle
    exact hcircle y hy
  · refine (hstep m' t hdebugging h).2 ?_
    rintro ⟨op, -, hreads⟩
    obtain ⟨y, hy⟩ := hreads.exists_circle
    exact hcircle y hy

/-- The sum fails as it may: the reference it takes by reference leads to the literal, and that is no circle. -/
theorem safe_misdirected : ∃ g m m', Machine.misdirected = .ok g ∧ Reachable g ∧
    g.compile false = .ok (.ok Machine.misdirectedCode) ∧ Machine.Session g Machine.misdirectedCode m ∧
    (∀ x, ¬TransGen (RefersTo g) x x) ∧ RefersTo g ⟨5⟩ ⟨4⟩ ∧ m.isDebugging = true ∧
    m.stepOver g = (m', .error (.error (.variableNotPushed ⟨4⟩))) ∧
    ∃ op, m'.nextOp? = some op ∧ Permitted g op (.error (.variableNotPushed ⟨4⟩)) := by
  obtain ⟨g, m', hg, hcompile, hstep, hdebugging, -⟩ := Machine.misdirected_fails
  have hreachable := Machine.misdirected_reachable hg
  have hrefers := eq_ok_of_toOption_bind (fun g => g.nodes.mapM fun x => return (x, ← g.referencedVariable x)) hg
    (b := [(⟨1⟩, none), (⟨3⟩, none), (⟨4⟩, none), (⟨5⟩, some ⟨4⟩), (⟨6⟩, none)]) (by decide +kernel)
  have honly {x y : NodeId} (h : RefersTo g x y) : x = ⟨5⟩ ∧ y = ⟨4⟩ := by
    obtain ⟨n, hn, -⟩ := bind_eq_ok.1 h
    have hx := hreachable.wellFormed.nodesListed.mem_nodes_iff.2 (Option.isSome_of_mem (node_eq_ok_iff.1 hn))
    obtain ⟨p, hp, hpoints⟩ := exists_of_mem_mapM hrefers hx
    rw [show g.referencedVariable x = .ok (some y) from h, ok_bind, pure_eq_ok] at hpoints
    subst hpoints
    simpa using hp
  have hrefer : RefersTo g ⟨5⟩ ⟨4⟩ := by
    obtain ⟨x, -, hx⟩ := of_mem_mapM hrefers (b := (⟨5⟩, some ⟨4⟩)) (by simp)
    obtain ⟨found, hfound, heq⟩ := bind_eq_ok.1 hx
    cases heq
    exact hfound
  have hacyclic (x : NodeId) : ¬TransGen (RefersTo g) x x := by
    intro hcircle
    obtain ⟨y, hxy, hyx⟩ := TransGen.head'_iff.1 hcircle
    obtain ⟨rfl, rfl⟩ := honly hxy
    obtain heq | ⟨z, hyz, -⟩ := ReflTransGen.cases_head hyx
    · exact absurd heq (by decide)
    · exact absurd (honly hyz).1 (by decide)
  refine ⟨g, _, m', hg, hreachable, hcompile, Machine.session_beforeSum g, hacyclic, hrefer, hdebugging, hstep, ?_⟩
  exact ((safe_of_compile hreachable hcompile (Machine.session_beforeSum g)).1 hacyclic).2 m' _ hdebugging hstep

/-- Nodes 4 and 5 were created as references to the variable 3, and refer to each other now. The negation, node 6, takes
the value of node 4. -/
def mutualReferences : Except Fault Graph := do
  let g ← create {} {} .standard {}
  let s ← g.rootScope
  [.declaration .int "x" s, .reference ⟨3⟩ s, .reference ⟨3⟩ s, .disconnect ⟨⟨⟨3⟩, ⟨3⟩⟩, ⟨⟨4⟩, ⟨0⟩⟩, .value⟩ true,
    .disconnect ⟨⟨⟨3⟩, ⟨3⟩⟩, ⟨⟨5⟩, ⟨0⟩⟩, .value⟩ true, .connect ⟨⟨4⟩, ⟨1⟩⟩ ⟨⟨5⟩, ⟨0⟩⟩ true,
    .connect ⟨⟨5⟩, ⟨1⟩⟩ ⟨⟨4⟩, ⟨0⟩⟩ true, .operator ⟨"-", .int, [⟨.int, false⟩]⟩ s,
    .connect ⟨⟨4⟩, ⟨1⟩⟩ ⟨⟨6⟩, ⟨3⟩⟩ true, .connect ⟨⟨1⟩, ⟨0⟩⟩ ⟨⟨6⟩, ⟨0⟩⟩ true].foldlM perform g

def mutualCode : Code :=
  .ofList (Program.code ⟨⟨⟨2⟩, "entry point", [⟨⟨3⟩, "x"⟩]⟩, .sequence [.evaluate ⟨6⟩ "-"]⟩ false)

def broken : Option (Machine × Except Trap Unit) → Except Fault (Option Op)
  | some (m, .error (.fault .endless)) => .ok m.nextOp?
  | _ => .error .idsExhausted

/-- The run does not come back from the negation, which has a circle of references to go through. -/
theorem not_safe_mutualReferences : ∃ g m m', mutualReferences = .ok g ∧ Reachable g ∧
    g.compile false = .ok (.ok mutualCode) ∧ Machine.Session g mutualCode m ∧ m.isStopped = true ∧ m.stepLimit = none ∧
    m.run g 20 = some (m', .error (.fault .endless)) ∧ m'.nextOp? = some (.eval ⟨6⟩) ∧
    (∀ op, ¬Permitted g op (.fault .endless)) ∧
    ∀ memory k, g.readWithin memory k ⟨4⟩ = .error (.fault .endless) := by
  obtain ⟨g, hg⟩ := exists_of_isOk (x := mutualReferences) (by decide +kernel)
  have hreachable : Reachable g := by
    simp only [mutualReferences, bind_eq_ok] at hg
    obtain ⟨g₀, hcreate, s, -, hedits⟩ := hg
    exact (Reachable.create hcreate).edits hedits
  have hcompile := eq_ok_of_toOption_bind (·.compile false) hg (b := .ok mutualCode) (by decide +kernel)
  have hrefers := eq_ok_of_toOption_bind (fun g => do
    return (← g.referencedVariable ⟨4⟩, ← g.referencedVariable ⟨5⟩)) hg (b := (some ⟨5⟩, some ⟨4⟩)) (by decide +kernel)
  have hrun := eq_ok_of_toOption_bind (fun g => broken ((({} : Machine).load mutualCode).1.run g 20)) hg
    (b := some (.eval ⟨6⟩)) (by decide +kernel)
  simp only [bind_eq_ok, pure_eq_ok, Prod.mk.injEq] at hrefers
  obtain ⟨x, hx, y, hy, rfl, rfl⟩ := hrefers
  unfold broken at hrun
  split at hrun
  next m' hm' =>
    refine ⟨g, _, m', hg, hreachable, hcompile, ?_, rfl, rfl, hm', Except.ok.inj hrun, fun op h => h.ne_endless rfl,
      fun memory k => ?_⟩
    · exact @Machine.Session.load g mutualCode {} (({} : Machine).load mutualCode).1 rfl
    · exact readWithin_of_leadsToCircle ⟨⟨4⟩, .refl, .head hx (.single hy)⟩ k
  next => cases hrun

end Graph

end FlowGraph
