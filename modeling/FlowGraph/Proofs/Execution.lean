import FlowGraph.Proofs.Correctness
import FlowGraph.Proofs.Layouts
import Mathlib.Data.List.Chain

/-!
# What an evaluation can fail with

In a graph that passes validation an evaluation finds all that it looks up, and as many arguments as the function
takes. What is left to go wrong is a variable that is not pushed, an argument of the wrong type, and the function
itself. Whatever comes out, the cursor stays where it is, and no variable is pushed or popped.
-/

namespace FlowGraph

namespace Memory

variable (m : Memory) (id v : NodeId)

theorem compare_raw_iff : compare id.raw v.raw = .eq ↔ v = id := by
  rw [Std.compare_eq_iff_eq]
  exact ⟨fun h => Handle.ext h.symm, fun h => congrArg Handle.raw h.symm⟩

theorem pushed?_push : (m.push id).pushed? v = if v = id then some none else m.pushed? v := by
  simp only [push, pushed?, Std.ExtTreeMap.getElem?_insert, compare_raw_iff]

theorem pushed?_pop : (m.pop id).pushed? v = if v = id then none else m.pushed? v := by
  simp only [pop, pushed?, Std.ExtTreeMap.getElem?_erase, compare_raw_iff]

theorem pushed?_setVariable (w : Value) :
    (m.setVariable id w).pushed? v = if v = id then some (some w) else m.pushed? v := by
  simp only [setVariable, pushed?, Std.ExtTreeMap.getElem?_insert, compare_raw_iff]

theorem value?_setValue (w : Value) : (m.setValue id w).value? v = if v = id then some w else m.value? v := by
  simp only [setValue, value?, Std.ExtTreeMap.getElem?_insert, compare_raw_iff]

end Memory

structure State.KeepsPushed (s s' : State) : Prop where
  cursor : s'.registers.cursor = s.registers.cursor
  pushed (v : NodeId) : (s'.memory.pushed? v).isSome = (s.memory.pushed? v).isSome

namespace State.KeepsPushed

theorem refl (s : State) : s.KeepsPushed s := ⟨rfl, fun _ => rfl⟩

theorem trans {s₁ s₂ s₃ : State} (h : s₁.KeepsPushed s₂) (h' : s₂.KeepsPushed s₃) : s₁.KeepsPushed s₃ :=
  ⟨h'.cursor.trans h.cursor, fun v => (h'.pushed v).trans (h.pushed v)⟩

end State.KeepsPushed

namespace Exec

variable {α β : Type}

structure ReturnsOrTraps (E : Trap → Prop) (Q : α → Prop) (x : Exec α) : Prop where
  keepsPushed (s : State) : s.KeepsPushed (x.apply s).2
  result {s : State} {a : α} : (x.apply s).1 = .ok a → Q a
  trap {s : State} {t : Trap} : (x.apply s).1 = .error t → E t

namespace ReturnsOrTraps

variable {E : Trap → Prop} {P : β → Prop} {Q : α → Prop}

theorem pure {a : α} (h : Q a) : ReturnsOrTraps E Q (Pure.pure a) where
  keepsPushed := State.KeepsPushed.refl
  result heq := by
    cases heq
    exact h
  trap heq := by cases heq

theorem throw {t : Trap} (h : E t) : ReturnsOrTraps E Q (MonadExcept.throw t : Exec α) where
  keepsPushed := State.KeepsPushed.refl
  result heq := by cases heq
  trap heq := by
    cases heq
    exact h

theorem fail {e : MachineError} (h : E (.error e)) : ReturnsOrTraps E Q (Exec.fail e) := throw h

theorem lift {x : Except Fault α} {a : α} (hx : x = .ok a) (h : Q a) : ReturnsOrTraps E Q (Exec.lift x) := by
  subst hx
  exact pure h

theorem bind {x : Exec β} {f : β → Exec α} (hx : ReturnsOrTraps E P x) (hf : ∀ b, P b → ReturnsOrTraps E Q (f b)) :
    ReturnsOrTraps E Q (x >>= f) := by
  have hcases (s : State) : (∃ b s', x.apply s = (.ok b, s') ∧ P b ∧ s.KeepsPushed s' ∧
      (x >>= f).apply s = (f b).apply s') ∨ ∃ t s', E t ∧ s.KeepsPushed s' ∧ (x >>= f).apply s = (.error t, s') := by
    have hkeeps := hx.keepsPushed s
    rw [apply_bind]
    cases hs : x.apply s with
    | mk r s' =>
      rw [hs] at hkeeps
      cases r with
      | ok b => exact .inl ⟨b, s', rfl, hx.result (congrArg Prod.fst hs), hkeeps, rfl⟩
      | error t => exact .inr ⟨t, s', hx.trap (congrArg Prod.fst hs), hkeeps, rfl⟩
  refine ⟨fun s => ?_, fun {s a} heq => ?_, fun {s t} heq => ?_⟩
  · obtain ⟨b, s', -, hb, hkeeps, hs⟩ | ⟨t, s', -, hkeeps, hs⟩ := hcases s
    · rw [hs]
      exact hkeeps.trans ((hf b hb).keepsPushed s')
    · rw [hs]
      exact hkeeps
  · obtain ⟨b, s', -, hb, -, hs⟩ | ⟨t, s', -, -, hs⟩ := hcases s
    · rw [hs] at heq
      exact (hf b hb).result heq
    · rw [hs] at heq
      cases heq
  · obtain ⟨b, s', -, hb, -, hs⟩ | ⟨t', s', ht, -, hs⟩ := hcases s
    · rw [hs] at heq
      exact (hf b hb).trap heq
    · rw [hs] at heq
      cases heq
      exact ht

theorem witnessed {x : Exec α} (hx : ReturnsOrTraps E Q x) :
    ReturnsOrTraps E (fun a => Q a ∧ ∃ s, (x.apply s).1 = .ok a) x where
  keepsPushed := hx.keepsPushed
  result {s} _ heq := ⟨hx.result heq, s, heq⟩
  trap := hx.trap

theorem get {f : State → Exec α} (hf : ∀ s, ReturnsOrTraps E Q (f s)) : ReturnsOrTraps E Q (MonadState.get >>= f) where
  keepsPushed s := (hf s).keepsPushed s
  result {s} _ heq := (hf s).result heq
  trap {s} _ heq := (hf s).trap heq

theorem modify {f : State → State} (hf : ∀ s : State, s.KeepsPushed (f s)) :
    ReturnsOrTraps E (fun _ => True) (modify f : Exec Unit) where
  keepsPushed := hf
  result _ := trivial
  trap heq := by cases heq

theorem setValue (id : NodeId) (v : Value) : ReturnsOrTraps E (fun _ => True) (modifyMemory (·.setValue id v)) :=
  ReturnsOrTraps.modify fun _ => ⟨rfl, fun _ => rfl⟩

theorem write {r : Register} (h : r ≠ .eip) (word : Word) : ReturnsOrTraps E (fun _ => True) (Exec.write r word) := by
  refine ReturnsOrTraps.modify fun s => ⟨?_, fun _ => rfl⟩
  cases r with
  | rax | rdx => rfl
  | eip => exact (h rfl).elim

theorem mapM {f : β → Exec α} {bs : List β} (hf : ∀ b ∈ bs, ReturnsOrTraps E Q (f b)) :
    ReturnsOrTraps E (fun as => as.length = bs.length) (bs.mapM f) := by
  induction bs with
  | nil => exact pure rfl
  | cons b bs ih =>
    rw [List.mapM_cons]
    refine (hf b List.mem_cons_self).bind fun a _ => ?_
    refine (ih fun b hb => hf b (List.mem_cons_of_mem _ hb)).bind fun as has => pure ?_
    rw [List.length_cons, List.length_cons, has]

theorem forM {f : β → Exec PUnit} (hf : ∀ b, ReturnsOrTraps E (fun _ => True) (f b)) (bs : List β) :
    ReturnsOrTraps E (fun _ => True) (bs.forM f) := by
  induction bs with
  | nil => exact pure trivial
  | cons b bs ih => exact (hf b).bind fun _ _ => ih

end ReturnsOrTraps

theorem apply_read (g : Graph) (id : NodeId) (s : State) : (read g id).apply s = (g.read s.memory id, s) := by
  refine (apply_get_bind _ s).trans ?_
  split
  next v hread =>
    rw [hread]
    rfl
  next t hread =>
    rw [hread]
    rfl

theorem apply_assign (id : NodeId) (w : Value) (s : State) : (assign id w).apply s =
    if (s.memory.pushed? id).isNone then (.error (.error (.variableNotPushed id)), s)
    else (.ok (), { s with memory := s.memory.setVariable id w }) := by
  change (if (s.memory.pushed? id).isNone = true then _ else _ : Exec Unit).apply s = _
  split
  next => rfl
  next => rfl

theorem returnsOrTraps_assign {E : Trap → Prop} {id : NodeId} (h : E (.error (.variableNotPushed id))) (w : Value) :
    ReturnsOrTraps E (fun _ => True) (assign id w) := by
  refine ⟨fun s => ?_, fun _ => trivial, fun {s t} ht => ?_⟩
  · rw [apply_assign]
    split
    next => exact .refl s
    next hpushed =>
      refine ⟨rfl, fun v => ?_⟩
      rw [Memory.pushed?_setVariable]
      split
      next hv =>
        rw [Option.isNone_iff_eq_none, ← ne_eq, Option.ne_none_iff_isSome] at hpushed
        rw [hv, hpushed, Option.isSome_some]
      next => rfl
  · rw [apply_assign] at ht
    split at ht
    next =>
      cases ht
      exact h
    next => cases ht

end Exec

def Trap.OfRead (t : Trap) : Prop := (∃ v, t = .error (.variableNotPushed v)) ∨ t = .fault .endless

namespace Graph

variable {g : Graph} {id x : NodeId} {n : Node}

/-- The first node is a reference, and the second is what it refers to. -/
def RefersTo (g : Graph) (x y : NodeId) : Prop := g.referencedVariable x = .ok (some y)

theorem live_of_first {slot : Slot} {r : SlotRef} (hl : HasLayouts g) (hw : LinksMatch g) (hn : g.nodeAt? id = some n)
    (hslot : slot ∈ n.filterSlots .input) (hr : slot.first? = some r) : ∃ m, g.nodeAt? r.node = some m := by
  obtain ⟨m, hm, -⟩ := hl.plain_of_input hw hn (Node.mem_inputs_of_first hslot hr)
  exact ⟨m, hm⟩

theorem live_of_valueIn {r : SlotRef} (hl : HasLayouts g) (hw : LinksMatch g) (hn : g.nodeAt? id = some n)
    (hr : n.valueIn?.bind Slot.first? = some r) : ∃ m, g.nodeAt? r.node = some m := by
  obtain ⟨slot, hslot, hr⟩ := Option.bind_eq_some_iff.1 hr
  exact live_of_first hl hw hn (List.mem_of_find?_eq_some hslot) hr

/-- A read that does not end has gone through as many references as it was allowed to. -/
theorem trap_of_readWithin {m : Memory} {k : Nat} {t : Trap} (hl : HasLayouts g) (hw : LinksMatch g)
    (hn : g.nodeAt? id = some n) (h : g.readWithin m k id = .error t) :
    (∃ v, t = .error (.variableNotPushed v)) ∨
      t = .fault .endless ∧ ∃ l : List NodeId, l.length = k ∧ (id :: l).IsChain (RefersTo g) ∧
        ∀ y ∈ id :: l, ∃ m, g.nodeAt? y = some m := by
  induction k generalizing id n with
  | zero =>
    cases h
    refine .inr ⟨rfl, [], rfl, .singleton id, fun y hy => ?_⟩
    obtain rfl := List.mem_singleton.1 hy
    exact ⟨n, hn⟩
  | succ k ih =>
    rw [readWithin, node?_eq_some_iff.2 hn] at h
    dsimp only at h
    split at h
    next =>
      split at h
      next => cases h
      next =>
        cases h
        exact .inl ⟨id, rfl⟩
    next hkind =>
      split at h
      next source hsource =>
        obtain ⟨r, hr, rfl⟩ := Option.map_eq_some_iff.1 hsource
        have hpoints : RefersTo g id r.node := by
          simp only [RefersTo, referencedVariable, bind_eq_ok, node_eq_ok_iff]
          exact ⟨n, hn, by rw [if_pos hkind, hsource]; rfl⟩
        obtain ⟨n', hn'⟩ := live_of_valueIn hl hw hn hr
        refine (ih hn' h).imp_right ?_
        rintro ⟨rfl, l, rfl, hchain, hlive⟩
        refine ⟨rfl, r.node :: l, rfl, .cons_cons hpoints hchain, fun y hy => ?_⟩
        rcases List.mem_cons.1 hy with rfl | hy
        · exact ⟨n, hn⟩
        · exact hlive y hy
      next => cases h
    next => cases h

theorem trap_of_read {m : Memory} {t : Trap} (hl : HasLayouts g) (hw : LinksMatch g) (hn : g.nodeAt? id = some n)
    (h : g.read m id = .error t) : t.OfRead :=
  (trap_of_readWithin hl hw hn h).imp_right And.left

theorem validate_eq_ok_nil_iff (he : NodesListed g) : g.validate = .ok [] ↔
    g.isEmpty = false ∧ ∀ x n, g.nodeAt? x = some n → g.nodeErrors x = .ok [] := by
  unfold validate
  cases g.isEmpty with
  | true =>
    rw [if_pos rfl]
    exact ⟨nofun, fun h => Bool.noConfusion h.1⟩
  | false =>
    simp only [Bool.false_eq_true, if_false, bind_eq_ok, pure_eq_ok, List.flatten_eq_nil_iff, true_and]
    constructor
    · rintro ⟨errors, herrors, hnone⟩ x n hn
      obtain ⟨found, hfound, hx⟩ := exists_of_mem_mapM herrors (he.mem_nodes_iff.2 (Option.isSome_of_mem hn))
      rwa [hnone found hfound] at hx
    · intro hnone
      have hall : ∀ x ∈ g.nodes, g.nodeErrors x = .ok [] := by
        intro x hx
        obtain ⟨n, hn⟩ := Option.isSome_iff_exists.1 (he.mem_nodes_iff.1 hx)
        exact hnone x n hn
      obtain ⟨errors, herrors⟩ := exists_mapM fun x hx => ⟨[], hall x hx⟩
      refine ⟨errors, herrors, fun found hfound => ?_⟩
      obtain ⟨x, hx, herror⟩ := of_mem_mapM herrors hfound
      exact Except.ok.inj (herror.symm.trans (hall x hx))

theorem nodeErrors_eq_ok_nil_iff (hn : g.nodeAt? id = some n) : g.nodeErrors id = .ok [] ↔
    (n.isVariable = true → ∃ s sc, n.scope = some s ∧ g.scopeAt? s = some sc ∧ id ∈ sc.declared) ∧
      ∀ s, n.signature = some s → ∃ f, g.library.find? s = some f := by
  have hvariable : g.variableErrors id n = .ok [] ↔
      (n.isVariable = true → ∃ s sc, n.scope = some s ∧ g.scopeAt? s = some sc ∧ id ∈ sc.declared) := by
    unfold variableErrors
    cases n.isVariable with
    | false => exact iff_of_true rfl fun h => by cases h
    | true =>
      simp only [Bool.not_true, Bool.false_eq_true, if_false, true_implies]
      cases n.scope with
      | none =>
        refine iff_of_false (fun h => by cases h) ?_
        rintro ⟨_, _, h, -⟩
        cases h
      | some s =>
        simp only [bind_eq_ok, scope_eq_ok_iff, Option.some.injEq, exists_and_left, exists_eq_left']
        refine exists_congr fun sc => and_congr_right fun _ => ?_
        rw [← List.contains_iff_mem]
        split
        next hmem => exact ⟨fun _ => hmem, fun _ => rfl⟩
        next hmem => exact iff_of_false (fun h => by cases h) hmem
  have hcallable : g.callableErrors id n = [] ↔ ∀ s, n.signature = some s → ∃ f, g.library.find? s = some f := by
    unfold callableErrors
    cases n.signature with
    | none => exact iff_of_true rfl fun s h => by cases h
    | some s =>
      simp only [Option.some.injEq, forall_eq']
      cases g.library.find? s with
      | none => exact iff_of_false (fun h => by cases h) fun h => by cases h.choose_spec
      | some f => exact ⟨fun _ => ⟨f, rfl⟩, fun _ => rfl⟩
  rw [← hvariable, ← hcallable]
  simp only [nodeErrors, node_eq_ok_iff.2 hn, ok_bind, bind_eq_ok, pure_eq_ok, List.append_eq_nil_iff]
  constructor
  · rintro ⟨errors, herrors, rfl, hnone⟩
    exact ⟨herrors, hnone⟩
  · rintro ⟨herrors, hnone⟩
    exact ⟨[], herrors, rfl, hnone⟩

theorem resolved_of_validate (he : NodesListed g) (h : g.validate = .ok []) (hn : g.nodeAt? id = some n) {s : Signature}
    (hs : n.signature = some s) : ∃ f, g.library.find? s = some f :=
  ((nodeErrors_eq_ok_nil_iff hn).1 (((validate_eq_ok_nil_iff he).1 h).2 id n hn)).2 s hs

end Graph

namespace Function

theorem exists_of_mismatch? {i : Nat} {expected : List Argument} {args : List Value} {e : CallError}
    (h : mismatch? i expected args = some e) : ∃ j a b, e = .type j a b := by
  induction expected generalizing i args with
  | nil => cases h
  | cons a as ih =>
    cases args with
    | nil => cases h
    | cons v vs =>
      rw [mismatch?] at h
      split at h
      next => exact ih h
      next =>
        cases h
        exact ⟨i, a.type, v.type, rfl⟩

end Function

theorem Library.get?_of_find? {lib : Library} {s : Signature} {f : FunctionId} (h : lib.find? s = some f) :
    ∃ fn, lib.get? f = some fn ∧ fn.signature.arity = s.arity := by
  have haccepts := List.find?_some h
  obtain ⟨fn, hfn, haccepts⟩ := (Option.any_eq_true _ _).1 haccepts
  have hlength := congrArg List.length (Signature.accepts_iff.1 haccepts).2
  rw [Signature.types, Signature.types, List.length_map, List.length_map] at hlength
  exact ⟨fn, hfn, hlength⟩

def Graph.InputValues (g : Graph) (n : Node) (args : List Value) : Prop :=
  ∃ s arguments, (((n.filterSlots .input).mapM (Exec.argument g n)).apply s).1 = .ok arguments ∧
    arguments.map (·.1) = args

/-- What an instruction may fail with: a variable that is not pushed, the types of arguments, and the function that is
called. -/
inductive Graph.Permitted (g : Graph) : Op → Trap → Prop
  | deref {x v : NodeId} : Permitted g (.deref x) (.error (.variableNotPushed v))
  | eval {x v : NodeId} : Permitted g (.eval x) (.error (.variableNotPushed v))
  | mistyped {x : NodeId} {n : Node} {s : Signature} {f : FunctionId} {fn : Function} {args : List Value} {i : Nat}
      {expected found : ValueType} : g.node x = .ok n → n.signature = some s → g.library.find? s = some f →
      g.library.get? f = some fn → g.InputValues n args → args.length = fn.signature.arity →
      Function.mismatch? 0 fn.signature.arguments args = some (.type i expected found) →
      Permitted g (.eval x) (.error (.call x (.type i expected found)))
  | failed {x : NodeId} {n : Node} {s : Signature} {f : FunctionId} {fn : Function} {args : List Value}
      {e : CallError} : g.node x = .ok n → n.signature = some s → g.library.find? s = some f →
      g.library.get? f = some fn → g.InputValues n args → args.length = fn.signature.arity →
      fn.native args = .error e → Permitted g (.eval x) (.error (.call x e))

theorem Graph.Permitted.ne_endless {g : Graph} {op : Op} {t : Trap} (h : Permitted g op t) : t ≠ .fault .endless := by
  cases h with
  | deref | eval | mistyped | failed => exact nofun

def Graph.PermittedOrEndless (g : Graph) (op : Op) (t : Trap) : Prop := g.Permitted op t ∨ t = .fault .endless

theorem Trap.OfRead.permitted {g : Graph} {op : Op} {t : Trap} (h : t.OfRead)
    (hop : ∀ v, g.Permitted op (.error (.variableNotPushed v))) : g.PermittedOrEndless op t := by
  refine h.imp_left ?_
  rintro ⟨v, rfl⟩
  exact hop v

namespace Exec

open FlowGraph.Graph

variable {g : Graph} {id x : NodeId} {n : Node} {E : Trap → Prop}

theorem returnsOrTraps_read (hl : HasLayouts g) (hw : LinksMatch g) (hn : ∃ m, g.nodeAt? id = some m)
    (hE : ∀ t, t.OfRead → E t) :
    ReturnsOrTraps E (fun _ => True) (read g id) := by
  obtain ⟨m, hm⟩ := hn
  refine ReturnsOrTraps.get fun s => ?_
  split
  next => exact .pure trivial
  next t ht => exact .throw (hE t (trap_of_read hl hw hm ht))

theorem exists_targetVariable (hn : g.nodeAt? id = some n) : ∃ v, g.targetVariable id = .ok v := by
  cases hkind : n.kind with
  | «variable» => exact ⟨some id, bind_eq_ok.2 ⟨n, node_eq_ok_iff.2 hn, by rw [hkind]; rfl⟩⟩
  | variableRef =>
    refine ⟨(n.valueIn?.bind Slot.first?).map (·.node), bind_eq_ok.2 ⟨n, node_eq_ok_iff.2 hn, ?_⟩⟩
    rw [hkind]
    exact bind_eq_ok.2 ⟨n, node_eq_ok_iff.2 hn, if_pos hkind⟩
  | _ => exact ⟨none, bind_eq_ok.2 ⟨n, node_eq_ok_iff.2 hn, by rw [hkind]; rfl⟩⟩

theorem returnsOrTraps_argument {slot : Slot} (hl : HasLayouts g) (hw : LinksMatch g) (hn : g.nodeAt? id = some n)
    (hslot : slot ∈ n.filterSlots .input) (hE : ∀ t, t.OfRead → E t) :
    ReturnsOrTraps E (fun _ => True) (argument g n slot) := by
  unfold argument
  dsimp only
  split
  next => exact .pure trivial
  next source hsource =>
    have hlive := live_of_first hl hw hn hslot hsource
    refine (returnsOrTraps_read hl hw hlive hE).bind fun v _ => ?_
    split
    next =>
      obtain ⟨m, hm⟩ := hlive
      obtain ⟨target, htarget⟩ := exists_targetVariable hm
      exact (ReturnsOrTraps.lift htarget (Q := fun _ => True) trivial).bind fun _ _ => .pure trivial
    next => exact .pure trivial

/-- A call finds its function and brings as many arguments as that takes. -/
theorem returnsOrTraps_invoke (hl : HasLayouts g) (hw : LinksMatch g) (he : NodesListed g)
    (hvalid : g.validate = .ok []) (hn : g.nodeAt? id = some n) (hinvokable : n.isInvokable = true) :
    ReturnsOrTraps (PermittedOrEndless g (.eval id)) (fun _ => True) (invoke g n) := by
  obtain ⟨s, hs, hinputs⟩ := hl.inputs_of_invokable hn hinvokable
  obtain ⟨f, hf⟩ := resolved_of_validate he hvalid hn hs
  obtain ⟨fn, hfn, harity⟩ := g.library.get?_of_find? hf
  have hresolved : n.signature.bind g.library.find? = some f := by rw [hs, Option.bind_some, hf]
  unfold invoke
  rw [hresolved]
  dsimp only
  have harguments : ReturnsOrTraps (PermittedOrEndless g (.eval id)) _ ((n.filterSlots .input).mapM (argument g n)) :=
    .mapM fun slot hslot => returnsOrTraps_argument hl hw hn hslot fun t ht => ht.permitted fun _ => .eval
  refine harguments.witnessed.bind fun arguments hsupplied => ?_
  obtain ⟨hlength, state, hstate⟩ := hsupplied
  have hinputValues : g.InputValues n (arguments.map (·.1)) := ⟨state, arguments, hstate, rfl⟩
  have hargs : (arguments.map (·.1)).length = fn.signature.arity := by
    rw [List.length_map, hlength, hinputs, harity]
  have hcall : g.library.call f (arguments.map (·.1)) = .ok (fn.call (arguments.map (·.1))) := by
    rw [Library.call, hfn]
  refine (ReturnsOrTraps.lift hcall (Q := fun r => r = fn.call (arguments.map (·.1))) rfl).bind fun r hr => ?_
  split
  next e =>
    have hnode := node_eq_ok_iff.2 hn
    rw [hl.id_eq hn]
    refine .fail ?_
    rw [Function.call, if_neg (by rw [hargs]; exact not_not.2 rfl)] at hr
    split at hr
    next e' hmismatch =>
      cases hr
      obtain ⟨i, expected, found, rfl⟩ := Function.exists_of_mismatch? hmismatch
      exact .inl (.mistyped hnode hs hf hfn hinputValues hargs hmismatch)
    next => exact .inl (.failed hnode hs hf hfn hinputValues hargs hr.symm)
  next result =>
    refine (ReturnsOrTraps.forM (fun v => returnsOrTraps_assign (.inl .eval) result) _).bind fun _ _ => ?_
    exact .pure trivial

theorem returnsOrTraps_firstValue (hl : HasLayouts g) (hw : LinksMatch g) (hn : g.nodeAt? id = some n)
    (hE : ∀ t, t.OfRead → E t) :
    ReturnsOrTraps E (fun _ => True) (firstValue g n) := by
  have hassign (x : Exec Value) (hx : ReturnsOrTraps E (fun _ => True) x) :
      ReturnsOrTraps E (fun _ => True) (do let v ← x; assign n.id v; return v) :=
    hx.bind fun v _ => (returnsOrTraps_assign (hE _ (.inl ⟨n.id, rfl⟩)) v).bind fun _ _ => .pure trivial
  refine ReturnsOrTraps.get fun s => ?_
  split
  next => exact .fail (hE _ (.inl ⟨n.id, rfl⟩))
  next => exact .pure trivial
  next =>
    split
    next source hsource => exact hassign _ (returnsOrTraps_read hl hw (live_of_valueIn hl hw hn hsource) hE)
    next => exact hassign _ (.pure trivial)

theorem returnsOrTraps_valueFor (hl : HasLayouts g) (hw : LinksMatch g) (he : NodesListed g)
    (hvalid : g.validate = .ok []) (hn : g.nodeAt? id = some n) :
    ReturnsOrTraps (PermittedOrEndless g (.eval id)) (fun _ => True) (valueFor g n) := by
  have hkeep (x : Exec Value) (hx : ReturnsOrTraps (PermittedOrEndless g (.eval id)) (fun _ => True) x) :
      ReturnsOrTraps (PermittedOrEndless g (.eval id)) (fun _ => True)
        (do let v ← x; modifyMemory (·.setValue n.id v); return v) :=
    hx.bind fun v _ => (ReturnsOrTraps.setValue n.id v).bind fun _ _ => .pure trivial
  have hread (t : Trap) (ht : t.OfRead) : PermittedOrEndless g (.eval id) t := ht.permitted fun _ => .eval
  unfold valueFor
  split
  next => exact returnsOrTraps_firstValue hl hw hn hread
  next hkind => exact hkeep _ (returnsOrTraps_invoke hl hw he hvalid hn (by rw [Node.isInvokable, hkind]; rfl))
  next hkind => exact hkeep _ (returnsOrTraps_invoke hl hw he hvalid hn (by rw [Node.isInvokable, hkind]; rfl))
  next => exact hkeep _ (returnsOrTraps_read hl hw (by rw [hl.id_eq hn]; exact ⟨n, hn⟩) hread)

theorem returnsOrTraps_evaluate (hl : HasLayouts g) (hw : LinksMatch g) (he : NodesListed g)
    (hvalid : g.validate = .ok []) (hlive : g.contains id = true) :
    ReturnsOrTraps (PermittedOrEndless g (.eval id)) (fun _ => True) (evaluate g id) := by
  obtain ⟨n, hn⟩ := Option.isSome_iff_exists.1 (contains_iff.1 hlive)
  refine (ReturnsOrTraps.lift (node?_eq_some_iff.2 hn) (Q := fun found => found = some n) rfl).bind fun found hfound =>
    ?_
  subst hfound
  refine (returnsOrTraps_valueFor hl hw he hvalid hn).bind fun v _ => ?_
  exact (ReturnsOrTraps.write (by decide) _).bind fun _ _ => .modify fun _ => ⟨rfl, fun _ => rfl⟩

end Exec

end FlowGraph
