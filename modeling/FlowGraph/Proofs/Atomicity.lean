import FlowGraph.Library.Standard
import FlowGraph.Proofs.Safety

/-!
# Faults in the midst of an instruction

An instruction that fails leaves the machine as it was, with one exception. The result of a call goes to the
variables that were passed by reference one after another, and the first that is not pushed breaks this off:
those before it have the result already. What reads the arguments has found every variable pushed, so this
takes a reference that refers to something else.
-/

namespace FlowGraph

open FlowGraph.Graph

namespace Exec

variable {α β : Type} {x : Exec α} {f : α → Exec β} {s s' : State} {t : Trap}

def KeepsState (x : Exec α) : Prop := ∀ s r s', x.apply s = (r, s') → s' = s

def NeverTraps (x : Exec α) : Prop := ∀ s, ∃ a s', x.apply s = (.ok a, s')

def Atomic (x : Exec α) : Prop := ∀ s s' t, x.apply s = (.error t, s') → s' = s

theorem neverTraps_pure (a : α) : NeverTraps (pure a : Exec α) := fun s => ⟨a, s, rfl⟩

theorem bind_eq_error_iff_of_neverTraps (hf : ∀ a, NeverTraps (f a)) :
    (x >>= f).apply s = (.error t, s') ↔ x.apply s = (.error t, s') := by
  rw [bind_eq_error_iff, or_iff_left]
  rintro ⟨a, s₁, -, h⟩
  obtain ⟨b, s₂, hb⟩ := hf a s₁
  cases hb.symm.trans h

theorem lift_eq_ok_iff {x : Except Fault α} {a : α} : (lift x).apply s = (.ok a, s') ↔ x = .ok a ∧ s' = s := by
  cases x with
  | error f =>
    constructor
    · nofun
    · nofun
  | ok b =>
    constructor
    · intro h
      cases h
      exact ⟨rfl, rfl⟩
    · rintro ⟨h, rfl⟩
      cases h
      rfl

namespace KeepsState

theorem pure (a : α) : KeepsState (Pure.pure a : Exec α) := fun _ _ _ h => (congrArg Prod.snd h).symm

theorem throw (t : Trap) : KeepsState (MonadExcept.throw t : Exec α) := fun _ _ _ h => (congrArg Prod.snd h).symm

theorem get {f : State → Exec α} (hf : ∀ s, KeepsState (f s)) : KeepsState (MonadState.get >>= f) := fun s => hf s s

theorem lift (x : Except Fault α) : KeepsState (Exec.lift x) := by
  cases x with
  | error f => exact throw (.fault f)
  | ok a => exact pure a

theorem bind (hx : KeepsState x) (hf : ∀ a, KeepsState (f a)) : KeepsState (x >>= f) := by
  intro s r s' h
  cases r with
  | error t =>
    obtain h | ⟨a, s₁, ha, h⟩ := bind_eq_error_iff.1 h
    · exact hx s _ s' h
    · exact (hf a s₁ _ s' h).trans (hx s _ s₁ ha)
  | ok b =>
    obtain ⟨a, s₁, ha, h⟩ := bind_eq_ok_iff.1 h
    exact (hf a s₁ _ s' h).trans (hx s _ s₁ ha)

theorem mapM (hf : ∀ a, KeepsState (f a)) (as : List α) : KeepsState (as.mapM f) := by
  induction as with
  | nil => exact pure []
  | cons a as ih =>
    rw [List.mapM_cons]
    exact (hf a).bind fun _ => ih.bind fun _ => pure _

theorem atomic (hx : KeepsState x) : Atomic x := fun s s' t h => hx s (.error t) s' h

theorem exists_of_mem (hf : ∀ a, KeepsState (f a)) {as : List α} {bs : List β} {b : β}
    (h : (as.mapM f).apply s = (.ok bs, s')) (hb : b ∈ bs) : ∃ a ∈ as, (f a).apply s = (.ok b, s) := by
  induction as generalizing bs s' with
  | nil =>
    cases h
    cases hb
  | cons a as ih =>
    rw [List.mapM_cons] at h
    obtain ⟨b', s₁, hfirst, h⟩ := bind_eq_ok_iff.1 h
    obtain ⟨bs', s₂, hrest, h⟩ := bind_eq_ok_iff.1 h
    cases h
    obtain rfl := hf a s _ s₁ hfirst
    rcases List.mem_cons.1 hb with rfl | hb
    · exact ⟨a, List.mem_cons_self, hfirst⟩
    · obtain ⟨a', ha', heq⟩ := ih hrest hb
      exact ⟨a', List.mem_cons_of_mem _ ha', heq⟩

end KeepsState

namespace Atomic

theorem get {f : State → Exec α} (hf : ∀ s, Atomic (f s)) : Atomic (MonadState.get >>= f) := fun s => hf s s

/-- What was only looked at so far is still there when the rest fails. -/
theorem after (hx : KeepsState x) (hf : ∀ a, Atomic (f a)) : Atomic (x >>= f) := by
  intro s s' t h
  obtain h | ⟨a, s₁, ha, h⟩ := bind_eq_error_iff.1 h
  · exact hx s _ s' h
  · exact (hf a s₁ s' t h).trans (hx s _ s₁ ha)

theorem before (hx : Atomic x) (hf : ∀ a, NeverTraps (f a)) : Atomic (x >>= f) :=
  fun s s' t h => hx s s' t ((bind_eq_error_iff_of_neverTraps hf).1 h)

end Atomic

theorem atomic_assign (id : NodeId) (w : Value) : Atomic (assign id w) := by
  intro s s' t h
  rw [apply_assign] at h
  split at h
  next =>
    cases h
    rfl
  next => cases h

end Exec

/-- Each of the variables has got the value. -/
def State.hand (s : State) (v : Value) (targets : List NodeId) : State :=
  { s with memory := targets.foldl (fun m y => m.setVariable y v) s.memory }

structure Memory.FirstUnpushed (m : Memory) (done : List NodeId) (x : NodeId) : Prop where
  pushed : ∀ y ∈ done, (m.pushed? y).isSome = true
  unpushed : m.pushed? x = none

theorem Memory.firstUnpushed_cons_iff {m : Memory} {done : List NodeId} {x y : NodeId} (v : Value) :
    m.FirstUnpushed (y :: done) x ↔ (m.pushed? y).isSome = true ∧ (m.setVariable y v).FirstUnpushed done x := by
  constructor
  · intro h
    have hy := h.pushed y List.mem_cons_self
    refine ⟨hy, fun z hz => ?_, ?_⟩
    · rw [pushed?_setVariable]
      split
      next => rfl
      next => exact h.pushed z (List.mem_cons_of_mem _ hz)
    · rw [pushed?_setVariable, if_neg, h.unpushed]
      rintro rfl
      rw [h.unpushed] at hy
      cases hy
  · rintro ⟨hy, h⟩
    refine ⟨fun z hz => ?_, ?_⟩
    · rcases List.mem_cons.1 hz with rfl | hz
      · exact hy
      · have hsome := h.pushed z hz
        rw [pushed?_setVariable] at hsome
        split at hsome
        next heq => exact heq ▸ hy
        next => exact hsome
    · have hnone := h.unpushed
      rw [pushed?_setVariable] at hnone
      split at hnone
      next => cases hnone
      next => exact hnone

namespace Exec

/-- Handing a value on fails at the first variable that is not pushed, and those before it keep the value. -/
theorem forM_assign_eq_error_iff {v : Value} {targets : List NodeId} {s s' : State} {t : Trap} :
    (targets.forM fun y => assign y v).apply s = (.error t, s') ↔ ∃ done x rest, targets = done ++ x :: rest ∧
      s.memory.FirstUnpushed done x ∧ t = .error (.variableNotPushed x) ∧ s' = s.hand v done := by
  induction targets generalizing s with
  | nil =>
    constructor
    · nofun
    · rintro ⟨done, x, rest, h, -⟩
      simp at h
  | cons y ys ih =>
    have hcons : ((y :: ys).forM fun y => assign y v) = (assign y v >>= fun _ => ys.forM fun y => assign y v) := rfl
    rw [hcons, apply_bind, apply_assign]
    by_cases hy : (s.memory.pushed? y).isNone = true
    · rw [if_pos hy]
      constructor
      · intro h
        cases h
        exact ⟨[], y, ys, rfl, ⟨nofun, Option.isNone_iff_eq_none.1 hy⟩, rfl, rfl⟩
      · rintro ⟨done, x, rest, hsplit, hfirstUnpushed, rfl, rfl⟩
        cases done with
        | nil =>
          cases hsplit
          rfl
        | cons z done =>
          cases hsplit
          have hpushed := hfirstUnpushed.pushed y List.mem_cons_self
          rw [Option.isNone_iff_eq_none.1 hy] at hpushed
          cases hpushed
    · have hpushed : (s.memory.pushed? y).isSome = true := by
        rwa [Option.isNone_iff_eq_none, ← ne_eq, Option.ne_none_iff_isSome] at hy
      rw [if_neg hy]
      dsimp only
      rw [ih]
      constructor
      · rintro ⟨done, x, rest, rfl, hfirstUnpushed, rfl, rfl⟩
        exact ⟨y :: done, x, rest, rfl, (Memory.firstUnpushed_cons_iff v).2 ⟨hpushed, hfirstUnpushed⟩, rfl, rfl⟩
      · rintro ⟨done, x, rest, hsplit, hfirstUnpushed, rfl, rfl⟩
        cases done with
        | nil =>
          cases hsplit
          rw [hfirstUnpushed.unpushed] at hpushed
          cases hpushed
        | cons z done =>
          cases hsplit
          exact ⟨done, x, rest, rfl, ((Memory.firstUnpushed_cons_iff v).1 hfirstUnpushed).2, rfl, rfl⟩

variable (g : Graph)

theorem keepsState_read (id : NodeId) : KeepsState (read g id) := by
  apply KeepsState.get
  intro s
  split
  · exact .pure _
  · exact .throw _

theorem keepsState_argument (n : Node) (slot : Slot) : KeepsState (argument g n slot) := by
  unfold argument
  dsimp only
  split
  · exact .pure _
  · apply (keepsState_read g _).bind
    intro value
    split
    · exact (KeepsState.lift _).bind fun _ => .pure _
    · exact .pure _

def CallResult (s : State) (n : Node) (v : Value) (targets : List NodeId) : Prop :=
  ∃ f arguments, n.signature.bind g.library.find? = some f ∧
    ((n.filterSlots .input).mapM (argument g n)).apply s = (.ok arguments, s) ∧
    g.library.call f (arguments.map (·.1)) = .ok (.ok v) ∧ arguments.filterMap (·.2) = targets

variable {g} {n : Node} {id : NodeId}

theorem invoke_eq_error {s s' : State} {t : Trap} (h : (invoke g n).apply s = (.error t, s')) :
    s' = s ∨ ∃ v targets, CallResult g s n v targets ∧
      (targets.forM fun y => assign y v).apply s = (.error t, s') := by
  unfold invoke at h
  split at h
  next => exact .inl (@KeepsState.throw Value _ s _ s' h)
  next f hf =>
    have hkeepsState := KeepsState.mapM (keepsState_argument g n) (n.filterSlots .input)
    rcases bind_eq_error_iff.1 h with hread | ⟨arguments, s₁, harguments, hrest⟩
    · exact .inl (hkeepsState s _ s' hread)
    · obtain rfl := hkeepsState s _ s₁ harguments
      rcases bind_eq_error_iff.1 hrest with hlift | ⟨result, s₂, hlift, hresult⟩
      · exact .inl (KeepsState.lift _ s₁ _ s' hlift)
      · obtain ⟨hcall, rfl⟩ := lift_eq_ok_iff.1 hlift
        split at hresult
        next => exact .inl (@KeepsState.throw Value _ s₂ _ s' hresult)
        next v =>
          rw [bind_eq_error_iff_of_neverTraps fun _ => neverTraps_pure v] at hresult
          exact .inr ⟨v, _, ⟨f, arguments, hf, harguments, hcall, rfl⟩, hresult⟩

theorem invoke_eq_error_of_callResult {s s' : State} {t : Trap} {v : Value} {targets : List NodeId}
    (hcallResult : CallResult g s n v targets) (h : (targets.forM fun y => assign y v).apply s = (.error t, s')) :
    (invoke g n).apply s = (.error t, s') := by
  obtain ⟨f, arguments, hf, harguments, hcall, rfl⟩ := hcallResult
  unfold invoke
  rw [hf]
  refine bind_eq_error_iff.2 (.inr ⟨arguments, s, harguments, ?_⟩)
  refine bind_eq_error_iff.2 (.inr ⟨.ok v, s, lift_eq_ok_iff.2 ⟨hcall, rfl⟩, ?_⟩)
  exact (bind_eq_error_iff_of_neverTraps fun _ => neverTraps_pure v).2 h

theorem atomic_firstValue (n : Node) : Atomic (firstValue g n) := by
  have hassign {x : Exec Value} (hx : KeepsState x) : Atomic (do let v ← x; assign n.id v; return v) :=
    .after hx fun v => (atomic_assign n.id v).before fun _ => neverTraps_pure v
  apply Atomic.get
  intro s
  split
  · exact (KeepsState.throw _).atomic
  · exact (KeepsState.pure _).atomic
  · split
    · exact hassign (keepsState_read g _)
    · exact hassign (.pure _)

structure FailsWhileWriting (g : Graph) (s : State) (id : NodeId) (v : Value) (done : List NodeId) (x : NodeId) :
    Prop where
  callResult : ∃ n rest, g.node id = .ok n ∧ n.isInvokable = true ∧ CallResult g s n v (done ++ x :: rest)
  firstUnpushed : s.memory.FirstUnpushed done x

/-- An evaluation fails without a trace, or while its result is handed on. -/
theorem evaluate_eq_error {s s' : State} {t : Trap} (h : (evaluate g id).apply s = (.error t, s')) :
    s' = s ∨ ∃ v done x, FailsWhileWriting g s id v done x := by
  have hend (v : Value) : NeverTraps (do
      Exec.write .rax v.toWord
      modify fun s => { s with lastEvaluated := some id, visited := s.visited.insert id.raw }) :=
    fun s => ⟨_, _, rfl⟩
  have hkeep (n : Node) (v : Value) : NeverTraps (do modifyMemory (·.setValue n.id v); return v) :=
    fun s => ⟨_, _, rfl⟩
  unfold evaluate at h
  rcases bind_eq_error_iff.1 h with hlift | ⟨found, s₁, hlift, hrest⟩
  · exact .inl (KeepsState.lift _ s _ s' hlift)
  · obtain ⟨hn, rfl⟩ := lift_eq_ok_iff.1 hlift
    cases found with
    | none => exact .inl (@KeepsState.throw Unit _ s₁ _ s' hrest)
    | some n =>
      rw [bind_eq_error_iff_of_neverTraps hend] at hrest
      have hinvoke (hinvokable : n.isInvokable = true) (h : (do
          let v ← invoke g n
          modifyMemory (·.setValue n.id v)
          return v : Exec Value).apply s₁ = (.error t, s')) : s' = s₁ ∨
            ∃ v done x, FailsWhileWriting g s₁ id v done x := by
        rw [bind_eq_error_iff_of_neverTraps (hkeep n)] at h
        refine (invoke_eq_error h).imp_right ?_
        rintro ⟨v, targets, hcallResult, hfails⟩
        obtain ⟨done, x, rest, rfl, hfirstUnpushed, -⟩ := forM_assign_eq_error_iff.1 hfails
        exact ⟨v, done, x, ⟨n, rest, node_eq_ok_iff.2 (node?_eq_some_iff.1 hn), hinvokable, hcallResult⟩,
          hfirstUnpushed⟩
      unfold valueFor at hrest
      split at hrest
      next => exact .inl (atomic_firstValue n s₁ s' t hrest)
      next hkind => exact hinvoke (by rw [Node.isInvokable, hkind]; rfl) hrest
      next hkind => exact hinvoke (by rw [Node.isInvokable, hkind]; rfl) hrest
      next =>
        rw [bind_eq_error_iff_of_neverTraps (hkeep n)] at hrest
        exact .inl (keepsState_read g n.id s₁ _ s' hrest)

theorem FailsWhileWriting.evaluate_eq {s : State} {v : Value} {done : List NodeId} {x : NodeId}
    (h : FailsWhileWriting g s id v done x) :
    (evaluate g id).apply s = (.error (.error (.variableNotPushed x)), s.hand v done) := by
  obtain ⟨n, rest, hn, hinvokable, hcallResult⟩ := h.callResult
  have hfails := (forM_assign_eq_error_iff (v := v)).2 ⟨done, x, rest, rfl, h.firstUnpushed, rfl, rfl⟩
  have hinvoke := invoke_eq_error_of_callResult hcallResult hfails
  have hvalue : (valueFor g n).apply s = (.error (.error (.variableNotPushed x)), s.hand v done) := by
    unfold valueFor
    unfold Node.isInvokable NodeKind.isInvokable at hinvokable
    split at hinvokable
    next hkind =>
      rw [hkind]
      exact bind_eq_error_iff.2 (.inl hinvoke)
    next hkind =>
      rw [hkind]
      exact bind_eq_error_iff.2 (.inl hinvoke)
    next => cases hinvokable
  have hfound : g.node? id = .ok (some n) := node?_eq_some_iff.2 (node_eq_ok_iff.1 hn)
  rw [evaluate, bind_eq_error_iff]
  refine .inr ⟨some n, s, lift_eq_ok_iff.2 ⟨hfound, rfl⟩, ?_⟩
  exact bind_eq_error_iff.2 (.inl hvalue)

theorem atomic_perform {op : Op} (h : ∀ id, op ≠ .eval id) : Atomic (perform g op) := by
  cases op with
  | eval id => exact (h id rfl).elim
  | deref id =>
    refine .after (keepsState_read g id) fun v => Atomic.before (fun _ _ _ h => ?_) fun _ => neverTraps_pure _
    cases h
  | pushVar id =>
    intro s s' t h
    rw [perform] at h
    cases hlive : g.contains id with
    | true =>
      rw [hlive] at h
      cases h
    | false =>
      rw [hlive] at h
      cases h
      rfl
  | popVar id =>
    intro s s' t h
    change (if (s.memory.pushed? id).isNone = true then _ else _ : Exec Move).apply s = _ at h
    split at h
    next =>
      cases h
      rfl
    next => cases h
  | mov target word =>
    cases target with
    | eip => exact (KeepsState.pure _).atomic
    | rax | rdx => exact fun _ _ _ h => by cases h
  | cmp | jmp | jne | pushFrame | popFrame | ret => exact fun _ _ _ h => by cases h

theorem perform_eq_ok {op : Op} {s s' : State} {move : Move} (h : (perform g op).apply s = (.ok move, s')) :
    move = .by 1 ∨ s' = s := by
  cases op with
  | jmp | jne | ret | pushFrame | popFrame => exact .inr (congrArg Prod.snd h).symm
  | cmp =>
    cases h
    exact .inl rfl
  | mov target word =>
    cases target with
    | eip => exact .inr (congrArg Prod.snd h).symm
    | rax | rdx =>
      cases h
      exact .inl rfl
  | eval id =>
    obtain ⟨-, s₁, -, h⟩ := bind_eq_ok_iff.1 h
    cases h
    exact .inl rfl
  | deref id =>
    obtain ⟨v, s₁, -, h⟩ := bind_eq_ok_iff.1 h
    cases h
    exact .inl rfl
  | pushVar id =>
    rw [perform] at h
    cases hlive : g.contains id with
    | true =>
      rw [hlive] at h
      cases h
      exact .inl rfl
    | false =>
      rw [hlive] at h
      cases h
  | popVar id =>
    change (if (s.memory.pushed? id).isNone = true then _ else _ : Exec Move).apply s = _ at h
    split at h
    next => cases h
    next =>
      cases h
      exact .inl rfl

end Exec

theorem Move.target_next {line size : Nat} (h : line < size) :
    (Move.by 1).target line size = .ok (some (line + 1)) := by
  have hrange : 0 ≤ (line : Int) + 1 ∧ (line : Int) + 1 ≤ size := by omega
  simp only [Move.target]
  rw [if_pos hrange]
  congr 2

variable {g : Graph} {c : Code}

theorem Code.advance_eq_error {s s' : State} {t : Trap} (h : c.advance g s = (.error t, s')) : s' = s ∨
    ∃ id v done x, c.op? s.registers.cursor = some (.eval id) ∧ Exec.FailsWhileWriting g s id v done x := by
  simp only [advance] at h
  split at h
  next => cases h
  next op hop =>
    split at h
    next t' s₁ hperform =>
      cases h
      by_cases heval : ∃ id, op = .eval id
      · obtain ⟨id, rfl⟩ := heval
        have hevaluate : (Exec.evaluate g id).apply s = (.error t, s') :=
          (Exec.bind_eq_error_iff_of_neverTraps fun _ => Exec.neverTraps_pure _).1 hperform
        refine (Exec.evaluate_eq_error hevaluate).imp_right ?_
        rintro ⟨v, done, x, hfailsWhileWriting⟩
        exact ⟨id, v, done, x, hop, hfailsWhileWriting⟩
      · exact .inl (Exec.atomic_perform (fun id hid => heval ⟨id, hid⟩) s s' t hperform)
    next move s₁ hperform =>
      split at h
      next e htarget =>
        cases h
        rcases Exec.perform_eq_ok hperform with rfl | hsame
        · cases (Move.target_next (lt_size hop)).symm.trans htarget
        · exact .inl hsame
      next => cases h

theorem Code.advance_of_failsWhileWriting {s : State} {id x : NodeId} {v : Value} {done : List NodeId}
    (hop : c.op? s.registers.cursor = some (.eval id)) (h : Exec.FailsWhileWriting g s id v done x) :
    c.advance g s = (.error (.error (.variableNotPushed x)), s.hand v done) := by
  have hperform : (Exec.perform g (.eval id)).apply s = (.error (.error (.variableNotPushed x)), s.hand v done) :=
    (Exec.bind_eq_error_iff_of_neverTraps fun _ => Exec.neverTraps_pure _).2 h.evaluate_eq
  simp only [advance, hop, hperform]

/-- A variable can be read only while it is pushed. -/
theorem Graph.pushed_of_readWithin {memory : Memory} {k : Nat} {id : NodeId} {n : Node} {v : Value}
    (h : g.readWithin memory k id = .ok v) (hn : g.nodeAt? id = some n) (hkind : n.kind = .variable) :
    (memory.pushed? id).isSome = true := by
  cases k with
  | zero => cases h
  | succ k =>
    rw [readWithin, node?_eq_some_iff.2 hn] at h
    dsimp only at h
    rw [hkind] at h
    dsimp only at h
    split at h
    next hpushed => rw [hpushed, Option.isSome_some]
    next => cases h

theorem Graph.live_of_readWithin {memory : Memory} {k : Nat} {id : NodeId} {v : Value}
    (h : g.readWithin memory k id = .ok v) : ∃ n, g.nodeAt? id = some n := by
  cases k with
  | zero => cases h
  | succ k =>
    rw [readWithin] at h
    split at h
    next => cases h
    next => cases h
    next n hn => exact ⟨n, node?_eq_some_iff.1 hn⟩

/-- The reference refers to a node that is no variable. -/
def Graph.RefersToNonVariable (g : Graph) (r x : NodeId) : Prop :=
  g.referencedVariable r = .ok (some x) ∧ ∃ n, g.node x = .ok n ∧ n.isVariable = false

theorem Graph.refersToNonVariable_of_read {memory : Memory} {r x : NodeId} {v : Value} (hread : g.read memory r = .ok v)
    (htarget : g.targetVariable r = .ok (some x)) (hx : memory.pushed? x = none) : g.RefersToNonVariable r x := by
  rw [targetVariable, bind_eq_ok] at htarget
  obtain ⟨n, hn, htarget⟩ := htarget
  have hlive := node_eq_ok_iff.1 hn
  split at htarget
  next hkind =>
    cases htarget
    have hpushed := pushed_of_readWithin hread hlive hkind
    rw [hx] at hpushed
    cases hpushed
  next hkind =>
    have hfirst : (n.valueIn?.bind Slot.first?).map (·.node) = some x := by
      rw [referencedVariable, hn, ok_bind, if_pos hkind] at htarget
      exact Except.ok.inj htarget
    refine ⟨htarget, ?_⟩
    rw [read] at hread
    cases hbound : g.depthBound with
    | zero =>
      rw [hbound] at hread
      cases hread
    | succ k =>
      rw [hbound, readWithin, node?_eq_some_iff.2 hlive] at hread
      dsimp only at hread
      rw [hkind] at hread
      dsimp only at hread
      rw [hfirst] at hread
      obtain ⟨y, hy⟩ := live_of_readWithin hread
      refine ⟨y, node_eq_ok_iff.2 hy, ?_⟩
      by_contra hvariable
      have hpushed := pushed_of_readWithin hread hy (by simpa [Node.isVariable] using hvariable)
      rw [hx] at hpushed
      cases hpushed
  next => cases htarget

theorem Exec.read_eq_ok_iff {id : NodeId} {s s' : State} {v : Value} :
    (Exec.read g id).apply s = (.ok v, s') ↔ g.read s.memory id = .ok v ∧ s' = s := by
  rw [apply_read, Prod.mk.injEq, @eq_comm _ s]

theorem Exec.refersToNonVariable_of_argument {n : Node} {slot : Slot} {s : State} {v : Value} {x : NodeId}
    (h : (argument g n slot).apply s = (.ok (v, some x), s)) (hx : s.memory.pushed? x = none) :
    ∃ r, slot.first? = some r ∧ g.RefersToNonVariable r.node x := by
  unfold argument at h
  dsimp only at h
  split at h
  next => cases h
  next r hr =>
    obtain ⟨value, s₁, hread, hrest⟩ := bind_eq_ok_iff.1 h
    obtain ⟨hread, rfl⟩ := read_eq_ok_iff.1 hread
    split at hrest
    next =>
      obtain ⟨target, s₂, hlift, hrest⟩ := bind_eq_ok_iff.1 hrest
      obtain ⟨htarget, -⟩ := lift_eq_ok_iff.1 hlift
      cases hrest
      exact ⟨r, hr, refersToNonVariable_of_read hread htarget hx⟩
    next => cases hrest

/-- It takes a stray reference, passed by reference, to break off what an evaluation does last. -/
theorem Exec.FailsWhileWriting.refersToNonVariable {s : State} {id x : NodeId} {v : Value} {done : List NodeId}
    (h : FailsWhileWriting g s id v done x) :
    ∃ r, g.RefersToNonVariable r x := by
  obtain ⟨n, rest, -, -, f, arguments, -, harguments, -, htargets⟩ := h.callResult
  have hmem : x ∈ arguments.filterMap (·.2) := by
    rw [htargets]
    exact List.mem_append_right done List.mem_cons_self
  obtain ⟨a, ha, hx⟩ := List.mem_filterMap.1 hmem
  obtain ⟨slot, -, hslot⟩ := KeepsState.exists_of_mem (keepsState_argument g n) harguments ha
  obtain ⟨w, target⟩ := a
  obtain rfl : target = some x := hx
  obtain ⟨r, -, hrefersToNonVariable⟩ := refersToNonVariable_of_argument hslot h.firstUnpushed.unpushed
  exact ⟨r.node, hrefersToNonVariable⟩

namespace Memory

variable (m : Memory) (v : Value)

theorem ext_pushed {m m' : Memory} (hvalues : m'.values = m.values) (hpushed : ∀ id, m'.pushed? id = m.pushed? id) :
    m' = m := by
  obtain ⟨values, pushed⟩ := m
  obtain ⟨values', pushed'⟩ := m'
  obtain rfl : values' = values := hvalues
  congr
  exact Std.ExtTreeMap.ext_getElem? fun raw => hpushed ⟨raw⟩

theorem pushed?_foldl (done : List NodeId) (id : NodeId) :
    (done.foldl (fun m y => m.setVariable y v) m).pushed? id = if id ∈ done then some (some v) else m.pushed? id := by
  induction done generalizing m with
  | nil => rfl
  | cons y done ih =>
    rw [List.foldl_cons, ih, pushed?_setVariable]
    by_cases hmem : id ∈ done
    · rw [if_pos hmem, if_pos (List.mem_cons_of_mem y hmem)]
    · rw [if_neg hmem]
      simp only [List.mem_cons, hmem, or_false]

theorem values_foldl (done : List NodeId) : (done.foldl (fun m y => m.setVariable y v) m).values = m.values := by
  induction done generalizing m with
  | nil => rfl
  | cons y done ih => exact ih (m.setVariable y v)

end Memory

theorem State.hand_eq_self_iff {s : State} {v : Value} {done : List NodeId} :
    s.hand v done = s ↔ ∀ y ∈ done, s.memory.pushed? y = some (some v) := by
  constructor
  · intro h y hy
    rw [← h]
    exact (s.memory.pushed?_foldl v done y).trans (if_pos hy)
  · intro h
    have hmemory : done.foldl (fun m y => m.setVariable y v) s.memory = s.memory := by
      refine Memory.ext_pushed (s.memory.values_foldl v done) fun id => ?_
      rw [Memory.pushed?_foldl]
      split
      next hid => exact (h id hid).symm
      next => rfl
    rw [hand, hmemory]

namespace Machine

variable {m m' : Machine} {e : MachineError}

/-- The machine is about to evaluate a call, which breaks off while it hands its result on. -/
def FailsWhileWriting (g : Graph) (m : Machine) (v : Value) (done : List NodeId) (x : NodeId) : Prop :=
  m.isDebugging = true ∧ ∃ id, m.nextOp? = some (.eval id) ∧ Exec.FailsWhileWriting g m.state id v done x

/-- All that can be inspected is as it was. -/
structure Unaltered (g : Graph) (m m' : Machine) : Prop where
  registers : m'.state.registers = m.state.registers
  stored (id : NodeId) : m'.readVariable id = m.readVariable id
  values (id : NodeId) : m'.valueOf g id = m.valueOf g id
  visited : m'.state.visited = m.state.visited
  lastEvaluated : m'.state.lastEvaluated = m.state.lastEvaluated

theorem Unaltered.of_state (h : m'.state = m.state) : Unaltered g m m' where
  registers := congrArg State.registers h
  stored id := by rw [readVariable, readVariable, h]
  values id := by rw [valueOf, valueOf, h]
  visited := congrArg State.visited h
  lastEvaluated := congrArg State.lastEvaluated h

theorem stepOver_state {t : Trap} (hdebugging : m.isDebugging = true) (hprogram : m.program = some c)
    (h : m.stepOver g = (m', .error t)) : c.advance g m.state = (.error t, m'.state) := by
  obtain ⟨steps, hstep⟩ := step_eq (g := g) hprogram
  rw [stepOver, hdebugging, Bool.not_true, if_neg Bool.false_ne_true, hstep] at h
  rcases hadvance : c.advance g m.state with ⟨t' | _ | target, s⟩
  · rw [hadvance] at h
    dsimp only at h
    rcases settle_eq { m with state := s, steps } (.error t' : Except Trap Bool) with hsame | hstop
    · rw [hsame] at h
      cases h
      rfl
    · rw [hstop] at h
      cases h
      rw [(stop_eq _).2.1]
  · rw [hadvance] at h
    cases h
  · rw [hadvance] at h
    dsimp only at h
    cases hlt : decide (target < c.size) with
    | true =>
      rw [hlt] at h
      cases h
    | false =>
      rw [hlt] at h
      cases h

theorem stepOver_eq_error (h : m.stepOver g = (m', .error (.error e))) :
    m'.state = m.state ∨ ∃ v done x, m.FailsWhileWriting g v done x := by
  cases hdebugging : m.isDebugging with
  | false =>
    rw [stepOver, hdebugging] at h
    cases h
    exact .inl rfl
  | true =>
    cases hprogram : m.program with
    | none =>
      rw [stepOver, hdebugging, step, hprogram] at h
      cases h
      exact .inl (stop_eq m).2.1
    | some c =>
      refine (Code.advance_eq_error (stepOver_state hdebugging hprogram h)).imp_right ?_
      rintro ⟨id, v, done, x, hop, hfailsWhileWriting⟩
      exact ⟨v, done, x, hdebugging, id, by rw [nextOp?, hprogram]; exact hop, hfailsWhileWriting⟩

theorem FailsWhileWriting.stepOver_eq {v : Value} {done : List NodeId} {x : NodeId}
    (hfailsWhileWriting : m.FailsWhileWriting g v done x) (h : m.stepOver g = (m', .error (.error e))) :
    e = .variableNotPushed x ∧ m'.state = m.state.hand v done := by
  obtain ⟨hdebugging, id, hop, hfailsWhileWriting⟩ := hfailsWhileWriting
  obtain ⟨c, hprogram, hop⟩ := Option.bind_eq_some_iff.1 hop
  have hadvance := stepOver_state hdebugging hprogram h
  rw [Code.advance_of_failsWhileWriting hop hfailsWhileWriting, Prod.mk.injEq] at hadvance
  obtain ⟨he, hstate⟩ := hadvance
  cases he
  exact ⟨rfl, hstate.symm⟩

/-- A fault leaves all that can be inspected as it was, unless it breaks off a call that hands its result on and has
changed a variable already. That takes a reference, passed by reference, that refers to something else than a
variable. -/
theorem unaltered_iff_not_failsWhileWriting (h : m.stepOver g = (m', .error (.error e))) :
    (Unaltered g m m' ↔ ∀ v done x, m.FailsWhileWriting g v done x → ∀ y ∈ done, m.readVariable y = some v) ∧
    ∀ v done x, m.FailsWhileWriting g v done x → e = .variableNotPushed x ∧ m'.state = m.state.hand v done ∧
    ∃ r, g.RefersToNonVariable r x := by
  refine ⟨⟨fun hunaltered v done x hfailsWhileWriting y hy => ?_, fun hsame => ?_⟩,
    fun v done x hfailsWhileWriting => ?_⟩
  · have hstate := (hfailsWhileWriting.stepOver_eq h).2
    rw [← hunaltered.stored y, readVariable, hstate]
    have hpushed : (m.state.hand v done).memory.pushed? y = some (some v) :=
      (m.state.memory.pushed?_foldl v done y).trans (if_pos hy)
    rw [hpushed]
    rfl
  · rcases stepOver_eq_error h with hstate | ⟨v, done, x, hfailsWhileWriting⟩
    · exact .of_state hstate
    · refine .of_state ((hfailsWhileWriting.stepOver_eq h).2.trans (State.hand_eq_self_iff.2 fun y hy => ?_))
      exact Option.join_eq_some_iff.1 (hsame v done x hfailsWhileWriting y hy)
  · obtain ⟨he, hstate⟩ := hfailsWhileWriting.stepOver_eq h
    obtain ⟨-, id, -, hfailsWhileWriting⟩ := hfailsWhileWriting
    exact ⟨he, hstate, hfailsWhileWriting.refersToNonVariable⟩

/-- Node 3 is a variable and node 4 a literal, 7. Node 5 was created as a reference to the variable and is fed by the
literal now. The sum of the two, node 6, is to go to both of them. -/
def misdirected : Except Fault Graph := do
  let g ← create {} {} .standard {}
  let s ← g.rootScope
  [.declaration .int "x" s, .literal (.int 7) s, .reference ⟨3⟩ s, .disconnect ⟨⟨⟨3⟩, ⟨3⟩⟩, ⟨⟨5⟩, ⟨0⟩⟩, .value⟩ true,
    .connect ⟨⟨4⟩, ⟨0⟩⟩ ⟨⟨5⟩, ⟨0⟩⟩ true, .operator ⟨"+", .int, [⟨.int, true⟩, ⟨.int, true⟩]⟩ s,
    .connect ⟨⟨3⟩, ⟨3⟩⟩ ⟨⟨6⟩, ⟨3⟩⟩ true, .connect ⟨⟨5⟩, ⟨1⟩⟩ ⟨⟨6⟩, ⟨4⟩⟩ true,
    .connect ⟨⟨1⟩, ⟨0⟩⟩ ⟨⟨6⟩, ⟨0⟩⟩ true].foldlM perform g

def misdirectedCode : Code :=
  .ofList (Program.code ⟨⟨⟨2⟩, "entry point", [⟨⟨3⟩, "x"⟩]⟩, .sequence [.evaluate ⟨6⟩ "+"]⟩ false)

theorem misdirected_reachable (h : misdirected = .ok g) : Reachable g := by
  simp only [misdirected, bind_eq_ok] at h
  obtain ⟨g₀, hcreate, s, -, h⟩ := h
  exact (Reachable.create hcreate).edits h

/-- The machine that debugs the sum, with the variable pushed. -/
def beforeSum (g : Graph) : Machine :=
  (((({} : Machine).load misdirectedCode).1.debug g).1.stepOver g).1.stepOver g |>.1

theorem session_beforeSum (g : Graph) : Session g misdirectedCode (beforeSum g) := by
  have hload : Session g misdirectedCode (({} : Machine).load misdirectedCode).1 :=
    @Session.load g misdirectedCode {} (({} : Machine).load misdirectedCode).1 rfl
  exact hload.debug.stepOver.stepOver

def compare (m : Machine) : Machine × Except Trap Bool → Except Fault (MachineError × Option Value × Option Value)
  | (m', .error (.error e)) => .ok (e, m.readVariable ⟨3⟩, m'.readVariable ⟨3⟩)
  | _ => .error .endless

theorem misdirected_fails : ∃ g m', misdirected = .ok g ∧ g.compile false = .ok (.ok misdirectedCode) ∧
    (beforeSum g).stepOver g = (m', .error (.error (.variableNotPushed ⟨4⟩))) ∧ (beforeSum g).isDebugging = true ∧
    (beforeSum g).readVariable ⟨3⟩ = none ∧ m'.readVariable ⟨3⟩ = some (.int 7) := by
  obtain ⟨g, hg⟩ := exists_of_isOk (x := misdirected) (by decide +kernel)
  have hcompile := eq_ok_of_toOption_bind (·.compile false) hg (b := .ok misdirectedCode) (by decide +kernel)
  have hstep := eq_ok_of_toOption_bind (fun g => compare (beforeSum g) ((beforeSum g).stepOver g)) hg
    (b := (.variableNotPushed ⟨4⟩, none, some (.int 7))) (by decide +kernel)
  unfold compare at hstep
  split at hstep
  next m' e hm' =>
    rw [Except.ok.injEq, Prod.mk.injEq, Prod.mk.injEq] at hstep
    obtain ⟨rfl, hbefore, hafter⟩ := hstep
    refine ⟨g, m', hg, hcompile, hm', ?_, hbefore, hafter⟩
    by_contra hnot
    rw [stepOver, Bool.not_eq_true _ |>.mp hnot] at hm'
    cases hm'
  next => cases hstep

/-- The sum has gone to the variable, and could not go to the literal. -/
theorem failsWhileWriting_misdirected :
    ∃ g m', misdirected = .ok g ∧ Reachable g ∧ g.compile false = .ok (.ok misdirectedCode) ∧
    Session g misdirectedCode (beforeSum g) ∧
    (beforeSum g).stepOver g = (m', .error (.error (.variableNotPushed ⟨4⟩))) ∧
    ∃ v done, (beforeSum g).FailsWhileWriting g v done ⟨4⟩ ∧ m'.state = (beforeSum g).state.hand v done ∧
    ∃ r, g.RefersToNonVariable r ⟨4⟩ := by
  obtain ⟨g, m', hg, hcompile, hstep, -, hbefore, hafter⟩ := misdirected_fails
  refine ⟨g, m', hg, misdirected_reachable hg, hcompile, session_beforeSum g, hstep, ?_⟩
  rcases stepOver_eq_error hstep with hstate | ⟨v, done, x, hfailsWhileWriting⟩
  · rw [readVariable, hstate] at hafter
    cases hbefore.symm.trans hafter
  · obtain ⟨he, hstate, hrefersToNonVariable⟩ :=
        (unaltered_iff_not_failsWhileWriting hstep).2 v done x hfailsWhileWriting
    cases he
    exact ⟨v, done, hfailsWhileWriting, hstate, hrefersToNonVariable⟩

/-- The debugger reports a fault, and the variable has another value than when the failed instruction started. -/
theorem not_unaltered_misdirected : ∃ g m m' e, misdirected = .ok g ∧ Reachable g ∧
    g.compile false = .ok (.ok misdirectedCode) ∧ Session g misdirectedCode m ∧ m.isDebugging = true ∧
    m.stepOver g = (m', .error (.error e)) ∧ e = .variableNotPushed ⟨4⟩ ∧ m.readVariable ⟨3⟩ = none ∧
    m'.readVariable ⟨3⟩ = some (.int 7) ∧ ¬Unaltered g m m' := by
  obtain ⟨g, m', hg, hcompile, hstep, hdebugging, hbefore, hafter⟩ := misdirected_fails
  refine ⟨g, _, m', _, hg, misdirected_reachable hg, hcompile, session_beforeSum g, hdebugging, hstep, rfl, hbefore,
    hafter, fun hunaltered => ?_⟩
  have hsame := hunaltered.stored ⟨3⟩
  rw [hbefore, hafter] at hsame
  cases hsame

end Machine

end FlowGraph
