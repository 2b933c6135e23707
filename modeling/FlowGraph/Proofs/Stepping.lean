import FlowGraph.Proofs.Course

/-!
# Stepping through code

A machine without a step limit does what its code does to its state. The cursor is the one part of the state
that instructions other than jumps do not look at, so it can be set aside while the rest is compared.
-/

namespace FlowGraph

def State.at (s : State) (line : Nat) : State := { s with registers := s.registers.setCursor line }

def State.rewind (s : State) : State := s.at 0

namespace State

@[simp]
theorem at_at (s : State) (line line' : Nat) : (s.at line).at line' = s.at line' := rfl

@[simp]
theorem rewind_at (s : State) (line : Nat) : (s.at line).rewind = s.rewind := rfl

theorem cursor_at {s : State} {line : Nat} (h : line ≤ Code.limit) : (s.at line).registers.cursor = line := by
  rw [Code.limit] at h
  show line.toUInt64.toNat = line
  rw [Nat.toUInt64_eq, UInt64.toNat_ofNat']
  omega

end State

namespace Exec

variable {α β : Type}

def apply (x : Exec α) (s : State) : Except Trap α × State := StateT.run (ExceptT.run x) s

theorem apply_bind (x : Exec α) (f : α → Exec β) (s : State) :
    (x >>= f).apply s = match x.apply s with
      | (.ok a, s') => (f a).apply s'
      | (.error t, s') => (.error t, s') := by
  unfold apply
  rw [ExceptT.run_bind, StateT.run_bind]
  show (fun r : Except Trap α × State => _) (StateT.run (ExceptT.run x) s) = _
  rcases StateT.run (ExceptT.run x) s with ⟨t | a, s'⟩ <;> rfl

theorem bind_eq_error_iff {x : Exec α} {f : α → Exec β} {s s' : State} {t : Trap} :
    (x >>= f).apply s = (.error t, s') ↔ x.apply s = (.error t, s') ∨
      ∃ a s₁, x.apply s = (.ok a, s₁) ∧ (f a).apply s₁ = (.error t, s') := by
  rw [apply_bind]
  rcases x.apply s with ⟨t₁ | a, s₁⟩
  · simp
  · constructor
    · exact fun h => .inr ⟨a, s₁, rfl, h⟩
    · rintro (hfail | ⟨_, _, ⟨⟩, h⟩)
      · cases hfail
      · exact h

theorem bind_eq_ok_iff {x : Exec α} {f : α → Exec β} {s s' : State} {b : β} : (x >>= f).apply s = (.ok b, s') ↔
    ∃ a s₁, x.apply s = (.ok a, s₁) ∧ (f a).apply s₁ = (.ok b, s') := by
  rw [apply_bind]
  rcases x.apply s with ⟨t | a, s₁⟩
  · simp
  · constructor
    · exact fun h => ⟨a, s₁, rfl, h⟩
    · rintro ⟨_, _, ⟨⟩, h⟩
      exact h

theorem apply_get_bind (f : State → Exec α) (s : State) : (get >>= f).apply s = (f s).apply s := rfl

def IgnoresCursor (x : Exec α) : Prop := ∀ s line, x.apply (s.at line) = ((x.apply s).1, (x.apply s).2.at line)

namespace IgnoresCursor

theorem pure (a : α) : IgnoresCursor (Pure.pure a : Exec α) := fun _ _ => rfl

theorem throw (t : Trap) : IgnoresCursor (MonadExcept.throw t : Exec α) := fun _ _ => rfl

theorem fail (e : MachineError) : IgnoresCursor (Exec.fail e : Exec α) := fun _ _ => rfl

theorem lift (x : Except Fault α) : IgnoresCursor (Exec.lift x) := by
  cases x with
  | error f => exact IgnoresCursor.throw _
  | ok a => exact IgnoresCursor.pure a

theorem bind {x : Exec α} {f : α → Exec β} (hx : IgnoresCursor x) (hf : ∀ a, IgnoresCursor (f a)) :
    IgnoresCursor (x >>= f) := by
  intro s line
  rw [apply_bind, apply_bind, hx s line]
  rcases x.apply s with ⟨t | a, s'⟩
  · rfl
  · exact hf a s' line

theorem get {f : State → Exec β} (hf : ∀ s, IgnoresCursor (f s)) (hcursor : ∀ s line, f (s.at line) = f s) :
    IgnoresCursor (MonadState.get >>= f) := by
  intro s line
  show (f (s.at line)).apply (s.at line) = (((f s).apply s).1, ((f s).apply s).2.at line)
  rw [hcursor]
  exact hf s s line

theorem modify {f : State → State} (hf : ∀ s line, f (s.at line) = (f s).at line) :
    IgnoresCursor (modify f : Exec Unit) := by
  intro s line
  show (Except.ok (), f (s.at line)) = (Except.ok (), (f s).at line)
  rw [hf]

theorem modifyMemory (f : Memory → Memory) : IgnoresCursor (Exec.modifyMemory f) := IgnoresCursor.modify fun _ _ => rfl

theorem write {r : Register} (h : r ≠ .eip) (word : Word) : IgnoresCursor (Exec.write r word) := by
  apply IgnoresCursor.modify
  intro s line
  cases r with
  | rax => rfl
  | rdx => rfl
  | eip => exact (h rfl).elim

theorem mapM {f : α → Exec β} (hf : ∀ a, IgnoresCursor (f a)) (as : List α) : IgnoresCursor (as.mapM f) := by
  induction as with
  | nil => exact IgnoresCursor.pure []
  | cons a as ih =>
    rw [List.mapM_cons]
    exact (hf a).bind fun _ => ih.bind fun _ => IgnoresCursor.pure _

theorem forM {f : α → Exec PUnit} (hf : ∀ a, IgnoresCursor (f a)) (as : List α) : IgnoresCursor (as.forM f) := by
  induction as with
  | nil => exact IgnoresCursor.pure ()
  | cons a as ih => exact (hf a).bind fun _ => ih

end IgnoresCursor

variable (g : Graph)

theorem ignoresCursor_read (id : NodeId) : IgnoresCursor (read g id) := by
  apply IgnoresCursor.get
  · intro s
    split
    · exact IgnoresCursor.pure _
    · exact IgnoresCursor.throw _
  · intro s line
    rfl

theorem ignoresCursor_assign (id : NodeId) (v : Value) : IgnoresCursor (assign id v) := by
  apply IgnoresCursor.get
  · intro s
    split
    · exact (IgnoresCursor.fail _).bind fun _ => IgnoresCursor.modifyMemory _
    · exact IgnoresCursor.modifyMemory _
  · intro s line
    rfl

theorem ignoresCursor_argument (n : Node) (slot : Slot) : IgnoresCursor (argument g n slot) := by
  unfold argument
  dsimp only
  split
  · exact IgnoresCursor.pure _
  · apply (ignoresCursor_read g _).bind
    intro value
    split
    · exact (IgnoresCursor.lift _).bind fun _ => IgnoresCursor.pure _
    · exact IgnoresCursor.pure _

theorem ignoresCursor_invoke (n : Node) : IgnoresCursor (invoke g n) := by
  unfold invoke
  split
  · exact IgnoresCursor.fail _
  · apply (IgnoresCursor.mapM (ignoresCursor_argument g n) _).bind
    intro arguments
    apply (IgnoresCursor.lift _).bind
    intro result
    split
    · exact IgnoresCursor.fail _
    · exact (IgnoresCursor.forM (fun v => ignoresCursor_assign v _) _).bind fun _ => IgnoresCursor.pure _

theorem ignoresCursor_firstValue (n : Node) : IgnoresCursor (firstValue g n) := by
  apply IgnoresCursor.get
  · intro s
    split
    · exact IgnoresCursor.fail _
    · exact IgnoresCursor.pure _
    · split
      · exact (ignoresCursor_read g _).bind fun v => (ignoresCursor_assign _ v).bind fun _ => IgnoresCursor.pure v
      · exact (IgnoresCursor.pure _).bind fun v => (ignoresCursor_assign _ v).bind fun _ => IgnoresCursor.pure v
  · intro s line
    rfl

theorem ignoresCursor_valueFor (n : Node) : IgnoresCursor (valueFor g n) := by
  have hkeep (x : Exec Value) (hx : IgnoresCursor x) :
      IgnoresCursor (do let v ← x; Exec.modifyMemory (·.setValue n.id v); return v) :=
    hx.bind fun v => (IgnoresCursor.modifyMemory _).bind fun _ => IgnoresCursor.pure v
  unfold valueFor
  split
  · exact ignoresCursor_firstValue g n
  · exact hkeep _ (ignoresCursor_invoke g n)
  · exact hkeep _ (ignoresCursor_invoke g n)
  · exact hkeep _ (ignoresCursor_read g n.id)

theorem ignoresCursor_evaluate (id : NodeId) : IgnoresCursor (evaluate g id) := by
  apply (IgnoresCursor.lift _).bind
  intro found
  split
  · exact IgnoresCursor.fail _
  · apply (ignoresCursor_valueFor g _).bind
    intro v
    exact (IgnoresCursor.write (by decide) _).bind fun _ => IgnoresCursor.modify fun _ _ => rfl

end Exec

/-- A result with the cursor set aside. -/
def ending (r : Except Trap Unit × State) : Except Trap Unit × State := (r.1, r.2.rewind)

namespace Code

variable (c : Code) (g : Graph)

def advance (s : State) : Except Trap (Option Nat) × State :=
  let line := s.registers.cursor
  match c.op? line with
  | none => (.ok none, s)
  | some op =>
    match (Exec.perform g op).apply s with
    | (.error t, s) => (.error t, s)
    | (.ok move, s) =>
      match move.target line c.size with
      | .error e => (.error (.error e), s)
      | .ok target => (.ok target, s)

def finish : Nat → State → Option (Except Trap Unit × State)
  | 0, _ => none
  | n + 1, s =>
    match c.advance g s with
    | (.error t, s) => some (.error t, s.rewind)
    | (.ok none, s) => some (.ok (), s.rewind)
    | (.ok (some target), s) => finish n (s.at target)

variable {c g}

theorem op?_eq_none_iff {line : Nat} : c.op? line = none ↔ c.size ≤ line := by
  simp [op?, get?, size]

theorem lt_size {line : Nat} {op : Op} (h : c.op? line = some op) : line < c.size := by
  apply Nat.lt_of_not_le
  intro hline
  rw [op?_eq_none_iff.2 hline] at h
  cases h

theorem le_of_target {line size target : Nat} {move : Move} (h : move.target line size = .ok (some target)) :
    target ≤ size := by
  cases move with
  | «by» offset =>
    simp only [Move.target] at h
    split at h
    next hrange =>
      cases h
      omega
    next => cases h
  | «to» word =>
    simp only [Move.target] at h
    split at h
    next hrange =>
      cases h
      exact hrange
    next => cases h
  | halt => cases h

theorem of_advance {s s' : State} {target : Nat} (h : c.advance g s = (.ok (some target), s')) :
    ∃ op move, c.op? s.registers.cursor = some op ∧ (Exec.perform g op).apply s = (.ok move, s') ∧
      move.target s.registers.cursor c.size = .ok (some target) := by
  simp only [advance] at h
  split at h
  next => cases h
  next op hop =>
    split at h
    next => cases h
    next move s₁ hperform =>
      split at h
      next => cases h
      next htarget =>
        cases h
        exact ⟨op, move, hop, hperform, htarget⟩

theorem le_of_advance {s s' : State} {target : Nat} (h : c.advance g s = (.ok (some target), s')) :
    target ≤ c.size := by
  obtain ⟨op, move, -, -, htarget⟩ := of_advance h
  exact le_of_target htarget

theorem finish_mono {n n' : Nat} {s : State} {y : Except Trap Unit × State} (h : c.finish g n s = some y)
    (hn : n ≤ n') : c.finish g n' s = some y := by
  induction n generalizing n' s with
  | zero => cases h
  | succ n ih =>
    obtain ⟨n', rfl⟩ : ∃ m, n' = m + 1 := ⟨n' - 1, by omega⟩
    rw [finish] at h ⊢
    rcases hadvance : c.advance g s with ⟨t | _ | target, s'⟩ <;> simp only [hadvance] at h ⊢
    · exact h
    · exact h
    · exact ih h (Nat.le_of_succ_le_succ hn)

theorem finish_end (hc : c.size ≤ limit) (n : Nat) (s : State) :
    c.finish g (n + 1) (s.at c.size) = some (.ok (), s.rewind) := by
  have hop : c.op? c.size = none := op?_eq_none_iff.2 (Nat.le_refl _)
  simp only [finish, advance, State.cursor_at hc, hop, State.rewind_at]

end Code

namespace Machine

variable {g : Graph} {c : Code} {m : Machine}

/-- What is observed of a run: how it ends, and in which state. -/
def observe (r : Machine × Except Trap Unit) : Except Trap Unit × State := ending (r.2, r.1.state)

def launch (m : Machine) (c : Code) : Machine :=
  { m with program := some c, mode := .running, state := {}, nextNode := none, steps := 0 }

theorem step_eq (h : m.program = some c) :
    ∃ steps, m.step g = match c.advance g m.state with
      | (.error t, state) => ({ m with state, steps }, .error t)
      | (.ok none, state) => ({ m with state, steps }, .ok false)
      | (.ok (some target), state) =>
        ({ m with state := state.at target, steps }, .ok (decide (target < c.size))) := by
  rw [step, h]
  dsimp only
  rw [Code.advance, cursor]
  cases hop : c.op? m.state.registers.cursor with
  | none => exact ⟨m.steps, by rw [← h]⟩
  | some op =>
    refine ⟨m.steps + 1, ?_⟩
    dsimp only
    have happly : ExceptT.run (Exec.perform g op) m.state = (Exec.perform g op).apply m.state := rfl
    rw [happly]
    rcases (Exec.perform g op).apply m.state with ⟨t | move, s⟩
    · rfl
    · dsimp only
      rcases move.target m.state.registers.cursor c.size with e | _ | target <;> rfl

variable (hlimit : m.stepLimit = none) (hprogram : m.program = some c) (hsize : c.size ≤ Code.limit)

include hlimit hprogram hsize

theorem finish_of_proceed {n : Nat} {r : Machine × Except Trap Unit} (h : proceed g n m = some r) :
    c.finish g (n + 1) m.state = some (observe r) := by
  induction n generalizing m with
  | zero => cases h
  | succ n ih =>
    have hreached : m.limitReached = none := by rw [limitReached, hlimit]
    obtain ⟨steps, hstep⟩ := step_eq (g := g) hprogram
    rw [Code.finish]
    simp only [proceed, hreached, hstep] at h
    rcases hadvance : c.advance g m.state with ⟨t | _ | target, s⟩ <;>
      simp only [hadvance, Option.some.injEq] at h ⊢
    · subst h
      rfl
    · subst h
      rfl
    · by_cases htarget : target < c.size
      · simp only [htarget, decide_true] at h
        exact ih (m := { m with state := s.at target, steps }) hlimit hprogram h
      · obtain rfl : target = c.size := by
          have := Code.le_of_advance hadvance
          omega
        simp only [htarget, decide_false, Option.some.injEq] at h
        subst h
        exact Code.finish_end hsize n s

theorem proceed_of_finish {n : Nat} {y : Except Trap Unit × State} (h : c.finish g n m.state = some y) :
    ∃ r, proceed g n m = some r ∧ observe r = y := by
  induction n generalizing m with
  | zero => cases h
  | succ n ih =>
    have hreached : m.limitReached = none := by rw [limitReached, hlimit]
    obtain ⟨steps, hstep⟩ := step_eq (g := g) hprogram
    rw [Code.finish] at h
    simp only [proceed, hreached, hstep]
    rcases hadvance : c.advance g m.state with ⟨t | _ | target, s⟩ <;>
      simp only [hadvance, Option.some.injEq] at h ⊢
    · exact ⟨_, rfl, h⟩
    · exact ⟨_, rfl, h⟩
    · by_cases htarget : target < c.size
      · simp only [htarget, decide_true]
        exact ih hlimit hprogram h
      · obtain rfl : target = c.size := by
          have := Code.le_of_advance hadvance
          omega
        simp only [htarget, decide_false]
        refine ⟨_, rfl, ?_⟩
        cases n with
        | zero => cases h
        | succ n =>
          rw [Code.finish_end hsize] at h
          exact Option.some.inj h

omit hlimit hprogram hsize in
theorem observe_settle (r : Machine × Except Trap Unit) : observe (settle r) = observe r := by
  have hstop (m : Machine) : m.stop.state = m.state := by
    rw [stop]
    split <;> rfl
  match r with
  | (m, .ok ()) => simp only [settle, observe, hstop]
  | (m, .error (.error e)) => simp only [settle, observe, hstop]
  | (m, .error (.fault f)) => rfl

omit hlimit hprogram hsize in
theorem run_of_load {m' : Machine} (hload : m.load c = (m', .ok ())) (n : Nat) :
    m'.run g n = (proceed g n (m.launch c)).map settle := by
  simp only [load] at hload
  split at hload
  next => cases hload
  next hstopped =>
    split at hload
    next => cases hload
    next =>
      cases hload
      rw [Bool.not_eq_true, Bool.not_eq_false'] at hstopped
      simp only [isStopped] at hstopped
      simp [run, start, clear, isStopped, hstopped, launch]

omit hprogram in
theorem exists_run_iff {m' : Machine} (hload : m.load c = (m', .ok ())) (y : Except Trap Unit × State) :
    (∃ n, (m'.run g n).map observe = some y) ↔ ∃ n, c.finish g n {} = some y := by
  constructor
  · rintro ⟨n, h⟩
    rw [run_of_load hload, Option.map_map, Option.map_eq_some_iff] at h
    obtain ⟨r, hr, rfl⟩ := h
    refine ⟨n + 1, ?_⟩
    rw [Function.comp_apply, observe_settle]
    exact finish_of_proceed (m := m.launch c) hlimit rfl hsize hr
  · rintro ⟨n, h⟩
    obtain ⟨r, hr, rfl⟩ := proceed_of_finish (m := m.launch c) hlimit rfl hsize h
    refine ⟨n, ?_⟩
    rw [run_of_load hload, hr, Option.map_some, Option.map_some, observe_settle]

end Machine

end FlowGraph
