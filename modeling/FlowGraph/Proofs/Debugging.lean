import FlowGraph.Proofs.Lifecycle

/-!
# Running and stepping

A debugger that steps over one instruction after the other sees what a run does. Two machines with the same program
stay abreast of each other, one running and one debugging, whatever they did before they were started: only the
program, the state and the number of steps count.
-/

namespace FlowGraph

namespace Machine

variable {g : Graph} {c : Code} {r d : Machine}

/-- Steps over instructions until the program ends, if that takes fewer than `n` instructions. -/
def stepThrough (g : Graph) : Nat → Machine → Option (Machine × Except Trap Unit)
  | 0, _ => none
  | n + 1, m =>
    match m.stepOver g with
    | (m, .ok true) => stepThrough g n m
    | (m, .ok false) => some (m, .ok ())
    | (m, .error t) => some (m, .error t)

/-- The machine after `k` instructions, if another one follows each of them. -/
def stepsOver (g : Graph) : Nat → Machine → Option Machine
  | 0, m => some m
  | k + 1, m =>
    match m.stepOver g with
    | (m, .ok true) => stepsOver g k m
    | _ => none

/-- How a program ended, and what it left in the machine. -/
def ended (x : Machine × Except Trap Unit) : Except Trap Unit × State := (x.2, x.1.state)

theorem observed_settle {α : Type} (x : Machine × Except Trap α) :
    (settle x).2 = x.2 ∧ (settle x).1.state = x.1.state := by
  obtain ⟨m, r⟩ := x
  rcases settle_eq m r with h | h <;> rw [h]
  · exact ⟨rfl, rfl⟩
  · exact ⟨rfl, m.stop_eq.2.1⟩

theorem ended_settle (x : Machine × Except Trap Unit) : ended (settle x) = ended x :=
  Prod.ext (observed_settle x).1 (observed_settle x).2

/-- A step neither looks at what distinguishes a run from a debugger, nor changes it. -/
theorem step_with (g : Graph) (m : Machine) (mode : Mode) (nextNode : Option NodeId) (stepLimit : Option Nat) :
    ({ m with mode, nextNode, stepLimit } : Machine).step g =
      ({ (m.step g).1 with mode, nextNode, stepLimit }, (m.step g).2) := by
  obtain ⟨limit, program, mode', state, next, steps⟩ := m
  cases program with
  | none => rfl
  | some c =>
    unfold step cursor
    dsimp only
    cases c.op? state.registers.cursor with
    | none => rfl
    | some op =>
      dsimp only
      rcases ExceptT.run (Exec.perform g op) state with ⟨t | move, s⟩
      · rfl
      · dsimp only
        rcases move.target state.registers.cursor c.size with e | _ | target <;> rfl

structure SamePosition (r d : Machine) : Prop where
  debugging : d.mode = .debugging
  program : d.program = r.program
  state : d.state = r.state
  steps : d.steps = r.steps

namespace SamePosition

theorem step (h : SamePosition r d) (g : Graph) :
    d.step g = ({ (r.step g).1 with mode := .debugging, nextNode := d.nextNode, stepLimit := d.stepLimit },
      (r.step g).2) := by
  obtain ⟨limit, program, mode, state, nextNode, steps⟩ := d
  obtain ⟨rfl, rfl, rfl, rfl⟩ := h
  exact r.step_with g .debugging nextNode limit

theorem stepOver (h : SamePosition r d) {r' : Machine} {x : Except Trap Bool} (hstep : r.step g = (r', x)) :
    ∃ d', d.stepOver g = (d', x) ∧ d'.state = r'.state ∧ (x = .ok true → SamePosition r' d') := by
  have hdebugging : (!d.isDebugging) = false := by
    rw [isDebugging, h.debugging]
    rfl
  unfold Machine.stepOver
  rw [hdebugging, if_neg Bool.false_ne_true, h.step g, hstep]
  rcases x with t | _ | _
  · exact ⟨_, Prod.ext rfl (observed_settle _).1, (observed_settle _).2, by simp⟩
  · exact ⟨_, rfl, (stop_eq _).2.1, by simp⟩
  · refine ⟨_, rfl, ?_⟩
    rw [lookAhead_eq]
    exact ⟨rfl, fun _ => ⟨rfl, rfl, rfl, rfl⟩⟩

end SamePosition

/-- Without a limit a run takes as many instructions as stepping through, and ends the same. -/
theorem SamePosition.proceed (h : SamePosition r d) (hprogram : r.program = some c)
    (hlimit : r.stepLimit = none) (n : Nat) :
    (proceed g n r).map ended = (stepThrough g n d).map ended := by
  induction n generalizing r d with
  | zero => rfl
  | succ n ih =>
    have hreached : r.limitReached = none := by rw [limitReached, hlimit]
    obtain ⟨r', x, hstep, hsameProgram, -⟩ := step_within g hprogram
    obtain ⟨d', hover, hstate, hsamePosition⟩ := h.stepOver hstep
    simp only [Machine.proceed, hreached, hstep, stepThrough, hover]
    rcases x with t | _ | _
    · exact congrArg some (Prod.ext rfl hstate.symm)
    · exact congrArg some (Prod.ext rfl hstate.symm)
    · exact ih (hsamePosition rfl) (hsameProgram.program.trans hprogram) (hsameProgram.stepLimit.trans hlimit)

theorem steps_of_step {m m' : Machine} (h : m.step g = (m', .ok true)) : m'.steps = m.steps + 1 := by
  unfold step at h
  cases hprogram : m.program with
  | none =>
    rw [hprogram] at h
    cases h
  | some c =>
    rw [hprogram] at h
    dsimp only at h
    cases hop : c.op? m.cursor with
    | none =>
      rw [hop] at h
      cases h
    | some op =>
      rw [hop] at h
      dsimp only at h
      rcases hperform : ExceptT.run (Exec.perform g op) m.state with ⟨t | move, s⟩ <;> rw [hperform] at h
      · cases h
      · dsimp only at h
        rcases htarget : move.target m.cursor c.size with e | _ | target <;> rw [htarget] at h
        · cases h
        · cases h
        · exact congrArg (·.1.steps) h.symm

/-- With a limit a run is broken off there if that many instructions are followed by another one, each. -/
theorem SamePosition.proceed_limit (h : SamePosition r d) (hprogram : r.program = some c) {limit k : Nat}
    (hlimit : r.stepLimit = some limit) (hk : r.steps + k = limit) (s : State) :
    (∃ n r', Machine.proceed g n r = some (r', .error (.error (.stepLimit limit))) ∧ r'.state = s) ↔
      ∃ d', stepsOver g k d = some d' ∧ d'.state = s := by
  induction k generalizing r d with
  | zero =>
    have hreached : r.limitReached = some limit := by
      rw [limitReached, hlimit]
      exact if_pos hk.ge
    constructor
    · rintro ⟨_ | n, r', hproceed, rfl⟩
      · cases hproceed
      · simp only [Machine.proceed, hreached] at hproceed
        cases hproceed
        exact ⟨d, rfl, h.state⟩
    · rintro ⟨d', hover, rfl⟩
      cases hover
      exact ⟨1, r, by simp only [Machine.proceed, hreached, refuse], h.state.symm⟩
  | succ k ih =>
    have hreached : r.limitReached = none := by
      rw [limitReached, hlimit]
      exact if_neg (by omega)
    obtain ⟨r', x, hstep, hsameProgram, -, -, harises⟩ := step_within g hprogram
    obtain ⟨d', hover, hstate, hsamePosition⟩ := h.stepOver hstep
    constructor
    · rintro ⟨_ | n, r₁, hproceed, hs⟩
      · cases hproceed
      · simp only [Machine.proceed, hreached, hstep] at hproceed
        rcases x with t | _ | _
        · cases hproceed
          cases (harises _ rfl).2
        · cases hproceed
        · simp only [stepsOver, hover]
          have hsteps := steps_of_step hstep
          exact (ih (hsamePosition rfl) (hsameProgram.program.trans hprogram) (hsameProgram.stepLimit.trans hlimit)
            (by omega)).1 ⟨n, r₁, hproceed, hs⟩
    · rintro ⟨d₁, hsteps, hs⟩
      simp only [stepsOver, hover] at hsteps
      rcases x with t | _ | _
      · cases hsteps
      · cases hsteps
      · have hcount := steps_of_step hstep
        obtain ⟨n, r₁, hproceed, hs⟩ := (ih (hsamePosition rfl) (hsameProgram.program.trans hprogram)
          (hsameProgram.stepLimit.trans hlimit) (by omega)).2 ⟨d₁, hsteps, hs⟩
        exact ⟨n + 1, r₁, by simp only [Machine.proceed, hreached, hstep, hproceed], hs⟩

theorem samePosition_start (hr : r.program = some c) (hd : d.program = some c) (hrs : r.mode = .stopped)
    (hds : d.mode = .stopped) (g : Graph) : (d.debug g).2 = .ok () ∧
      ∃ r₀, r.start .running = (r₀, .ok ()) ∧ SamePosition r₀ (d.debug g).1 ∧ r₀.program = some c ∧
        r₀.stepLimit = r.stepLimit ∧ r₀.steps = 0 := by
  have started {m : Machine} (hm : m.program = some c) (hstopped : m.mode = .stopped) (mode : Mode) :
      m.start mode = ({ m.clear with mode }, .ok ()) := by
    obtain ⟨hbusy, -⟩ | ⟨-, hstart⟩ := start_eq hm mode
    · rw [isStopped, hstopped] at hbusy
      cases hbusy
    · exact hstart
  rw [debug, started hd hds]
  exact ⟨rfl, _, started hr hrs .running, ⟨rfl, hd.trans hr.symm, rfl, rfl⟩, hr, rfl, rfl⟩

/-- A run without a limit ends as stepping through does, after as many instructions, and in the same state. A run
with a limit reaches it when as many steps all say that another one follows, and in the state after these. -/
theorem run_eq_stepThrough (hr : r.program = some c) (hd : d.program = some c) (hrs : r.mode = .stopped)
    (hds : d.mode = .stopped) : (d.debug g).2 = .ok () ∧
      (r.stepLimit = none → ∀ n, (r.run g n).map ended = ((d.debug g).1.stepThrough g n).map ended) ∧
      ∀ limit, r.stepLimit = some limit → ∀ s,
        (∃ n r', r.run g n = some (r', .error (.error (.stepLimit limit))) ∧ r'.state = s) ↔
          ∃ d', (d.debug g).1.stepsOver g limit = some d' ∧ d'.state = s := by
  obtain ⟨hdebug, r₀, hstart, hsamePosition, hprogram, hkept, hsteps⟩ := samePosition_start hr hd hrs hds g
  have hrun (n : Nat) : r.run g n = (proceed g n r₀).map settle := by rw [run, hstart]
  refine ⟨hdebug, fun hlimit n => ?_, fun limit hlimit s => ?_⟩
  · rw [hrun, Option.map_map, ← hsamePosition.proceed hprogram (hkept.trans hlimit) n]
    exact congrArg (Option.map · _) (funext ended_settle)
  · rw [← hsamePosition.proceed_limit hprogram (hkept.trans hlimit) (by rw [hsteps, Nat.zero_add]) s]
    constructor
    · rintro ⟨n, r', h, rfl⟩
      rw [hrun] at h
      obtain ⟨⟨r₁, x⟩, hproceed, hsettle⟩ := Option.map_eq_some_iff.1 h
      obtain ⟨rfl, rfl⟩ := eq_of_settle (r := .error (.stepLimit limit)) hsettle
      exact ⟨n, r₁, hproceed, r₁.stop_eq.2.1.symm⟩
    · rintro ⟨n, r', h, rfl⟩
      exact ⟨n, r'.stop, by rw [hrun, h]; rfl, r'.stop_eq.2.1⟩

/-- A machine that was stopped after the first instruction runs as one that has just been loaded is stepped through,
and one instruction is as far as a limit of one lets a run get. -/
theorem run_eq_stepThrough_leap : ∃ (g : Graph) (r r₁ d : Machine), r.program = some leap ∧ r₁.program = some leap ∧
    d.program = some leap ∧
    r.mode = .stopped ∧ r₁.mode = .stopped ∧ d.mode = .stopped ∧ r.state.registers.rax = 5 ∧
    d.state.registers.rax = 0 ∧ r.stepLimit = none ∧ r₁.stepLimit = some 1 ∧
    (r.run g 3).map ended = ((d.debug g).1.stepThrough g 3).map ended ∧
    ∃ n r', r₁.run g n = some (r', .error (.error (.stepLimit 1))) ∧ r'.state.registers.rax = 5 := by
  let g : Graph := { library := .empty }
  let d := (({} : Machine).load leap).1
  let r := ((d.debug g).1.stepOver g).1.stop
  let r₁ := (({ stepLimit := some 1 } : Machine).load leap).1
  refine ⟨g, r, r₁, d, rfl, rfl, rfl, rfl, rfl, rfl, rfl, rfl, rfl, rfl, ?_, ?_⟩
  · exact (run_eq_stepThrough (g := g) (r := r) (d := d) rfl rfl rfl rfl).2.1 rfl 3
  · obtain ⟨n, r', hrun, hstate⟩ := ((run_eq_stepThrough (g := g) (r := r₁) (d := d) rfl rfl rfl rfl).2.2 1 rfl
      ((d.debug g).1.stepOver g).1.state).2 ⟨_, rfl, rfl⟩
    refine ⟨n, r', hrun, ?_⟩
    rw [hstate]
    rfl

end Machine

end FlowGraph
