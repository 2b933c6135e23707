import FlowGraph.Proofs.Safety

/-!
# The life of a machine

Between calls a machine is stopped or debugs its program, whatever its clients ask of it and whatever the program
is made of. It keeps the program as it was loaded until it is released, its cursor does not leave the program, and
it is as it was after a call that it rejects.
-/

namespace FlowGraph

namespace MachineError

def isMisuse : MachineError → Bool
  | noProgram | alreadyLoaded | notRunning | busy => true
  | outOfBounds .. | unknownNode _ | variableNotPushed _ | unresolved _ | call .. | stepLimit _ => false

def isStepLimit : MachineError → Bool
  | stepLimit _ => true
  | _ => false

end MachineError

def Trap.Arises : Trap → Prop
  | .error e => e.isMisuse = false ∧ e.isStepLimit = false
  | .fault _ => True

variable {g : Graph} {c : Code}

theorem Graph.arises_of_readWithin {memory : Memory} {n : Nat} {id : NodeId} {t : Trap}
    (h : g.readWithin memory n id = .error t) : t.Arises := by
  induction n generalizing id with
  | zero =>
    cases h
    trivial
  | succ n ih =>
    simp only [readWithin] at h
    split at h
    next =>
      cases h
      trivial
    next =>
      cases h
      exact ⟨rfl, rfl⟩
    next =>
      split at h
      next =>
        split at h
        next => cases h
        next =>
          cases h
          exact ⟨rfl, rfl⟩
      next =>
        split at h
        next => exact ih h
        next => cases h
      next => cases h

namespace Exec

abbrev FailsAsOps {α : Type} (x : Exec α) : Prop := ReturnsOrTraps Trap.Arises (fun _ => True) x

namespace FailsAsOps

variable {α β : Type}

theorem pure (a : α) : FailsAsOps (Pure.pure a) := ReturnsOrTraps.pure trivial

theorem bind {x : Exec α} {f : α → Exec β} (hx : FailsAsOps x) (hf : ∀ a, FailsAsOps (f a)) : FailsAsOps (x >>= f) :=
  ReturnsOrTraps.bind hx fun a _ => hf a

theorem lift (x : Except Fault α) : FailsAsOps (Exec.lift x) := by
  cases x with
  | error f => exact ReturnsOrTraps.throw trivial
  | ok a => exact ReturnsOrTraps.lift rfl trivial

theorem mapM {f : α → Exec β} (hf : ∀ a, FailsAsOps (f a)) (as : List α) : FailsAsOps (as.mapM f) := by
  induction as with
  | nil => exact FailsAsOps.pure []
  | cons a as ih =>
    rw [List.mapM_cons]
    exact (hf a).bind fun _ => ih.bind fun _ => FailsAsOps.pure _

end FailsAsOps

variable (g)

theorem failsAsOps_read (id : NodeId) : FailsAsOps (read g id) := by
  apply ReturnsOrTraps.get
  intro s
  split
  next => exact FailsAsOps.pure _
  next t ht => exact ReturnsOrTraps.throw (Graph.arises_of_readWithin ht)

theorem failsAsOps_assign (id : NodeId) (w : Value) : FailsAsOps (assign id w) := returnsOrTraps_assign ⟨rfl, rfl⟩ w

theorem failsAsOps_argument (n : Node) (slot : Slot) : FailsAsOps (argument g n slot) := by
  unfold argument
  dsimp only
  split
  · exact FailsAsOps.pure _
  · apply (failsAsOps_read g _).bind
    intro value
    split
    · exact (FailsAsOps.lift _).bind fun _ => FailsAsOps.pure _
    · exact FailsAsOps.pure _

theorem failsAsOps_invoke (n : Node) : FailsAsOps (invoke g n) := by
  unfold invoke
  split
  · exact ReturnsOrTraps.fail ⟨rfl, rfl⟩
  · apply (FailsAsOps.mapM (failsAsOps_argument g n) _).bind
    intro arguments
    apply (FailsAsOps.lift _).bind
    intro result
    split
    · exact ReturnsOrTraps.fail ⟨rfl, rfl⟩
    · exact FailsAsOps.bind (ReturnsOrTraps.forM (fun v => failsAsOps_assign v _) _) fun _ => FailsAsOps.pure _

theorem failsAsOps_firstValue (n : Node) : FailsAsOps (firstValue g n) := by
  apply ReturnsOrTraps.get
  intro s
  split
  · exact ReturnsOrTraps.fail ⟨rfl, rfl⟩
  · exact FailsAsOps.pure _
  · split
    · exact (failsAsOps_read g _).bind fun v => (failsAsOps_assign _ v).bind fun _ => FailsAsOps.pure v
    · exact (FailsAsOps.pure _).bind fun v => (failsAsOps_assign _ v).bind fun _ => FailsAsOps.pure v

theorem failsAsOps_valueFor (n : Node) : FailsAsOps (valueFor g n) := by
  have hkeep (x : Exec Value) (hx : FailsAsOps x) :
      FailsAsOps (do let v ← x; Exec.modifyMemory (·.setValue n.id v); return v) :=
    hx.bind fun v => FailsAsOps.bind (ReturnsOrTraps.setValue n.id v) fun _ => FailsAsOps.pure v
  unfold valueFor
  split
  · exact failsAsOps_firstValue g n
  · exact hkeep _ (failsAsOps_invoke g n)
  · exact hkeep _ (failsAsOps_invoke g n)
  · exact hkeep _ (failsAsOps_read g n.id)

theorem failsAsOps_evaluate (id : NodeId) : FailsAsOps (evaluate g id) := by
  apply (FailsAsOps.lift _).bind
  intro found
  split
  · exact ReturnsOrTraps.fail ⟨rfl, rfl⟩
  · apply (failsAsOps_valueFor g _).bind
    intro v
    exact FailsAsOps.bind (ReturnsOrTraps.write (by decide) _) fun _ => ReturnsOrTraps.modify
      fun _ => ⟨rfl, fun _ => rfl⟩

variable {g}

theorem perform_failsAsOps (g : Graph) (op : Op) (s : State) :
    ((perform g op).apply s).2.registers.cursor = s.registers.cursor ∧
      ∀ t, ((perform g op).apply s).1 = .error t → t.Arises := by
  have of_ordinary {x : Exec Move} (hx : FailsAsOps x) :
      (x.apply s).2.registers.cursor = s.registers.cursor ∧ ∀ t, (x.apply s).1 = .error t → t.Arises :=
    ⟨(hx.keepsPushed s).cursor, fun _ => hx.trap⟩
  have next : FailsAsOps (Pure.pure (.by 1) : Exec Move) := FailsAsOps.pure _
  have failed {e : MachineError} (he : (Trap.error e).Arises) : s.registers.cursor = s.registers.cursor ∧
      ∀ t, (Except.error (.error e) : Except Trap Move) = .error t → t.Arises := by
    refine ⟨rfl, fun t ht => ?_⟩
    cases ht
    exact he
  cases op with
  | cmp left right =>
    exact of_ordinary (ReturnsOrTraps.get fun _ => FailsAsOps.bind (ReturnsOrTraps.write (by decide) _) fun _ => next)
  | jmp offset => exact of_ordinary (FailsAsOps.pure _)
  | jne offset => exact of_ordinary (ReturnsOrTraps.get fun _ => FailsAsOps.pure _)
  | mov target word =>
    cases target with
    | eip => exact of_ordinary (FailsAsOps.pure _)
    | rax | rdx => exact of_ordinary (FailsAsOps.bind (ReturnsOrTraps.write (by decide) _) fun _ => next)
  | deref id =>
    exact of_ordinary ((failsAsOps_read g id).bind fun _ => FailsAsOps.bind
      (ReturnsOrTraps.write (by decide) _) fun _ => next)
  | eval id => exact of_ordinary ((failsAsOps_evaluate g id).bind fun _ => next)
  | pushVar id =>
    change ((if (!g.contains id) = true then _ else _ : Exec Move).apply s).2.registers.cursor = _ ∧
      ∀ t, ((if (!g.contains id) = true then _ else _ : Exec Move).apply s).1 = .error t → _
    split
    next => exact failed ⟨rfl, rfl⟩
    next => exact ⟨rfl, fun t ht => by cases ht⟩
  | popVar id =>
    change ((if (s.memory.pushed? id).isNone = true then _ else _ : Exec Move).apply s).2.registers.cursor = _ ∧
      ∀ t, ((if (s.memory.pushed? id).isNone = true then _ else _ : Exec Move).apply s).1 = .error t → _
    split
    next => exact failed ⟨rfl, rfl⟩
    next => exact ⟨rfl, fun t ht => by cases ht⟩
  | pushFrame | popFrame => exact of_ordinary next
  | ret => exact of_ordinary (FailsAsOps.pure _)

end Exec

theorem Move.arises_of_target {line size : Nat} {move : Move} {e : MachineError}
    (h : move.target line size = .error e) : (Trap.error e).Arises := by
  cases move with
  | «by» | «to» =>
    simp only [target] at h
    split at h
    next => cases h
    next =>
      cases h
      exact ⟨rfl, rfl⟩
  | halt => cases h

namespace Machine

variable {m m' : Machine}

theorem cursor_le_target (s : State) (target : Nat) : (s.at target).registers.cursor ≤ target := by
  show target.toUInt64.toNat ≤ target
  rw [Nat.toUInt64_eq, UInt64.toNat_ofNat']
  exact Nat.mod_le _ _

/-- A step leaves the cursor in the program, and on an instruction if it says so. -/
theorem step_within (g : Graph) (hprogram : m.program = some c) :
    ∃ m' r, m.step g = (m', r) ∧ m.SameProgram m' ∧ (m.cursor ≤ c.size → m'.cursor ≤ c.size) ∧
      (r = .ok true → m'.cursor < c.size) ∧ ∀ t, r = .error t → t.Arises := by
  obtain ⟨steps, hstep⟩ := step_eq (g := g) hprogram
  rw [hstep, Code.advance]
  cases hop : c.op? m.state.registers.cursor with
  | none => exact ⟨_, _, rfl, ⟨rfl, rfl, rfl⟩, id, by simp, by simp⟩
  | some op =>
    obtain ⟨hkept, harises⟩ := Exec.perform_failsAsOps g op m.state
    dsimp only
    rcases hperform : (Exec.perform g op).apply m.state with ⟨t | move, s⟩ <;> rw [hperform] at hkept harises
    · refine ⟨_, _, rfl, ⟨rfl, rfl, rfl⟩, hkept.trans_le, by simp, fun t' ht => ?_⟩
      cases ht
      exact harises t rfl
    · dsimp only
      rcases htarget : move.target m.state.registers.cursor c.size with e | _ | target
      · refine ⟨_, _, rfl, ⟨rfl, rfl, rfl⟩, hkept.trans_le, by simp, fun t ht => ?_⟩
        cases ht
        exact Move.arises_of_target htarget
      · exact ⟨_, _, rfl, ⟨rfl, rfl, rfl⟩, hkept.trans_le, by simp, by simp⟩
      · have hle := cursor_le_target s target
        refine ⟨_, _, rfl, ⟨rfl, rfl, rfl⟩, fun _ => hle.trans (Code.le_of_target htarget), fun hok => ?_, by simp⟩
        exact hle.trans_lt (of_decide_eq_true (Except.ok.inj hok))

/-- A run leaves the cursor in the program. What breaks it off is the limit, or what an instruction fails with. -/
theorem proceed_within (hprogram : m.program = some c) (hcursor : m.cursor ≤ c.size) {n : Nat}
    {r : Except Trap Unit} (h : proceed g n m = some (m', r)) : m.SameProgram m' ∧ m'.cursor ≤ c.size ∧
      ∀ e, r = .error (.error e) → e.isMisuse = false := by
  induction n generalizing m with
  | zero => cases h
  | succ n ih =>
    simp only [proceed] at h
    cases hlimit : m.limitReached with
    | some limit =>
      simp only [hlimit] at h
      cases h
      refine ⟨.refl _, hcursor, fun e he => ?_⟩
      cases he
      rfl
    | none =>
      obtain ⟨m₁, r₁, hstep, hsameProgram, hcursor₁, -, harises⟩ := step_within g hprogram
      simp only [hlimit, hstep] at h
      rcases r₁ with t | _ | _
      · cases h
        refine ⟨hsameProgram, hcursor₁ hcursor, fun e he => ?_⟩
        cases he
        exact (harises _ rfl).1
      · cases h
        exact ⟨hsameProgram, hcursor₁ hcursor, by simp⟩
      · obtain ⟨hsameProgram', hrest⟩ := ih (hsameProgram.program.trans hprogram) (hcursor₁ hcursor) h
        exact ⟨hsameProgram.trans hsameProgram', hrest⟩

/-- The machine between two calls. -/
structure AtRest (m : Machine) : Prop where
  mode : m.mode = .stopped ∨ m.mode = .debugging
  loaded : m.mode = .debugging → m.program.isSome
  nextNode : m.mode = .stopped → m.nextNode = none
  cursor : m.cursor ≤ m.program.elim 0 Code.size

/-- What a client can ask of a machine. -/
inductive Request
  | load (code : Code)
  | run
  | debug
  | stepOver
  | stop
  | release

inductive Reply
  | done
  /-- Whether there is another instruction to step over. -/
  | stepped (more : Bool)
  | released (code : Option Code)

/-- A call that returns, with the reply to it and the machine afterwards. A fault does not return. -/
inductive Returns (g : Graph) (m : Machine) : Request → Except MachineError Reply → Machine → Prop
  | load {code : Code} {r : Except MachineError Unit} {m' : Machine} (h : m.load code = (m', r.mapError .error)) :
    Returns g m (.load code) (r.map fun _ => .done) m'
  | run {n : Nat} {r : Except MachineError Unit} {m' : Machine} (h : m.run g n = some (m', r.mapError .error)) :
    Returns g m .run (r.map fun _ => .done) m'
  | debug {r : Except MachineError Unit} {m' : Machine} (h : m.debug g = (m', r.mapError .error)) :
    Returns g m .debug (r.map fun _ => .done) m'
  | stepOver {r : Except MachineError Bool} {m' : Machine} (h : m.stepOver g = (m', r.mapError .error)) :
    Returns g m .stepOver (r.map .stepped) m'
  | stop : Returns g m .stop (.ok .done) m.stop
  | release : Returns g m .release (.ok (.released m.release.2)) m.release.1

def Request.keep : Request → Except MachineError Reply → Option Code → Option Code
  | .load code, .ok _, _ => some code
  | .release, .ok _, _ => none
  | _, _, program => program

/-- What clients rely on when they make a call. -/
structure MeetsContract (m : Machine) (q : Request) (r : Except MachineError Reply) (m' : Machine) : Prop where
  atRest : m'.AtRest
  program : m'.program = q.keep r m.program
  released : q = .release → r = .ok (.released m.program)
  below : r = .ok (.stepped true) → ∃ c, m'.program = some c ∧ m'.cursor < c.size
  misuse : ∀ e, r = .error e → e.isMisuse = true → m' = m
  failure : ∀ e, r = .error e → e.isMisuse = false → m'.mode = .stopped

theorem meetsContract_refuse {q : Request} {e : MachineError} (h : m.AtRest) (he : e.isMisuse = true)
    (hq : q ≠ .release) : m.MeetsContract q (.error e) m where
  atRest := h
  program := by cases q <;> rfl
  released hrelease := (hq hrelease).elim
  below hok := by cases hok
  misuse _ _ _ := rfl
  failure e' heq he' := by
    cases heq
    cases he.symm.trans he'

theorem meetsContract_ok {q : Request} {reply : Reply} (hrest : m'.AtRest)
    (hprogram : m'.program = q.keep (.ok reply) m.program) (hq : q ≠ .release)
    (hbelow : reply = .stepped true → ∃ c, m'.program = some c ∧ m'.cursor < c.size) :
    m.MeetsContract q (.ok reply) m' where
  atRest := hrest
  program := hprogram
  released hrelease := (hq hrelease).elim
  below hok := hbelow (Except.ok.inj hok)
  misuse e he := by cases he
  failure e he := by cases he

theorem nextNode_stop (h : m.mode = .stopped → m.nextNode = none) : m.stop.nextNode = none := by
  unfold stop
  split
  next hstopped => exact h (beq_iff_eq.1 hstopped)
  next => rfl

theorem atRest_stop (hnext : m.mode = .stopped → m.nextNode = none) (hcursor : m.cursor ≤ m.program.elim 0 Code.size) :
    m.stop.AtRest := by
  obtain ⟨hprogram, hstate, hmode⟩ := m.stop_eq
  refine ⟨.inl hmode, fun h => ?_, fun _ => nextNode_stop hnext, ?_⟩
  · cases hmode.symm.trans h
  · rw [cursor, hstate, hprogram]
    exact hcursor

theorem meetsContract_stop {q : Request} {r : Except MachineError Reply} {m₁ : Machine} (hmode : m₁.mode ≠ .stopped)
    (hprogram : m₁.program = q.keep r m.program) (hcursor : m₁.cursor ≤ m₁.program.elim 0 Code.size)
    (hq : q ≠ .release) (hr : r ≠ .ok (.stepped true)) (hfailure : ∀ e, r = .error e → e.isMisuse = false) :
    m.MeetsContract q r m₁.stop where
  atRest := atRest_stop (fun hstopped => (hmode hstopped).elim) hcursor
  program := m₁.stop_eq.1.trans hprogram
  released hrelease := (hq hrelease).elim
  below hok := (hr hok).elim
  misuse e he hmisuse := by cases (hfailure e he).symm.trans hmisuse
  failure _ _ _ := m₁.stop_eq.2.2

theorem settle_mapError {α : Type} (m : Machine) (r : Except MachineError α) :
    settle (m, r.mapError .error) = (m.stop, r.mapError .error) := by
  cases r <;> rfl

theorem eq_of_settle {α : Type} {m₁ : Machine} {r₁ : Except Trap α} {r : Except MachineError α}
    (h : settle (m₁, r₁) = (m', r.mapError .error)) : r₁ = r.mapError .error ∧ m' = m₁.stop := by
  have hr : r₁ = r.mapError .error := by
    rcases settle_eq m₁ r₁ with hsame | hstop
    · exact congrArg Prod.snd (hsame.symm.trans h)
    · exact congrArg Prod.snd (hstop.symm.trans h)
  rw [hr, settle_mapError] at h
  exact ⟨hr, (congrArg Prod.fst h).symm⟩

theorem eq_of_refuse {α : Type} {e : MachineError} {r : Except MachineError α}
    (h : m.refuse e = (m', r.mapError .error)) : r = .error e ∧ m' = m := by
  cases r with
  | ok => cases h
  | error e' =>
    cases h
    exact ⟨rfl, rfl⟩

theorem start_cases (m : Machine) (mode : Mode) : (∃ e, e.isMisuse = true ∧ m.start mode = m.refuse e) ∨
    ∃ c, m.program = some c ∧ m.isStopped = true ∧ m.start mode = ({ m.clear with mode }, .ok ()) := by
  cases hprogram : m.program with
  | none => exact .inl ⟨.noProgram, rfl, by rw [start, hprogram]; rfl⟩
  | some c =>
    obtain ⟨-, hbusy⟩ | ⟨hstopped, hstart⟩ := start_eq hprogram mode
    · exact .inl ⟨.busy, rfl, hbusy⟩
    · exact .inr ⟨c, rfl, hstopped, hstart⟩

theorem lookAhead_eq (m : Machine) : m.lookAhead = { m with nextNode := m.lookAhead.nextNode } := by
  unfold lookAhead
  split <;> rfl

theorem meetsContract_lookAhead {m₁ : Machine} {c : Code} (hmode : m₁.mode = .debugging)
    (hprogram : m₁.program = some c) (hkept : m₁.program = m.program) (hbelow : m₁.cursor < c.size) :
    m.MeetsContract .stepOver (.ok (.stepped true)) m₁.lookAhead := by
  rw [m₁.lookAhead_eq]
  refine meetsContract_ok ⟨.inr hmode, fun _ => ?_, fun hstopped => ?_, ?_⟩ hkept (by simp)
    fun _ => ⟨c, hprogram, hbelow⟩
  · exact Option.isSome_of_eq_some hprogram
  · cases hmode.symm.trans hstopped
  · rw [hprogram]
    exact hbelow.le

namespace AtRest

variable (h : m.AtRest)

include h

theorem load {code : Code} {r : Except MachineError Unit} (hload : m.load code = (m', r.mapError .error)) :
    m.MeetsContract (.load code) (r.map fun _ => .done) m' := by
  unfold Machine.load at hload
  split at hload
  next =>
    obtain ⟨rfl, rfl⟩ := eq_of_refuse hload
    exact meetsContract_refuse h rfl (by simp)
  next hstopped =>
    split at hload
    next =>
      obtain ⟨rfl, rfl⟩ := eq_of_refuse hload
      exact meetsContract_refuse h rfl (by simp)
    next =>
      cases r with
      | error e => cases hload
      | ok =>
        cases hload
        rw [Bool.not_eq_true, Bool.not_eq_false', isStopped, beq_iff_eq] at hstopped
        refine meetsContract_ok ⟨.inl hstopped, fun hdebugging => ?_, fun _ => rfl,
          Nat.zero_le _⟩ rfl (by simp) (by simp)
        cases hstopped.symm.trans hdebugging

theorem run {n : Nat} {r : Except MachineError Unit} (hrun : m.run g n = some (m', r.mapError .error)) :
    m.MeetsContract .run (r.map fun _ => .done) m' := by
  unfold Machine.run at hrun
  obtain ⟨e, he, hstart⟩ | ⟨c, hprogram, -, hstart⟩ := m.start_cases .running
  · rw [hstart] at hrun
    obtain ⟨rfl, rfl⟩ := eq_of_refuse (Option.some.inj hrun)
    exact meetsContract_refuse h he (by simp)
  · rw [hstart] at hrun
    obtain ⟨⟨m₁, r₁⟩, hproceed, hsettle⟩ := Option.map_eq_some_iff.1 hrun
    obtain ⟨rfl, rfl⟩ := eq_of_settle hsettle
    obtain ⟨hsameProgram, hcursor, hfailure⟩ :=
      proceed_within (m := { m.clear with mode := .running }) hprogram (Nat.zero_le _) hproceed
    have hkept : m₁.program = m.program := hsameProgram.program
    refine meetsContract_stop (fun hstopped => ?_) ?_ ?_ (by simp) (by cases r <;> simp [Except.map]) fun e he => ?_
    · cases hsameProgram.mode.symm.trans hstopped
    · rw [hkept]
      cases r <;> rfl
    · rw [hkept, hprogram]
      exact hcursor
    · cases r with
      | ok => cases he
      | error e' =>
        cases he
        exact hfailure e rfl

theorem debug {r : Except MachineError Unit} (hdebug : m.debug g = (m', r.mapError .error)) :
    m.MeetsContract .debug (r.map fun _ => .done) m' := by
  unfold Machine.debug at hdebug
  obtain ⟨e, he, hstart⟩ | ⟨c, hprogram, -, hstart⟩ := m.start_cases .debugging
  · rw [hstart] at hdebug
    obtain ⟨rfl, rfl⟩ := eq_of_refuse hdebug
    exact meetsContract_refuse h he (by simp)
  · rw [hstart] at hdebug
    cases r with
    | error e => cases hdebug
    | ok =>
      cases hdebug
      have hsome : m.program.isSome := Option.isSome_of_eq_some hprogram
      refine meetsContract_ok ⟨.inr rfl, fun _ => hsome, fun hstopped => ?_, Nat.zero_le _⟩ rfl (by simp) (by simp)
      cases hstopped

theorem stepOver {r : Except MachineError Bool} (hstep : m.stepOver g = (m', r.mapError .error)) :
    m.MeetsContract .stepOver (r.map .stepped) m' := by
  unfold Machine.stepOver at hstep
  split at hstep
  next =>
    obtain ⟨rfl, rfl⟩ := eq_of_refuse hstep
    exact meetsContract_refuse h rfl (by simp)
  next hnot =>
    have hmode : m.mode = .debugging := by simpa [isDebugging] using hnot
    obtain ⟨c, hprogram⟩ := Option.isSome_iff_exists.1 (h.loaded hmode)
    have hcursor := h.cursor
    rw [hprogram] at hcursor
    obtain ⟨m₁, r₁, hexecuted, hsameProgram, hcursor₁, hbelow, harises⟩ := step_within g hprogram
    have hprogram₁ : m₁.program = some c := hsameProgram.program.trans hprogram
    have hmode₁ : m₁.mode = .debugging := hsameProgram.mode.trans hmode
    have stopped (hsettle : settle (m₁, r₁) = (m', r.mapError .error)) (hr : r ≠ .ok true) :
        m.MeetsContract .stepOver (r.map .stepped) m' := by
      obtain ⟨rfl, rfl⟩ := eq_of_settle hsettle
      refine meetsContract_stop (fun hstopped => ?_) ?_ ?_ (by simp) (fun htrue => ?_) fun e he => ?_
      · cases hmode₁.symm.trans hstopped
      · rw [hsameProgram.program]
        cases r <;> rfl
      · rw [hprogram₁]
        exact hcursor₁ hcursor
      · rcases r with e | _ | _
        · cases htrue
        · cases htrue
        · exact (hr rfl).elim
      · cases r with
        | ok => cases he
        | error e' =>
          cases he
          exact (harises _ rfl).1
    rw [hexecuted] at hstep
    rcases r₁ with t | _ | _
    · refine stopped hstep fun hr => ?_
      rw [hr] at hstep
      cases (eq_of_settle hstep).1
    · refine stopped hstep fun hr => ?_
      rw [hr] at hstep
      cases (eq_of_settle hstep).1
    · cases r with
      | error e => cases hstep
      | ok =>
        cases hstep
        exact meetsContract_lookAhead hmode₁ hprogram₁ hsameProgram.program (hbelow rfl)

theorem stop : m.MeetsContract .stop (.ok .done) m.stop :=
  meetsContract_ok (atRest_stop h.nextNode h.cursor) m.stop_eq.1 (by simp) (by simp)

theorem release : m.MeetsContract .release (.ok (.released m.release.2)) m.release.1 where
  atRest := by
    have hmode : m.release.1.mode = .stopped := m.stop_eq.2.2
    refine ⟨.inl hmode, fun hdebugging => ?_, fun _ => nextNode_stop h.nextNode, Nat.zero_le _⟩
    cases hmode.symm.trans hdebugging
  program := rfl
  released _ := rfl
  below hok := by cases hok
  misuse e he := by cases he
  failure e he := by cases he

theorem meetsContract {q : Request} {r : Except MachineError Reply} (hreturns : m.Returns g q r m') :
    m.MeetsContract q r m' := by
  cases hreturns with
  | load hload => exact h.load hload
  | run hrun => exact h.run hrun
  | debug hdebug => exact h.debug hdebug
  | stepOver hstep => exact h.stepOver hstep
  | stop => exact h.stop
  | release => exact h.release

end AtRest

/-- What a machine has been asked since it was made, and what it replied, latest first. -/
inductive History (g : Graph) : List (Request × Except MachineError Reply) → Machine → Prop
  | fresh (stepLimit : Option Nat) : History g [] { stepLimit }
  | call {log : List (Request × Except MachineError Reply)} {m m' : Machine} {q : Request}
    {r : Except MachineError Reply} : History g log m → m.Returns g q r m' → History g ((q, r) :: log) m'

/-- The program that was loaded last, unless it was released. -/
def loaded : List (Request × Except MachineError Reply) → Option Code
  | [] => none
  | (q, r) :: log => q.keep r (loaded log)

/-- Whatever a machine has been asked, it is at rest, it has the program that it was given, and the next call does
what clients rely on. -/
theorem meetsContract_of_history {log : List (Request × Except MachineError Reply)} (h : History g log m) :
    m.AtRest ∧ m.program = loaded log ∧ ∀ q r m', m.Returns g q r m' → m.MeetsContract q r m' := by
  have hrest : m.AtRest ∧ m.program = loaded log := by
    induction h with
    | fresh => exact ⟨⟨.inl rfl, by simp, fun _ => rfl, Nat.zero_le _⟩, rfl⟩
    | @call log m m' q r _ hreturns ih =>
      have hmeetsContract := ih.1.meetsContract hreturns
      refine ⟨hmeetsContract.atRest, ?_⟩
      rw [hmeetsContract.program, ih.2, loaded]
  exact ⟨hrest.1, hrest.2, fun _ _ _ hreturns => hrest.1.meetsContract hreturns⟩

/-- A code that writes a register, and then leaves the program. -/
def leap : Code := ⟨#[{ op := .mov .rax 5 }, { op := .jmp 9 }]⟩

/-- The machine is stopped where the cursor would leave the program, and keeps the program. -/
theorem meetsContract_leap : ∃ g log m m', History g log m ∧ loaded log = some leap ∧
    m.Returns g .stepOver (.error (.outOfBounds 1 9 2)) m' ∧
    m.MeetsContract .stepOver (.error (.outOfBounds 1 9 2)) m' := by
  let g : Graph := { library := .empty }
  let m := ((({} : Machine).load leap).1.debug g).1
  have hload : History g [(.load leap, .ok .done)] (({} : Machine).load leap).1 :=
    .call (.fresh none) (.load (r := .ok ()) rfl)
  have hfirst : m.Returns g .stepOver (.ok (.stepped true)) (m.stepOver g).1 := .stepOver (r := .ok true) rfl
  have hstep := (hload.call (.debug (r := .ok ()) rfl)).call hfirst
  have hfail : (m.stepOver g).1.Returns g .stepOver (.error (.outOfBounds 1 9 2)) ((m.stepOver g).1.stepOver g).1 :=
    .stepOver (r := .error _) rfl
  exact ⟨g, _, _, _, hstep, rfl, hfail, (meetsContract_of_history hstep).2.2 _ _ _ hfail⟩

end Machine

end FlowGraph
