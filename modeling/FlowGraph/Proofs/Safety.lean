import FlowGraph.Proofs.Execution
import FlowGraph.Proofs.Visibility

/-!
# Safety of compiled code

A machine that runs or steps through the code of a graph is always where a path through the code leads to, with the
variables pushed that are on the stack of that path. So each instruction finds what it refers to, jumps stay inside
the code, and a variable is popped only where it is pushed.
-/

namespace FlowGraph

open FlowGraph.Graph

def Op.NodesExist (g : Graph) : Op → Prop
  | eval x | deref x | pushVar x => g.contains x = true
  | _ => True

structure Graph.ValidCode (g : Graph) (c : Code) : Prop where
  hasLayouts : HasLayouts g
  linksMatch : LinksMatch g
  nodesListed : NodesListed g
  valid : g.validate = .ok []
  size : c.size ≤ Code.limit
  lineKeepsStack (line : Nat) : c.LineKeepsStack line
  nodesExist {line : Nat} {op : Op} : c.op? line = some op → op.NodesExist g

theorem Graph.live_of_declaredOnEntry {g : Graph} {v : NodeId} (hg : WellFormed g) (h : DeclaredOnEntry g v) :
    g.contains v = true := by
  obtain ⟨s, sc, hsc, hv, -⟩ := h
  have hscopeMatches := hg.scopesMatchNodes.scopeMatchesNodes hsc
  obtain ⟨n, hn, -⟩ := hscopeMatches.child v (hscopeMatches.declared v hv).1
  exact contains_iff.2 (by rw [hn]; rfl)

theorem Graph.validCode_of_compile {g : Graph} {c : Code} {insertReturn : Bool} (hr : Reachable g)
    (h : g.compile insertReturn = .ok (.ok c)) : ValidCode g c := by
  have hg := hr.wellFormed
  have hl := hr.hasLayouts
  obtain ⟨p, hp, hc, hsize⟩ := outline_of_compile h
  obtain ⟨hpushesFresh, -⟩ := outline_pushesFresh hg hp
  refine ⟨hl, hg.linksMatch, hg.nodesListed, ?_, hsize, p.lineKeepsStack hc hpushesFresh, ?_⟩
  · simp only [compile, bind_eq_ok] at h
    obtain ⟨errors, hvalid, h⟩ := h
    cases errors with
    | nil => exact hvalid
    | cons => cases h
  · intro line op hop
    obtain ⟨i, rest, rfl, -, hrefers⟩ := p.refersOnStack hg hl hp hc hop
    cases hi : i.op with
    | eval | deref =>
      simp only [Instruction.Refers, hi] at hrefers
      exact hrefers
    | pushVar v =>
      simp only [Instruction.Refers, hi] at hrefers
      exact live_of_declaredOnEntry hg hrefers
    | _ => trivial

def Memory.PushedOnStack (m : Memory) (st : Stack) : Prop :=
  ∀ v, st.count (.var v) = if (m.pushed? v).isSome then 1 else 0

def Op.MovesToSuccessor (op : Op) (move : Move) : Prop :=
  move = .halt ∨ ∃ offset, move = .by offset ∧ ∀ line : Nat, line + offset ∈ op.successors line

variable {g : Graph} {c : Code} {st : Stack} {op : Op} {s s' : State}

theorem Memory.PushedOnStack.keepsPushed (h : s.memory.PushedOnStack st) (hkeeps : s.KeepsPushed s') :
    s'.memory.PushedOnStack st := by
  intro v
  rw [h v, hkeeps.pushed v]

theorem Memory.PushedOnStack.push {m : Memory} {v : NodeId} (h : m.PushedOnStack st) (hfree : .var v ∉ st) :
    (m.push v).PushedOnStack (.var v :: st) := by
  intro w
  rw [pushed?_push]
  by_cases hw : w = v
  · rw [if_pos hw, hw, List.count_cons_self, List.count_eq_zero.2 hfree]
    rfl
  · have hne : StackEntry.var v ≠ .var w := fun he => hw (StackEntry.var.inj he).symm
    rw [if_neg hw, List.count_cons_of_ne hne, h w]

theorem Memory.PushedOnStack.pop {m : Memory} {v : NodeId} (h : m.PushedOnStack (.var v :: st)) :
    (m.pop v).PushedOnStack st := by
  intro w
  have hcount := h w
  rw [pushed?_pop]
  by_cases hw : w = v
  · rw [hw, List.count_cons_self] at hcount
    rw [if_pos hw, hw]
    split at hcount
    next =>
      rw [Option.isSome_none, if_neg Bool.false_ne_true]
      omega
    next => omega
  · have hne : StackEntry.var v ≠ .var w := fun he => hw (StackEntry.var.inj he).symm
    rw [List.count_cons_of_ne hne] at hcount
    rw [if_neg hw, hcount]

theorem returnsOrTraps_perform (hg : ValidCode g c) {line : Nat} (hop : c.op? line = some op) (hfits : op.FitsStack st)
    (hvar : ∀ v, op ≠ .pushVar v ∧ op ≠ .popVar v) :
    Exec.ReturnsOrTraps (PermittedOrEndless g op) op.MovesToSuccessor (Exec.perform g op) := by
  have hnext (h : ∀ line : Nat, op.successors line = [(line : Int) + 1]) : op.MovesToSuccessor (.by 1) :=
    .inr ⟨1, rfl, fun line => by rw [h]; exact List.mem_singleton_self _⟩
  cases op with
  | cmp left right =>
    refine Exec.ReturnsOrTraps.get fun s => ?_
    exact (Exec.ReturnsOrTraps.write (by decide) _).bind fun _ _ => .pure (hnext fun _ => rfl)
  | jmp offset => exact .pure (.inr ⟨offset, rfl, fun line => List.mem_singleton_self _⟩)
  | jne offset =>
    refine Exec.ReturnsOrTraps.get fun s => .pure ?_
    split
    next => exact .inr ⟨1, rfl, fun line => List.mem_cons_self⟩
    next => exact .inr ⟨offset, rfl, fun line => List.mem_cons_of_mem _ (List.mem_singleton_self _)⟩
  | mov target word =>
    cases target with
    | eip => exact (hfits rfl).elim
    | rax | rdx => exact (Exec.ReturnsOrTraps.write (by decide) _).bind fun _ _ => .pure (hnext fun _ => rfl)
  | deref x =>
    have hlive := Option.isSome_iff_exists.1 (contains_iff.1 (hg.nodesExist hop))
    refine (Exec.returnsOrTraps_read hg.hasLayouts hg.linksMatch hlive fun t ht => ht.permitted
      fun _ => .deref).bind fun v _ => ?_
    exact (Exec.ReturnsOrTraps.write (by decide) _).bind fun _ _ => .pure (hnext fun _ => rfl)
  | eval x =>
    refine (Exec.returnsOrTraps_evaluate hg.hasLayouts hg.linksMatch hg.nodesListed hg.valid
      (hg.nodesExist hop)).bind fun _ _ => ?_
    exact .pure (hnext fun _ => rfl)
  | pushVar v => exact ((hvar v).1 rfl).elim
  | popVar v => exact ((hvar v).2 rfl).elim
  | pushFrame | popFrame => exact .pure (hnext fun _ => rfl)
  | ret => exact .pure (.inl rfl)

theorem Memory.pushedOnStack_frame {m : Memory} {t : ScopeId} :
    m.PushedOnStack (.frame t :: st) ↔ m.PushedOnStack st := by
  refine forall_congr' fun v => ?_
  have hne : StackEntry.frame t ≠ .var v := nofun
  rw [List.count_cons_of_ne hne]

theorem Memory.PushedOnStack.act {m : Memory} (h : m.PushedOnStack st) (hfits : op.FitsStack st)
    (hvar : ∀ v, op ≠ .pushVar v ∧ op ≠ .popVar v) : m.PushedOnStack (op.act st) := by
  cases op with
  | pushVar v => exact ((hvar v).1 rfl).elim
  | popVar v => exact ((hvar v).2 rfl).elim
  | pushFrame t => exact pushedOnStack_frame.2 h
  | popFrame t =>
    obtain ⟨rest, rfl⟩ := List.head?_eq_some_iff.1 hfits
    exact pushedOnStack_frame.1 h
  | _ => exact h

/-- An instruction that finds the stack it was written for fails only as it may, and takes the pushed variables where it
takes the stack. -/
theorem perform_cases (hg : ValidCode g c) {line : Nat} (hop : c.op? line = some op) (hfits : op.FitsStack st)
    (hholds : s.memory.PushedOnStack st) : ∃ s', s'.registers.cursor = s.registers.cursor ∧
      ((∃ t, (Exec.perform g op).apply s = (.error t, s') ∧ PermittedOrEndless g op t ∧ s'.memory.PushedOnStack st) ∨
        ∃ move, (Exec.perform g op).apply s = (.ok move, s') ∧ op.MovesToSuccessor move ∧
        s'.memory.PushedOnStack (op.act st)) := by
  by_cases hvar : ∀ v, op ≠ .pushVar v ∧ op ≠ .popVar v
  · have hyields := returnsOrTraps_perform hg hop hfits hvar
    have hkeeps := hyields.keepsPushed s
    cases hperform : (Exec.perform g op).apply s with
    | mk r s' =>
      rw [hperform] at hkeeps
      refine ⟨s', hkeeps.cursor, ?_⟩
      cases r with
      | error t => exact .inl ⟨t, rfl, hyields.trap (congrArg Prod.fst hperform), hholds.keepsPushed hkeeps⟩
      | ok move =>
        exact .inr ⟨move, rfl, hyields.result (congrArg Prod.fst hperform), (hholds.keepsPushed hkeeps).act hfits hvar⟩
  · cases op with
    | pushVar v =>
      have hlive : g.contains v = true := hg.nodesExist hop
      refine ⟨{ s with memory := s.memory.push v }, rfl, .inr ⟨.by 1, ?_, .inr ⟨1, rfl, ?_⟩, hholds.push hfits⟩⟩
      · rw [Exec.perform, hlive]
        rfl
      · exact fun line => List.mem_singleton_self _
    | popVar v =>
      obtain ⟨rest, rfl⟩ := List.head?_eq_some_iff.1 hfits
      have hpushed : (s.memory.pushed? v).isNone = false := by
        have hcount := hholds v
        rw [List.count_cons_self] at hcount
        split at hcount
        next hsome => simpa using hsome
        next => omega
      refine ⟨{ s with memory := s.memory.pop v }, rfl, .inr ⟨.by 1, ?_, .inr ⟨1, rfl, ?_⟩, hholds.pop⟩⟩
      · show (if (s.memory.pushed? v).isNone = true then _ else _ : Exec Move).apply s = _
        rw [hpushed]
        rfl
      · exact fun line => List.mem_singleton_self _
    | _ => exact (hvar (by simp)).elim

def Code.ReachedByWalk (c : Code) (s : State) : Prop := ∃ st, c.Walk s.registers.cursor st ∧ s.memory.PushedOnStack st

theorem Code.reachedByWalk_start (c : Code) : c.ReachedByWalk {} := by
  refine ⟨[], .start, fun v => ?_⟩
  simp [Memory.pushed?]

theorem exists_target (hg : ValidCode g c) {line : Nat} {move : Move} (hwalk : c.Walk line st)
    (hop : c.op? line = some op) (hfits : op.FitsStack st) (hleads : op.MovesToSuccessor move) :
    move = .halt ∨ ∃ target : Nat, move.target line c.size = .ok (some target) ∧ c.Walk target (op.act st) := by
  refine hleads.imp_right ?_
  rintro ⟨offset, rfl, hsuccessor⟩
  have hmem := hsuccessor line
  obtain ⟨target, htarget⟩ : ∃ target : Nat, (target : Int) = line + offset := by
    rcases Op.successors_cases hmem hfits with hnext | ⟨jump, hjump, heq⟩
    · exact ⟨line + 1, by omega⟩
    · obtain ⟨target, htarget, -⟩ := (hg.lineKeepsStack line).target hop hjump
      exact ⟨target, by omega⟩
  rw [← htarget] at hmem
  have hnext := Code.Walk.step hwalk hop hmem
  have hle := hnext.le_size hg.lineKeepsStack
  refine ⟨target, ?_, hnext⟩
  have hrange : 0 ≤ (line : Int) + offset ∧ (line : Int) + offset ≤ c.size := by omega
  simp only [Move.target]
  rw [if_pos hrange, ← htarget, Int.toNat_natCast]

theorem advance_cases (hg : ValidCode g c) (h : c.ReachedByWalk s) :
    (∃ t s', c.advance g s = (.error t, s') ∧ c.ReachedByWalk s' ∧
      ∃ op, c.op? s'.registers.cursor = some op ∧ PermittedOrEndless g op t) ∨
    (∃ s', c.advance g s = (.ok none, s')) ∨
    ∃ target s', c.advance g s = (.ok (some target), s') ∧ c.ReachedByWalk (s'.at target) := by
  obtain ⟨st, hwalk, hholds⟩ := h
  simp only [Code.advance]
  cases hop : c.op? s.registers.cursor with
  | none => exact .inr (.inl ⟨s, rfl⟩)
  | some op =>
    have hfits : op.FitsStack st := hwalk.stack_eq hg.lineKeepsStack ▸ (hg.lineKeepsStack _).fitsStack hop
    obtain ⟨s', hcursor, ⟨t, hperform, ht, hholds⟩ | ⟨move, hperform, hleads, hholds⟩⟩ :=
      perform_cases hg hop hfits hholds
    · refine .inl ⟨t, s', by simp only [hperform], ⟨st, hcursor ▸ hwalk, hholds⟩, op, hcursor ▸ hop, ht⟩
    · refine .inr ?_
      obtain rfl | ⟨target, htarget, hwalk⟩ := exists_target hg hwalk hop hfits hleads
      · exact .inl ⟨s', by simp only [hperform, Move.target]⟩
      · refine .inr ⟨target, s', by simp only [hperform, htarget], op.act st, ?_, hholds⟩
        rwa [State.cursor_at ((hwalk.le_size hg.lineKeepsStack).trans hg.size)]

namespace Machine

variable {m m' : Machine}

def FailsAtOp (g : Graph) (m : Machine) (t : Trap) : Prop := ∃ op, m.nextOp? = some op ∧ PermittedOrEndless g op t

structure SameProgram (m m' : Machine) : Prop where
  program : m'.program = m.program
  mode : m'.mode = m.mode
  stepLimit : m'.stepLimit = m.stepLimit

theorem SameProgram.refl (m : Machine) : m.SameProgram m := ⟨rfl, rfl, rfl⟩

theorem SameProgram.trans {m₁ m₂ m₃ : Machine} (h : m₁.SameProgram m₂) (h' : m₂.SameProgram m₃) : m₁.SameProgram m₃ :=
  ⟨h'.program.trans h.program, h'.mode.trans h.mode, h'.stepLimit.trans h.stepLimit⟩

theorem step_cases (hg : ValidCode g c) (hprogram : m.program = some c) (hreachedByWalk : c.ReachedByWalk m.state) :
    ∃ m' r, m.step g = (m', r) ∧ m.SameProgram m' ∧ ((∃ t, r = .error t ∧ c.ReachedByWalk m'.state ∧ m'.FailsAtOp g t) ∨
      r = .ok false ∨ r = .ok true ∧ c.ReachedByWalk m'.state) := by
  obtain ⟨steps, hstep⟩ := step_eq (g := g) hprogram
  obtain ⟨t, s', hadvance, hreachedByWalk, op, hop, ht⟩ | ⟨s', hadvance⟩ | ⟨target, s', hadvance, hreachedByWalk⟩ :=
    advance_cases hg hreachedByWalk
  · rw [hadvance] at hstep
    refine ⟨_, _, hstep, ⟨rfl, rfl, rfl⟩, .inl ⟨t, rfl, hreachedByWalk, op, ?_, ht⟩⟩
    show m.program.bind (·.op? s'.registers.cursor) = some op
    rw [hprogram]
    exact hop
  · rw [hadvance] at hstep
    exact ⟨_, _, hstep, ⟨rfl, rfl, rfl⟩, .inr (.inl rfl)⟩
  · rw [hadvance] at hstep
    refine ⟨_, _, hstep, ⟨rfl, rfl, rfl⟩, .inr ?_⟩
    by_cases hlt : target < c.size
    · exact .inr ⟨congrArg Except.ok (decide_eq_true hlt), hreachedByWalk⟩
    · exact .inl (congrArg Except.ok (decide_eq_false hlt))

theorem stepLimit_of_limitReached {limit : Nat} (h : m.limitReached = some limit) : m.stepLimit = some limit := by
  unfold limitReached at h
  split at h
  next hlimit =>
    split at h
    next =>
      cases h
      exact hlimit
    next => cases h
  next => cases h

/-- A run goes on from one state that a path leads to to another. What breaks it off is the limit, or an instruction. -/
theorem proceed_cases (hg : ValidCode g c) (hprogram : m.program = some c) (hreachedByWalk : c.ReachedByWalk m.state)
    {n : Nat} {r : Except Trap Unit} (h : proceed g n m = some (m', r)) : m.SameProgram m' ∧ ∀ t, r = .error t →
      (∃ limit, m.stepLimit = some limit ∧ t = .error (.stepLimit limit)) ∨ m'.FailsAtOp g t := by
  induction n generalizing m with
  | zero => cases h
  | succ n ih =>
    simp only [proceed] at h
    cases hlimit : m.limitReached with
    | some limit =>
      have hstepLimit := stepLimit_of_limitReached hlimit
      simp only [hlimit] at h
      cases h
      refine ⟨.refl _, fun t ht => .inl ⟨limit, hstepLimit, ?_⟩⟩
      cases ht
      rfl
    | none =>
      obtain ⟨m₁, r₁, hstep, hsameProgram, ⟨t, rfl, -, hfailsAtOp⟩ | rfl | ⟨rfl, hreachedByWalk⟩⟩ :=
          step_cases hg hprogram hreachedByWalk
      · simp only [hlimit, hstep] at h
        cases h
        refine ⟨hsameProgram, fun t' ht' => .inr ?_⟩
        cases ht'
        exact hfailsAtOp
      · simp only [hlimit, hstep] at h
        cases h
        refine ⟨hsameProgram, fun t ht => ?_⟩
        cases ht
      · simp only [hlimit, hstep] at h
        obtain ⟨hsameProgram', herror⟩ := ih (hsameProgram.program.trans hprogram) hreachedByWalk h
        refine ⟨hsameProgram.trans hsameProgram', fun t ht => ?_⟩
        rw [← hsameProgram.stepLimit]
        exact herror t ht

/-- The machine has been given the code, and whatever it has done since was done over the same graph. -/
inductive Session (g : Graph) (c : Code) : Machine → Prop
  | load {m m' : Machine} : m.load c = (m', .ok ()) → Session g c m'
  | run {m m' : Machine} {n : Nat} {r : Except Trap Unit} : Session g c m → m.run g n = some (m', r) → Session g c m'
  | debug {m : Machine} : Session g c m → Session g c (m.debug g).1
  | stepOver {m : Machine} : Session g c m → Session g c (m.stepOver g).1
  | stop {m : Machine} : Session g c m → Session g c m.stop

structure HasProgram (c : Code) (m : Machine) : Prop where
  program : m.program = some c
  reachedByWalk : m.mode = .debugging → c.ReachedByWalk m.state

theorem stop_eq (m : Machine) : m.stop.program = m.program ∧ m.stop.state = m.state ∧ m.stop.mode = .stopped := by
  unfold stop
  split
  next h => exact ⟨rfl, rfl, beq_iff_eq.1 h⟩
  next => exact ⟨rfl, rfl, rfl⟩

theorem hasProgram_stop (h : m.program = some c) : m.stop.HasProgram c := by
  obtain ⟨hprogram, -, hmode⟩ := m.stop_eq
  refine ⟨hprogram.trans h, fun hdebugging => ?_⟩
  cases hmode.symm.trans hdebugging

theorem FailsAtOp.stop {t : Trap} (h : m.FailsAtOp g t) : m.stop.FailsAtOp g t := by
  obtain ⟨hprogram, hstate, -⟩ := m.stop_eq
  obtain ⟨op, hop, ht⟩ := h
  refine ⟨op, ?_, ht⟩
  rw [nextOp?, cursor, hprogram, hstate]
  exact hop

theorem settle_eq {α : Type} (m : Machine) (r : Except Trap α) :
    settle (m, r) = (m, r) ∨ settle (m, r) = (m.stop, r) := by
  match r with
  | .ok a => exact .inr rfl
  | .error (.error e) => exact .inr rfl
  | .error (.fault f) => exact .inl rfl

theorem start_eq (hprogram : m.program = some c) (mode : Mode) :
    m.isStopped = false ∧ m.start mode = m.refuse .busy ∨
      m.isStopped = true ∧ m.start mode = ({ m.clear with mode }, .ok ()) := by
  rw [start, hprogram, Option.isNone_some, if_neg Bool.false_ne_true]
  cases m.isStopped with
  | false => exact .inl ⟨rfl, rfl⟩
  | true => exact .inr ⟨rfl, rfl⟩

theorem HasProgram.run (hg : ValidCode g c) (h : m.HasProgram c) {n : Nat} {r : Except Trap Unit}
    (hrun : m.run g n = some (m', r)) : m'.HasProgram c ∧ (m.isStopped = true → ∀ t, r = .error t →
      (∃ limit, m.stepLimit = some limit ∧ t = .error (.stepLimit limit)) ∨ m'.FailsAtOp g t) := by
  unfold Machine.run at hrun
  obtain ⟨hbusy, hstart⟩ | ⟨-, hstart⟩ := start_eq h.program .running
  · rw [hstart] at hrun
    cases hrun
    refine ⟨h, fun hstopped => ?_⟩
    cases hbusy.symm.trans hstopped
  · rw [hstart] at hrun
    obtain ⟨⟨m₁, r₁⟩, hproceed, hsettle⟩ := Option.map_eq_some_iff.1 hrun
    obtain ⟨hsameProgram, herror⟩ :=
        proceed_cases (m := { m.clear with mode := .running }) hg h.program c.reachedByWalk_start
      hproceed
    have hprogram : m₁.program = some c := hsameProgram.program.trans h.program
    have hhasProgram : m₁.HasProgram c := by
      refine ⟨hprogram, fun hdebugging => ?_⟩
      cases hsameProgram.mode.symm.trans hdebugging
    rcases settle_eq m₁ r₁ with hsame | hstop
    · cases hsame.symm.trans hsettle
      exact ⟨hhasProgram, fun _ => herror⟩
    · cases hstop.symm.trans hsettle
      exact ⟨hasProgram_stop hprogram, fun _ t ht => (herror t ht).imp_right FailsAtOp.stop⟩

theorem HasProgram.debug (h : m.HasProgram c) (g : Graph) : (m.debug g).1.HasProgram c := by
  unfold Machine.debug
  obtain ⟨-, hstart⟩ | ⟨-, hstart⟩ := start_eq h.program .debugging
  · rw [hstart]
    exact h
  · rw [hstart]
    exact ⟨h.program, fun _ => c.reachedByWalk_start⟩

theorem HasProgram.stepOver (hg : ValidCode g c) (h : m.HasProgram c) : (m.stepOver g).1.HasProgram c ∧
    (m.isDebugging = true → ∀ t, (m.stepOver g).2 = .error t → (m.stepOver g).1.FailsAtOp g t) := by
  unfold Machine.stepOver
  split
  next hnot =>
    refine ⟨h, fun hdebugging => ?_⟩
    rw [hdebugging] at hnot
    cases hnot
  next hdebugging =>
    have hmode : m.mode = .debugging := by simpa [isDebugging] using hdebugging
    obtain ⟨m₁, r, hstep, hsameProgram, hcases⟩ := step_cases hg h.program (h.reachedByWalk hmode)
    have hprogram : m₁.program = some c := hsameProgram.program.trans h.program
    rw [hstep]
    obtain ⟨t, rfl, hfit, hfailsAtOp⟩ | rfl | ⟨rfl, hfit⟩ := hcases
    · rcases settle_eq m₁ (.error t : Except Trap Bool) with hsame | hstop
      · dsimp only
        rw [hsame]
        refine ⟨⟨hprogram, fun _ => hfit⟩, fun _ t' ht' => ?_⟩
        cases ht'
        exact hfailsAtOp
      · dsimp only
        rw [hstop]
        refine ⟨hasProgram_stop hprogram, fun _ t' ht' => ?_⟩
        cases ht'
        exact hfailsAtOp.stop
    · exact ⟨hasProgram_stop hprogram, nofun⟩
    · have hlook : m₁.lookAhead.program = some c ∧ m₁.lookAhead.state = m₁.state := by
        unfold lookAhead
        split
        next => exact ⟨hprogram, rfl⟩
        next => exact ⟨hprogram, rfl⟩
      exact ⟨⟨hlook.1, fun _ => hlook.2 ▸ hfit⟩, nofun⟩

theorem Session.hasProgram (hg : ValidCode g c) (h : Session g c m) : m.HasProgram c := by
  induction h with
  | @load m m' hload =>
    unfold Machine.load at hload
    split at hload
    next => cases hload
    next hstopped =>
      split at hload
      next => cases hload
      next =>
        cases hload
        refine ⟨rfl, fun hdebugging => ?_⟩
        have hmode : m.mode = .stopped := by simpa [isStopped] using hstopped
        cases hmode.symm.trans hdebugging
  | run _ hrun ih => exact (ih.run hg hrun).1
  | debug _ ih => exact ih.debug g
  | stepOver _ ih => exact (ih.stepOver hg).1
  | stop _ ih => exact hasProgram_stop ih.program

end Machine

namespace Graph

/-- Over its own graph compiled code fails nowhere but at the step limit, and at an instruction that reads or calls. -/
theorem traps_of_compile {m : Machine} {insertReturn : Bool} (hr : Reachable g)
    (hcompile : g.compile insertReturn = .ok (.ok c)) (hsession : Machine.Session g c m) :
    (∀ n m' t, m.isStopped = true → m.run g n = some (m', .error t) →
      (∃ limit, m.stepLimit = some limit ∧ t = .error (.stepLimit limit)) ∨ m'.FailsAtOp g t) ∧
    ∀ m' t, m.isDebugging = true → m.stepOver g = (m', .error t) → m'.FailsAtOp g t := by
  have hg := validCode_of_compile hr hcompile
  have hhasProgram := hsession.hasProgram hg
  refine ⟨fun n m' t hstopped hrun => ?_, fun m' t hdebugging hstep => ?_⟩
  · exact (hhasProgram.run hg hrun).2 hstopped t rfl
  · have hfailsAtOp := (hhasProgram.stepOver hg).2 hdebugging t
    rw [hstep] at hfailsAtOp
    exact hfailsAtOp rfl

end Graph

end FlowGraph
