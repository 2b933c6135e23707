import FlowGraph.Proofs.Emission
import FlowGraph.Proofs.Stepping

/-!
# Code follows its plan

Code that is placed at a line does from there what its plan does, and leaves at a line that depends on what
comes out. Both directions are kept together: an outcome of the plan is where the code gets to, and code that
ends has gone through an outcome. The second is counted in instructions, since that is what a loop of the code
gets smaller in.
-/

namespace FlowGraph

open Course

/-- The code has these instructions from a line on. -/
def Code.ContainsAt (c : Code) (line : Nat) (is : List Instruction) : Prop :=
  ∃ before after, c = .ofList (before ++ is ++ after) ∧ before.length = line

namespace Code.ContainsAt

variable {c : Code} {line : Nat} {l l' : List Instruction} {i : Instruction}

theorem left (h : c.ContainsAt line (l ++ l')) : c.ContainsAt line l := by
  obtain ⟨before, after, rfl, hline⟩ := h
  exact ⟨before, l' ++ after, by simp only [List.append_assoc], hline⟩

theorem right (h : c.ContainsAt line (l ++ l')) : c.ContainsAt (line + l.length) l' := by
  obtain ⟨before, after, rfl, hline⟩ := h
  exact ⟨before ++ l, after, by simp only [List.append_assoc], by rw [List.length_append, hline]⟩

theorem op? (h : c.ContainsAt line (i :: l)) : c.op? line = some i.op := by
  obtain ⟨before, after, rfl, rfl⟩ := h
  simp [op?_ofList]

theorem tail (h : c.ContainsAt line (i :: l)) : c.ContainsAt (line + 1) l := right (l := [i]) h

theorem le_size (h : c.ContainsAt line l) : line + l.length ≤ c.size := by
  obtain ⟨before, after, rfl, rfl⟩ := h
  simp only [size_ofList, List.length_append]
  omega

end Code.ContainsAt

namespace Course

variable {α β : Type}

theorem outcome_bind (x : Course α) (f : α → Course β) (s : State) :
    (x >>= f).outcome s = (x.outcome s).bind fun
      | (.ok a, s') => (f a).outcome s'
      | (.error t, s') => some (.error t, s') := by
  unfold outcome
  rw [ExceptT.run_bind, StateT.run_bind]
  show Option.bind (StateT.run (ExceptT.run x) s) _ = _
  congr 1
  funext r
  rcases r with ⟨t | a, s'⟩ <;> rfl

theorem outcome_ofExec (e : Exec α) (s : State) : (ofExec e).outcome s = some (e.apply s) := rfl

end Course

variable {α β : Type} (g : Graph) (c : Code)

def FinishesFrom (exit : α → Nat) (r : Except Trap α × State) (n : Nat) (y : Except Trap Unit × State) : Prop :=
  match r with
  | (.ok a, s) => c.finish g n (s.at (exit a)) = some y
  | (.error t, s) => y = (.error t, s.rewind)

structure FollowsCourse (line : Nat) (exit : α → Nat) (x : Nat → Course α) : Prop where
  of_course : ∀ {rounds s r n y}, (x rounds).outcome s = some r → FinishesFrom g c exit r n y →
    ∃ n', c.finish g n' (s.at line) = some y
  of_code : ∀ {n s y}, c.finish g n (s.at line) = some y → ∀ rounds ≥ n,
    ∃ r n', n' ≤ n ∧ (x rounds).outcome s = some r ∧ FinishesFrom g c exit r n' y

namespace FollowsCourse

variable {g c} {line : Nat}

theorem pure {exit : α → Nat} (a : α) (h : exit a = line) :
    FollowsCourse g c line exit fun _ => (Pure.pure a : Course α) where
  of_course := by
    intro rounds s r n y hr hy
    cases hr
    exact ⟨n, by rw [← h]; exact hy⟩
  of_code := by
    intro n s y hy rounds _
    refine ⟨_, n, Nat.le_refl n, rfl, ?_⟩
    rw [FinishesFrom, h]
    exact hy

theorem bind {middle : α → Nat} {exit : β → Nat} {x : Nat → Course α} {f : Nat → α → Course β}
    (hx : FollowsCourse g c line middle x) (hf : ∀ a, FollowsCourse g c (middle a) exit fun rounds => f rounds a) :
    FollowsCourse g c line exit fun rounds => x rounds >>= f rounds where
  of_course := by
    intro rounds s r n y hr hy
    rw [outcome_bind, Option.bind_eq_some_iff] at hr
    obtain ⟨⟨t | a, s'⟩, hs', hr⟩ := hr
    · cases hr
      exact hx.of_course (n := n) hs' hy
    · obtain ⟨n', hn'⟩ := (hf a).of_course hr hy
      exact hx.of_course hs' hn'
  of_code := by
    intro n s y hy rounds hrounds
    obtain ⟨⟨t | a, s'⟩, n', hn', hs', hy'⟩ := hx.of_code hy rounds hrounds
    · refine ⟨(.error t, s'), n', hn', ?_, hy'⟩
      rw [outcome_bind, hs']
      rfl
    · obtain ⟨r, n'', hn'', hr, hy''⟩ := (hf a).of_code hy' rounds (Nat.le_trans hn' hrounds)
      refine ⟨r, n'', Nat.le_trans hn'' hn', ?_, hy''⟩
      rw [outcome_bind, hs']
      exact hr

end FollowsCourse

section Straight

variable {g c} {line : Nat} {op : Op} {e : Exec α} {offset : α → Int} {exit : α → Nat}
variable (hsize : c.size ≤ Code.limit)
variable (hop : c.op? line = some op) (hperform : Exec.perform g op = (do let a ← e; return .by (offset a)))
variable (hignoresCursor : e.IgnoresCursor) (hexit : ∀ a, (exit a : Int) = line + offset a)
  (hroom : ∀ a, exit a ≤ c.size)

include hsize hop hperform hignoresCursor hexit hroom

theorem finish_op (n : Nat) (s : State) :
    c.finish g (n + 1) (s.at line) = match e.apply s with
      | (.ok a, s') => c.finish g n (s'.at (exit a))
      | (.error t, s') => some (.error t, s'.rewind) := by
  have hline : line ≤ Code.limit := by
    have := Code.lt_size hop
    omega
  have happly := hignoresCursor s line
  simp only [Code.finish, Code.advance, State.cursor_at hline, hop, hperform, Exec.apply_bind, happly]
  rcases e.apply s with ⟨t | a, s'⟩
  · rfl
  · have htarget : (Move.by (offset a)).target line c.size = .ok (some (exit a)) := by
      have := hexit a
      have := hroom a
      rw [Move.target, if_pos (by omega), ← hexit a, Int.toNat_natCast]
    have hpure : (Pure.pure (Move.by (offset a)) : Exec Move).apply (s'.at line) =
        (.ok (.by (offset a)), s'.at line) := rfl
    simp only [hpure, htarget, State.at_at]

theorem FollowsCourse.exec : FollowsCourse g c line exit fun _ => ofExec e where
  of_course := by
    intro rounds s r n y hr hy
    rw [outcome_ofExec, Option.some.injEq] at hr
    refine ⟨n + 1, ?_⟩
    rw [finish_op hsize hop hperform hignoresCursor hexit hroom, hr]
    rcases r with ⟨t | a, s'⟩
    · exact congrArg some (Eq.symm hy)
    · exact hy
  of_code := by
    intro n s y hy rounds _
    cases n with
    | zero => cases hy
    | succ n =>
      rw [finish_op hsize hop hperform hignoresCursor hexit hroom] at hy
      refine ⟨e.apply s, n, by omega, outcome_ofExec e s, ?_⟩
      generalize e.apply s = r at hy
      rcases r with ⟨t | a, s'⟩
      · exact (Option.some.inj hy).symm
      · exact hy

end Straight

namespace FollowsCourse

variable {g c} {line : Nat}

section Loop

variable {body back exit : Nat} {test : Nat → Course Bool} {run : Nat → Course Unit}
variable (htest : FollowsCourse g c line (fun holds => if holds then body else exit) test)
variable (hrun : FollowsCourse g c body (fun _ => back) run)
variable (hback : ∀ n (s : State), c.finish g (n + 1) (s.at back) = c.finish g n (s.at line))

include htest hrun hback

theorem finish_of_repeatWhile {rounds count n : Nat} {s : State} {r : Except Trap Unit × State}
    {y : Except Trap Unit × State}
    (hr : (Course.repeatWhile (test rounds) (run rounds) count).outcome s = some r)
    (hy : FinishesFrom g c (fun _ => exit) r n y) : ∃ n', c.finish g n' (s.at line) = some y := by
  induction count generalizing s with
  | zero => cases hr
  | succ count ih =>
    rw [Course.repeatWhile, outcome_bind, Option.bind_eq_some_iff] at hr
    obtain ⟨⟨t | holds, s₁⟩, h₁, hr⟩ := hr
    · cases hr
      exact htest.of_course (n := n) h₁ hy
    cases holds with
    | false =>
      cases hr
      exact htest.of_course h₁ hy
    | true =>
      simp only [if_true, outcome_bind, Option.bind_eq_some_iff] at hr
      obtain ⟨⟨t | _, s₂⟩, h₂, hr⟩ := hr
      · cases hr
        obtain ⟨n', hn'⟩ := hrun.of_course (n := n) h₂ hy
        exact htest.of_course h₁ hn'
      · obtain ⟨n', hn'⟩ := ih hr
        rw [← hback] at hn'
        obtain ⟨n', hn'⟩ := hrun.of_course h₂ hn'
        exact htest.of_course h₁ hn'

theorem repeatWhile_of_finish {rounds count n : Nat} {s : State} {y : Except Trap Unit × State}
    (hy : c.finish g n (s.at line) = some y) (hrounds : n ≤ rounds) (hcount : n ≤ count) :
    ∃ r n', n' ≤ n ∧ (Course.repeatWhile (test rounds) (run rounds) count).outcome s = some r ∧
      FinishesFrom g c (fun _ => exit) r n' y := by
  -- the jump back takes an instruction, so what is left after a round is less than what was there
  induction n using Nat.strongRecOn generalizing s count with
  | ind n ih =>
    match n, count with
    | 0, _ => cases hy
    | n + 1, count + 1 =>
      rw [Course.repeatWhile, outcome_bind]
      obtain ⟨⟨t | holds, s₁⟩, n₁, hn₁, h₁, hy₁⟩ := htest.of_code hy rounds hrounds
      · exact ⟨(.error t, s₁), n₁, hn₁, by rw [h₁]; rfl, hy₁⟩
      cases holds with
      | false => exact ⟨(.ok (), s₁), n₁, hn₁, by rw [h₁]; rfl, hy₁⟩
      | true =>
        simp only [h₁, Option.bind_some, if_true, outcome_bind]
        obtain ⟨⟨t | _, s₂⟩, n₂, hn₂, h₂, hy₂⟩ := hrun.of_code hy₁ rounds (by omega)
        · exact ⟨(.error t, s₂), n₂, by omega, by rw [h₂]; rfl, hy₂⟩
        match n₂, hn₂, hy₂ with
        | 0, _, hy₂ => cases hy₂
        | n₂ + 1, hn₂, hy₂ =>
          have hy₂ : c.finish g n₂ (s₂.at line) = some y := by
            rw [← hback]
            exact hy₂
          have hleft : n₂ ≤ count := by omega
          obtain ⟨r, n₃, hn₃, hr, hy₃⟩ := ih n₂ (by omega) hy₂ (by omega) hleft
          exact ⟨r, n₃, by omega, by rw [h₂]; exact hr, hy₃⟩

theorem repeatWhile :
    FollowsCourse g c line (fun _ => exit) fun rounds => Course.repeatWhile (test rounds) (run rounds) rounds where
  of_course := finish_of_repeatWhile htest hrun hback
  of_code hy _ hrounds := repeatWhile_of_finish htest hrun hback hy hrounds hrounds

end Loop

end FollowsCourse

theorem Word.asBool_ofBool (b : Bool) : Word.asBool (Word.ofBool b) = b := by
  cases b <;> decide

section Instructions

variable {g c} {line : Nat} (hsize : c.size ≤ Code.limit)

include hsize

theorem followsCourse_plain {op : Op} {comment : Option String} {e : Exec Unit}
    (h : c.ContainsAt line [⟨op, comment⟩]) (hperform : Exec.perform g op = (do e; return .by 1))
    (hignoresCursor : e.IgnoresCursor) : FollowsCourse g c line (fun _ => line + 1) fun _ => ofExec e :=
  FollowsCourse.exec hsize h.op? hperform hignoresCursor (fun _ => by omega) fun _ => h.le_size

theorem followsCourse_mark {op : Op} {comment : Option String} (h : c.ContainsAt line [⟨op, comment⟩])
    (hperform : Exec.perform g op = return .by 1) :
    FollowsCourse g c line (fun _ => line + 1) fun _ => (pure () : Course Unit) :=
  followsCourse_plain hsize h (e := pure ()) (by rw [hperform, pure_bind]) (Exec.IgnoresCursor.pure ())

theorem finish_jump {offset : Int} {comment : Option String}
    (h : c.ContainsAt line [⟨.jmp offset, comment⟩]) (exit : Nat) (hexit : (exit : Int) = line + offset)
    (hroom : exit ≤ c.size) (n : Nat) (s : State) :
    c.finish g (n + 1) (s.at line) = c.finish g n (s.at exit) := by
  have hperform : Exec.perform g (.jmp offset) =
      ((pure () : Exec Unit) >>= fun _ => (pure (.by offset) : Exec Move)) := rfl
  rw [finish_op hsize h.op? hperform (Exec.IgnoresCursor.pure ()) (fun _ => hexit) fun _ => hroom]
  rfl

theorem followsCourse_jump {offset : Int} {comment : Option String}
    (h : c.ContainsAt line [⟨.jmp offset, comment⟩]) (exit : Nat) (hexit : (exit : Int) = line + offset)
    (hroom : exit ≤ c.size) : FollowsCourse g c line (fun _ => exit) fun _ => (pure () : Course Unit) :=
  have hperform : Exec.perform g (.jmp offset) =
      ((pure () : Exec Unit) >>= fun _ => (pure (.by offset) : Exec Move)) := rfl
  FollowsCourse.exec hsize h.op? hperform (Exec.IgnoresCursor.pure ()) (fun _ => hexit) fun _ => hroom

theorem followsCourse_pushVar {v : Declaration} (h : c.ContainsAt line [⟨.pushVar v.node, some v.name⟩]) :
    FollowsCourse g c line (fun _ => line + 1) fun _ => Plan.push g v.node := by
  cases hlive : g.contains v.node with
  | true =>
    have hpush : Plan.push g v.node = ofExec (Exec.modifyMemory (·.push v.node)) := by
      rw [Plan.push, if_pos hlive]
      rfl
    rw [hpush]
    refine followsCourse_plain hsize h ?_ (Exec.IgnoresCursor.modifyMemory _)
    simp [Exec.perform, hlive]
  | false =>
    have hpush : Plan.push g v.node = ofExec (Exec.fail (.unknownNode v.node)) := by
      rw [Plan.push, if_neg (by simp [hlive])]
      rfl
    rw [hpush]
    refine followsCourse_plain hsize h ?_ (Exec.IgnoresCursor.fail _)
    simp only [Exec.perform, hlive]
    rfl

theorem followsCourse_popVar {v : Declaration} (h : c.ContainsAt line [⟨.popVar v.node, some v.name⟩]) :
    FollowsCourse g c line (fun _ => line + 1) fun _ => Course.pop v.node := by
  refine followsCourse_plain hsize h ?_ ?_
  · rw [Exec.perform, bind_assoc]
    congr 1
    funext s
    split <;> simp only [bind_assoc]
  · apply Exec.IgnoresCursor.get
    · intro s
      split
      · exact (Exec.IgnoresCursor.fail _).bind fun _ => Exec.IgnoresCursor.modifyMemory _
      · exact Exec.IgnoresCursor.modifyMemory _
    · intro s line
      rfl

theorem followsCourse_pushVars {ds : List Declaration} (h : c.ContainsAt line (pushVars ds)) :
    FollowsCourse g c line (fun _ => line + ds.length) fun _ => Plan.pushAll g ds := by
  induction ds generalizing line with
  | nil => exact FollowsCourse.pure () rfl
  | cons d ds ih =>
    have htail : FollowsCourse g c (line + 1) (fun _ => line + (d :: ds).length) fun _ => Plan.pushAll g ds := by
      have := ih h.tail
      rwa [Nat.add_assoc, Nat.add_comm 1] at this
    exact (followsCourse_pushVar hsize (h.left (l := [_]))).bind fun _ => htail

theorem followsCourse_popVars {ds : List Declaration} (h : c.ContainsAt line (popVars ds)) :
    FollowsCourse g c line (fun _ => line + ds.length) fun _ => Plan.popAll ds := by
  rw [Plan.popAll, ← List.length_reverse]
  rw [popVars] at h
  generalize ds.reverse = ds at h
  induction ds generalizing line with
  | nil => exact FollowsCourse.pure () rfl
  | cons d ds ih =>
    have htail : FollowsCourse g c (line + 1) (fun _ => line + (d :: ds).length)
        fun _ => ds.forM fun v => pop v.node := by
      have := ih h.tail
      rwa [Nat.add_assoc, Nat.add_comm 1] at this
    exact (followsCourse_popVar hsize (h.left (l := [_]))).bind fun _ => htail

theorem followsCourse_decision {name : String} {length : Nat} (h : c.ContainsAt line (Plan.passUnless name length))
    (hroom : line + 3 + length ≤ c.size) :
    FollowsCourse g c line (fun holds => if holds then line + 3 else line + 3 + length) fun _ => decision := by
  have hdecision : decision = (do
      ofExec (Exec.write .rdx (Word.ofBool true))
      ofExec (do
        let r := (← get).registers
        Exec.write .rax (Word.ofBool (Word.asBool r.rax == Word.asBool r.rdx)))
      ofExec (do return Word.asBool (← get).registers.rax)) := by
    funext s
    let left (holds : Bool) : State :=
      { s with registers := { s.registers with rax := Word.ofBool holds, rdx := Word.ofBool true } }
    let seen := Word.asBool s.registers.rax
    let compared := seen == Word.asBool (Word.ofBool true)
    have hcompared : compared = seen := by
      show (seen == Word.asBool (Word.ofBool true)) = seen
      rw [Word.asBool_ofBool, beq_true]
    show some (Except.ok seen, left seen) =
      some (Except.ok (Word.asBool (Word.ofBool compared)), left compared)
    rw [Word.asBool_ofBool, hcompared]
  have hmov : FollowsCourse g c line (fun _ => line + 1) fun _ => ofExec (Exec.write .rdx (Word.ofBool true)) :=
    followsCourse_plain hsize (h.left (l := [_])) rfl (Exec.IgnoresCursor.write (by decide) _)
  have hcmp : FollowsCourse g c (line + 1) (fun _ => line + 2) fun _ => ofExec (do
      let r := (← get).registers
      Exec.write .rax (Word.ofBool (Word.asBool r.rax == Word.asBool r.rdx))) :=
    followsCourse_plain hsize (h.tail.left (l := [_])) rfl
      (Exec.IgnoresCursor.get (fun _ => Exec.IgnoresCursor.write (by decide) _) fun _ _ => rfl)
  have hjne : FollowsCourse g c (line + 2) (fun holds => if holds then line + 3 else line + 3 + length) fun _ =>
      ofExec (do return Word.asBool (← get).registers.rax) := by
    have hperform : Exec.perform g (.jne (length + 1)) =
        ((do return Word.asBool (← get).registers.rax : Exec Bool) >>= fun holds =>
          (pure (.by (if holds then 1 else length + 1)) : Exec Move)) := by
      rw [Exec.perform, bind_assoc]
      congr 1
      funext s
      rw [pure_bind]
      split <;> rfl
    refine FollowsCourse.exec hsize h.tail.tail.op? hperform
      (Exec.IgnoresCursor.get (fun _ => Exec.IgnoresCursor.pure _) fun _ _ => rfl) ?_ ?_
    · intro holds
      cases holds <;> simp <;> omega
    · intro holds
      cases holds <;> simp <;> omega
  rw [hdecision]
  exact hmov.bind fun _ => hcmp.bind fun _ => hjne

end Instructions

section Lengths

@[simp]
theorem length_pushVars (ds : List Declaration) : (pushVars ds).length = ds.length := by
  rw [pushVars, List.length_map]

@[simp]
theorem length_popVars (ds : List Declaration) : (popVars ds).length = ds.length := by
  rw [popVars, List.length_map, List.length_reverse]

@[simp]
theorem Frame.length_opening (f : Frame) : f.opening.length = 1 + f.declarations.length := by
  rw [opening, List.length_cons, length_pushVars, Nat.add_comm]

@[simp]
theorem Frame.length_closing (f : Frame) : f.closing.length = f.declarations.length + 1 := by
  rw [closing, List.length_append, length_popVars, List.length_singleton]

@[simp]
theorem Plan.length_passUnless (name : String) (length : Nat) : (passUnless name length).length = 3 := rfl

end Lengths

namespace Plan

def RunsPlan (g : Graph) (c : Code) (p : Plan) : Prop :=
  ∀ line, c.ContainsAt line p.code → FollowsCourse g c line (fun _ => line + p.code.length) fun rounds => p.run g rounds

section

variable {g : Graph} {c : Code} (hsize : c.size ≤ Code.limit) {name : String}
  {start test body step onTrue onFalse : Plan}

theorem RunsPlan.seq {first second : Plan} (hfirst : first.RunsPlan g c) (hsecond : second.RunsPlan g c) :
    (seq first second).RunsPlan g c := by
  intro line h
  have hthen := hsecond _ h.right
  rw [Nat.add_assoc, ← List.length_append] at hthen
  exact (hfirst _ h.left).bind fun _ => hthen

include hsize

theorem RunsPlan.frame {f : Frame} (hbody : body.RunsPlan g c) : (frame f body).RunsPlan g c := by
  intro line h
  have hopening : c.ContainsAt line f.opening := h.left.left
  have hclosing : c.ContainsAt (line + (f.opening ++ body.code).length) f.closing := h.right
  have hrun := hbody _ h.left.right
  have hpush := followsCourse_pushVars (g := g) hsize hopening.tail
  have hpop := followsCourse_popVars (g := g) hsize hclosing.left
  have hopen := followsCourse_mark (g := g) hsize (hopening.left (l := [_])) rfl
  have hclose := followsCourse_mark (g := g) hsize hclosing.right rfl
  simp only [code, List.length_append, Frame.length_opening, Frame.length_closing, length_popVars,
    ← Nat.add_assoc] at hrun hpop hclose ⊢
  have hall := hopen.bind fun _ => hpush.bind fun _ => hrun.bind fun _ => hpop.bind fun _ => hclose
  simpa only [pure_bind, bind_pure_unit, Plan.run] using hall

theorem RunsPlan.loop {locals : List Declaration} (hstart : start.RunsPlan g c) (htest : test.RunsPlan g c)
    (hbody : body.RunsPlan g c) (hstep : step.RunsPlan g c) :
    (loop name locals start test body step).RunsPlan g c := by
  intro line h
  rw [code] at h
  have hhead := h.left.left
  have htested := hhead.right
  have hpush := followsCourse_pushVars (g := g) hsize hhead.left.left
  have hstart := hstart _ hhead.left.right
  have htest := htest _ htested.left.left
  have hdecision := followsCourse_decision (g := g) hsize htested.left.right (by
    have := h.left.le_size
    simp only [List.length_append, length_pushVars, length_passUnless, List.length_singleton] at this ⊢
    omega)
  have hbody := hbody _ htested.right.left
  have hstep := hstep _ htested.right.right
  have hback := finish_jump (g := g) hsize h.left.right (line + (pushVars locals ++ start.code).length)
    (by
      simp only [List.length_append]
      omega)
    (by
      have := hhead.le_size
      simp only [List.length_append] at this ⊢
      omega)
  have hpop := followsCourse_popVars (g := g) hsize h.right
  simp only [code, List.length_append, length_pushVars, length_popVars, length_passUnless,
    List.length_singleton, ← Nat.add_assoc] at *
  have hround := hbody.bind fun _ => hstep
  have htested := htest.bind fun _ => hdecision
  have hloop := FollowsCourse.repeatWhile htested hround hback
  exact hpush.bind fun _ => hstart.bind fun _ => hloop.bind fun _ => hpop

theorem RunsPlan.choice (htest : test.RunsPlan g c) (htrue : onTrue.RunsPlan g c) :
    (choice name test onTrue).RunsPlan g c := by
  intro line h
  rw [code] at h
  have htest := htest _ h.left.left
  have hdecision := followsCourse_decision (g := g) hsize h.left.right (by
    have := h.le_size
    simp only [List.length_append, length_passUnless] at this ⊢
    omega)
  have htrue := htrue _ h.right
  simp only [code, List.length_append, length_passUnless, ← Nat.add_assoc] at *
  refine htest.bind fun _ => hdecision.bind fun holds => ?_
  cases holds with
  | false => exact FollowsCourse.pure () rfl
  | true => exact htrue

theorem RunsPlan.choiceElse (htest : test.RunsPlan g c) (htrue : onTrue.RunsPlan g c)
    (hfalse : onFalse.RunsPlan g c) : (choiceElse name test onTrue onFalse).RunsPlan g c := by
  intro line h
  rw [code] at h
  have htest := htest _ h.left.left.left.left
  have hdecision := followsCourse_decision (g := g) hsize h.left.left.left.right (by
    have := h.left.le_size
    simp only [List.length_append, length_passUnless, List.length_singleton] at this ⊢
    omega)
  have htrue := htrue _ h.left.left.right
  have hfalse := hfalse _ h.right
  have hpast := followsCourse_jump (g := g) hsize h.left.right
    (line + (code (Plan.choiceElse name test onTrue onFalse)).length)
    (by
      simp only [code, List.length_append, List.length_singleton]
      omega)
    h.le_size
  simp only [code, List.length_append, length_passUnless, List.length_singleton, ← Nat.add_assoc] at *
  refine htest.bind fun _ => hdecision.bind fun holds => ?_
  cases holds with
  | false => exact hfalse
  | true =>
    have hall := htrue.bind fun _ => hpast
    simp only [bind_pure_unit] at hall
    exact hall

theorem runsPlan (p : Plan) : p.RunsPlan g c := by
  induction p with
  | skip => exact fun _ _ => FollowsCourse.pure () rfl
  | seq first second ihFirst ihSecond => exact .seq ihFirst ihSecond
  | load node name =>
    intro line h
    refine followsCourse_plain hsize h ?_ ((Exec.ignoresCursor_read g node).bind
      fun _ => Exec.IgnoresCursor.write (by decide) _)
    rw [Exec.perform, bind_assoc]
  | evaluate node name => exact fun _ h => followsCourse_plain hsize h rfl (Exec.ignoresCursor_evaluate g node)
  | constant word => exact fun _ h => followsCourse_plain hsize h rfl (Exec.IgnoresCursor.write (by decide) _)
  | frame f body ih => exact .frame hsize ih
  | loop name locals start test body step ihStart ihTest ihBody ihStep =>
    exact .loop hsize ihStart ihTest ihBody ihStep
  | choice name test onTrue ihTest ihTrue => exact .choice hsize ihTest ihTrue
  | choiceElse name test onTrue onFalse ihTest ihTrue ihFalse => exact .choiceElse hsize ihTest ihTrue ihFalse

end

end Plan

/-- A course and the code that follows it end alike, if the code stops at the exit. -/
theorem FollowsCourse.ends {g : Graph} {c : Code} {line exit : Nat} {x : Nat → Course Unit}
    (h : FollowsCourse g c line (fun _ => exit) x)
    (hexit : ∀ n (s : State), c.finish g (n + 1) (s.at exit) = some (.ok (), s.rewind))
    (s : State) (y : Except Trap Unit × State) :
    (∃ n, c.finish g n (s.at line) = some y) ↔ ∃ rounds, ((x rounds).outcome s).map ending = some y := by
  constructor
  · rintro ⟨n, hn⟩
    obtain ⟨⟨t | _, s'⟩, n', -, hr, hy⟩ := h.of_code hn n (Nat.le_refl n)
    · refine ⟨n, ?_⟩
      rw [hr, Option.map_some]
      exact congrArg some (Eq.symm hy)
    · refine ⟨n, ?_⟩
      rw [hr, Option.map_some]
      cases n' with
      | zero => cases hy
      | succ n' => exact (hexit n' s').symm.trans hy
  · rintro ⟨rounds, hr⟩
    rw [Option.map_eq_some_iff] at hr
    obtain ⟨⟨t | _, s'⟩, hr, rfl⟩ := hr
    · exact h.of_course (n := 0) hr rfl
    · exact h.of_course hr (hexit 0 s')

theorem finish_ret {g : Graph} {c : Code} (hsize : c.size ≤ Code.limit) {line : Nat}
    (hop : c.op? line = some .ret) (n : Nat) (s : State) :
    c.finish g (n + 1) (s.at line) = some (.ok (), s.rewind) := by
  have hline : line ≤ Code.limit := by
    have := Code.lt_size hop
    omega
  have hhalt : (Exec.perform g .ret).apply (s.at line) = (.ok .halt, s.at line) := rfl
  simp only [Code.finish, Code.advance, State.cursor_at hline, hop, hhalt, Move.target, State.rewind_at]

theorem Program.followsCourse {g : Graph} {c : Code} (hsize : c.size ≤ Code.limit) (p : Program) (insertReturn : Bool)
    (h : c = .ofList (p.code insertReturn)) :
    ∃ exit, FollowsCourse g c 0 (fun _ => exit) (fun rounds => p.run g rounds insertReturn) ∧
      ∀ n (s : State), c.finish g (n + 1) (s.at exit) = some (.ok (), s.rewind) := by
  have hall : c.ContainsAt 0 (p.code insertReturn) := ⟨[], [], by rw [h, List.nil_append, List.append_nil], rfl⟩
  rw [code] at hall
  have hopening : c.ContainsAt 0 p.frame.opening := hall.left.left.left
  have hopen := followsCourse_mark (g := g) hsize (hopening.left (l := [_])) rfl
  have hpush := followsCourse_pushVars (g := g) hsize hopening.tail
  have hbody := p.body.runsPlan (g := g) hsize _ hall.left.left.right
  simp only [Frame.length_opening, ← Nat.add_assoc] at hbody
  have hstart := hopen.bind fun _ => hpush.bind fun _ => hbody
  cases insertReturn with
  | true =>
    have hret := hall.left.right.op?
    simp only [List.length_append, Frame.length_opening, ← Nat.add_assoc] at hret
    have hrun : (fun rounds => p.run g rounds true) = fun rounds => (do
        pure ()
        Plan.pushAll g p.frame.declarations
        p.body.run g rounds) := by
      funext rounds
      simp [run]
    rw [hrun]
    exact ⟨_, hstart, finish_ret hsize hret⟩
  | false =>
    have hclosing : c.ContainsAt _ p.frame.closing := hall.right
    have hpop := followsCourse_popVars (g := g) hsize hclosing.left
    have hclose := followsCourse_mark (g := g) hsize hclosing.right rfl
    have hend : c.size = (p.code false).length := by rw [h, Code.size_ofList]
    simp only [code, Bool.false_eq_true, if_false, List.append_nil, List.length_append, Frame.length_opening,
      Frame.length_closing, length_popVars, ← Nat.add_assoc] at hpop hclose hend
    have hall := hopen.bind fun _ => hpush.bind fun _ => hbody.bind fun _ => hpop.bind fun _ => hclose
    simp only [pure_bind, bind_pure_unit] at hall
    refine ⟨c.size, ?_, fun n s => Code.finish_end hsize n s⟩
    rw [hend, ← Nat.zero_add 1]
    exact hall

end FlowGraph
