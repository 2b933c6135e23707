import FlowGraph.Proofs.Simulation

/-!
# Stack discipline

Frames and pushed variables form one stack. What is on it at a line of code can be read off the lines before,
as if there were no jumps: every jump of a plan's code passes over instructions that leave the stack as they
found it.
-/

namespace FlowGraph

inductive StackEntry
  | frame (scope : ScopeId)
  | var (node : NodeId)
deriving DecidableEq, Repr

abbrev Stack := List StackEntry

namespace Op

def act : Op → Stack → Stack
  | pushVar v, st => .var v :: st
  | pushFrame s, st => .frame s :: st
  | popVar _, st | popFrame _, st => st.tail
  | _, st => st

def FitsStack : Op → Stack → Prop
  | pushVar v, st => .var v ∉ st
  | popVar v, st => st.head? = some (.var v)
  | popFrame s, st => st.head? = some (.frame s)
  | mov target _, _ => target ≠ .eip
  | _, _ => True

def offset? : Op → Option Int
  | jmp offset | jne offset => some offset
  | _ => none

def successors (line : Nat) : Op → List Int
  | jmp offset => [line + offset]
  | jne offset => [line + 1, line + offset]
  | mov .eip word => [word.toNat]
  | ret => []
  | _ => [line + 1]

theorem act_of_offset? {op : Op} {offset : Int} (h : op.offset? = some offset) (st : Stack) : op.act st = st := by
  cases op with
  | jmp | jne => rfl
  | _ => cases h

theorem fitsStack_of_offset? {op : Op} {offset : Int} (h : op.offset? = some offset) (st : Stack) :
    op.FitsStack st := by
  cases op with
  | jmp | jne => trivial
  | _ => cases h

theorem successors_cases {op : Op} {st : Stack} {line : Nat} {target : Int} (h : target ∈ op.successors line)
    (hfits : op.FitsStack st) : target = line + 1 ∨ ∃ offset, op.offset? = some offset ∧ target = line + offset := by
  cases op with
  | jmp offset => exact .inr ⟨offset, rfl, List.mem_singleton.1 h⟩
  | jne offset =>
    rcases List.mem_cons.1 h with h | h
    · exact .inl h
    · exact .inr ⟨offset, rfl, List.mem_singleton.1 h⟩
  | mov register word =>
    cases register with
    | eip => exact (hfits rfl).elim
    | _ => exact .inl (List.mem_singleton.1 h)
  | ret => cases h
  | _ => exact .inl (List.mem_singleton.1 h)

end Op

/-- A line that a path through the code gets to, with what is then on the stack. -/
inductive Code.Walk (c : Code) : Nat → Stack → Prop
  | start : Walk c 0 []
  | step {line target : Nat} {st : Stack} {op : Op} : Walk c line st → c.op? line = some op →
      (target : Int) ∈ op.successors line → Walk c target (op.act st)

def effect (is : List Instruction) (st : Stack) : Stack := is.foldl (fun st i => i.op.act st) st

@[simp]
theorem effect_cons (i : Instruction) (is : List Instruction) (st : Stack) :
    effect (i :: is) st = effect is (i.op.act st) := rfl

@[simp]
theorem effect_nil (st : Stack) : effect [] st = st := rfl

@[simp]
theorem effect_append (l l' : List Instruction) (st : Stack) : effect (l ++ l') st = effect l' (effect l st) :=
  List.foldl_append

def held (ds : List Declaration) : Stack := ds.reverse.map fun d => .var d.node

def Frame.entries (f : Frame) : Stack := held f.declarations ++ [.frame f.scope]

@[simp]
theorem effect_pushVars (ds : List Declaration) (st : Stack) : effect (pushVars ds) st = held ds ++ st := by
  induction ds generalizing st with
  | nil => rfl
  | cons d ds ih =>
    have h := ih (.var d.node :: st)
    simp only [pushVars, List.map_cons, effect_cons] at h ⊢
    rw [Op.act, h]
    simp [held]

@[simp]
theorem effect_popVars (ds : List Declaration) (st : Stack) : effect (popVars ds) (held ds ++ st) = st := by
  unfold popVars held
  induction ds.reverse with
  | nil => rfl
  | cons d ds ih => exact ih

@[simp]
theorem effect_opening (f : Frame) (st : Stack) : effect f.opening st = f.entries ++ st := by
  simp [Frame.opening, Frame.entries, Op.act]

@[simp]
theorem effect_closing (f : Frame) (st : Stack) : effect f.closing (f.entries ++ st) = st := by
  simp [Frame.closing, Frame.entries, Op.act]

@[simp]
theorem effect_passUnless (name : String) (length : Nat) (st : Stack) :
    effect (Plan.passUnless name length) st = st := rfl

@[simp]
theorem length_passUnless (name : String) (length : Nat) : (Plan.passUnless name length).length = 3 := rfl

/-- A plan leaves the stack as it finds it. -/
@[simp]
theorem Plan.effect_code (p : Plan) (st : Stack) : effect p.code st = st := by
  induction p generalizing st with
  | skip | load | evaluate | constant => rfl
  | seq first second ihFirst ihSecond => rw [code, effect_append, ihFirst, ihSecond]
  | frame f body ih => rw [code, effect_append, effect_append, effect_opening, ih, effect_closing]
  | loop name locals start test body step ihStart ihTest ihBody ihStep =>
    simp [code, ihStart, ihTest, ihBody, ihStep, jumpBack, Op.act]
  | choice name test onTrue ihTest ihTrue => simp [code, ihTest, ihTrue]
  | choiceElse name test onTrue onFalse ihTest ihTrue ihFalse =>
    simp [code, ihTest, ihTrue, ihFalse, jumpPast, Op.act]

namespace Code

def stackAt (c : Code) (line : Nat) : Stack := effect (c.instructions.toList.take line) []

structure LineKeepsStack (c : Code) (line : Nat) : Prop where
  fitsStack {op : Op} : c.op? line = some op → op.FitsStack (c.stackAt line)
  target {op : Op} {offset : Int} : c.op? line = some op → op.offset? = some offset →
    ∃ target : Nat, target = line + offset ∧ target < c.size ∧ c.stackAt target = c.stackAt line

variable {c : Code} {line : Nat} {l l' : List Instruction} {i : Instruction}

theorem stackAt_succ {op : Op} (h : c.op? line = some op) : c.stackAt (line + 1) = op.act (c.stackAt line) := by
  obtain ⟨i, hi, rfl⟩ := Option.map_eq_some_iff.1 h
  have hi' : c.instructions.toList[line]? = some i := by simpa [get?] using hi
  rw [stackAt, List.take_add_one, hi', effect_append]
  rfl

/-- If every line keeps its stack, the stack on any path is the one read off the lines before. -/
theorem Walk.stack_eq {st : Stack} (h : c.Walk line st) (hlineKeepsStack : ∀ line, c.LineKeepsStack line) :
    st = c.stackAt line := by
  induction h with
  | start => rfl
  | @step line target st op _ hop htarget ih =>
    subst ih
    rcases Op.successors_cases htarget ((hlineKeepsStack line).fitsStack hop) with hnext | ⟨offset, hoffset, hjump⟩
    · obtain rfl : target = line + 1 := by exact_mod_cast hnext
      exact (stackAt_succ hop).symm
    · obtain ⟨target', htarget', -, hsame⟩ := (hlineKeepsStack line).target hop hoffset
      obtain rfl : target = target' := by
        rw [← hjump] at htarget'
        exact_mod_cast htarget'.symm
      rw [hsame, Op.act_of_offset? hoffset]

theorem lt_size_of_op? {op : Op} (h : c.op? line = some op) : line < c.size := by
  obtain ⟨i, hi, -⟩ := Option.map_eq_some_iff.1 h
  exact (Array.getElem?_eq_some_iff.1 hi).1

theorem Walk.le_size {st : Stack} (h : c.Walk line st) (hlineKeepsStack : ∀ line, c.LineKeepsStack line) :
    line ≤ c.size := by
  cases h with
  | start => exact Nat.zero_le _
  | @step before _ st op hwalk hop htarget =>
    have hbefore := lt_size_of_op? hop
    have hfits := hwalk.stack_eq hlineKeepsStack ▸ (hlineKeepsStack before).fitsStack hop
    rcases Op.successors_cases htarget hfits with hnext | ⟨offset, hoffset, hjump⟩
    · omega
    · obtain ⟨target, htarget', hlt, -⟩ := (hlineKeepsStack before).target hop hoffset
      omega

theorem ContainsAt.stackAt (h : c.ContainsAt line l) : c.stackAt (line + l.length) = effect l (c.stackAt line) := by
  obtain ⟨before, after, rfl, rfl⟩ := h
  have htake : (before ++ l ++ after).take (before.length + l.length) = before ++ l := by
    rw [← List.length_append, List.take_left]
  have htake' : (before ++ l ++ after).take before.length = before := by
    rw [List.append_assoc, List.take_left]
  rw [Code.stackAt, Code.stackAt, ofList, List.toList_toArray, htake, htake', effect_append]

def LinesKeepStack (c : Code) (line : Nat) (is : List Instruction) : Prop :=
  ∀ i, line ≤ i → i < line + is.length → c.LineKeepsStack i

theorem LinesKeepStack.nil : c.LinesKeepStack line [] := by
  intro i hle hlt
  rw [List.length_nil] at hlt
  omega

theorem LinesKeepStack.append (h : c.LinesKeepStack line l) (h' : c.LinesKeepStack (line + l.length) l') :
    c.LinesKeepStack line (l ++ l') := by
  intro i hle hlt
  rw [List.length_append] at hlt
  rcases Nat.lt_or_ge i (line + l.length) with hi | hi
  · exact h i hle hi
  · exact h' i hi (by omega)

theorem LinesKeepStack.cons (h : c.LineKeepsStack line) (h' : c.LinesKeepStack (line + 1) l) :
    c.LinesKeepStack line (i :: l) := by
  intro j hle hlt
  rw [List.length_cons] at hlt
  rcases Nat.eq_or_lt_of_le hle with rfl | hj
  · exact h
  · exact h' j hj (by omega)

theorem ContainsAt.lineKeepsStack (h : c.ContainsAt line (i :: l)) (hoffset : i.op.offset? = none)
    (hfits : i.op.FitsStack (c.stackAt line)) : c.LineKeepsStack line := by
  refine ⟨?_, ?_⟩
  · intro op hop
    obtain rfl : i.op = op := Option.some.inj (h.op?.symm.trans hop)
    exact hfits
  · intro op offset hop hoffset'
    obtain rfl : i.op = op := Option.some.inj (h.op?.symm.trans hop)
    rw [hoffset] at hoffset'
    cases hoffset'

theorem ContainsAt.lineKeepsStack_jump {offset : Int} (target : Nat) (h : c.ContainsAt line (i :: l))
    (hoffset : i.op.offset? = some offset) (htarget : target = line + offset) (hlt : target < c.size)
    (hsame : c.stackAt target = c.stackAt line) : c.LineKeepsStack line := by
  refine ⟨?_, ?_⟩
  · intro op hop
    obtain rfl : i.op = op := Option.some.inj (h.op?.symm.trans hop)
    exact Op.fitsStack_of_offset? hoffset _
  · intro op offset' hop hoffset'
    obtain rfl : i.op = op := Option.some.inj (h.op?.symm.trans hop)
    obtain rfl : offset = offset' := Option.some.inj (hoffset.symm.trans hoffset')
    exact ⟨target, htarget, hlt, hsame⟩

theorem ContainsAt.stackAt_succ (h : c.ContainsAt line (i :: l)) : c.stackAt (line + 1) = i.op.act (c.stackAt line) :=
  Code.stackAt_succ h.op?

end Code

def Pushable (ds : List Declaration) (st : Stack) : Prop :=
  (ds.map (·.node)).Nodup ∧ ∀ d ∈ ds, .var d.node ∉ st

theorem pushable_nil (st : Stack) : Pushable [] st := ⟨List.nodup_nil, nofun⟩

section

variable {c : Code} {line : Nat} {st : Stack}

theorem linesKeepStack_pushVars {ds : List Declaration} (h : c.ContainsAt line (pushVars ds))
    (hds : Pushable ds (c.stackAt line)) : c.LinesKeepStack line (pushVars ds) := by
  induction ds generalizing line with
  | nil => exact .nil
  | cons d ds ih =>
    obtain ⟨hnodup, hfree⟩ := hds
    rw [List.map_cons, List.nodup_cons] at hnodup
    refine .cons (h.lineKeepsStack rfl (hfree d List.mem_cons_self)) (ih h.tail ⟨hnodup.2, ?_⟩)
    intro d' hd' hmem
    rw [h.stackAt_succ] at hmem
    rcases List.mem_cons.1 hmem with heq | hmem
    · exact hnodup.1 (List.mem_map.2 ⟨d', hd', StackEntry.var.inj heq⟩)
    · exact hfree d' (List.mem_cons_of_mem d hd') hmem

theorem linesKeepStack_pops {ds : List Declaration}
    (h : c.ContainsAt line (ds.map fun d => ⟨.popVar d.node, some d.name⟩))
    (hst : c.stackAt line = ds.map (fun d => .var d.node) ++ st) :
    c.LinesKeepStack line (ds.map fun d => ⟨.popVar d.node, some d.name⟩) := by
  induction ds generalizing line with
  | nil => exact .nil
  | cons d ds ih =>
    refine .cons (h.lineKeepsStack rfl ?_) (ih h.tail ?_)
    · rw [hst]
      rfl
    · rw [h.stackAt_succ, hst]
      rfl

theorem linesKeepStack_popVars {ds : List Declaration} (h : c.ContainsAt line (popVars ds))
    (hst : c.stackAt line = held ds ++ st) : c.LinesKeepStack line (popVars ds) := linesKeepStack_pops h hst

theorem linesKeepStack_opening {f : Frame} (h : c.ContainsAt line f.opening)
    (hf : Pushable f.declarations (.frame f.scope :: c.stackAt line)) : c.LinesKeepStack line f.opening := by
  refine .cons (h.lineKeepsStack rfl trivial) (linesKeepStack_pushVars h.tail ?_)
  rw [h.stackAt_succ]
  exact hf

theorem linesKeepStack_closing {f : Frame} (h : c.ContainsAt line f.closing) (hst : c.stackAt line = f.entries ++ st) :
    c.LinesKeepStack line f.closing := by
  rw [Frame.entries, List.append_assoc] at hst
  refine (linesKeepStack_popVars h.left hst).append (.cons (h.right.lineKeepsStack rfl ?_) .nil)
  rw [h.left.stackAt, hst, effect_popVars]
  rfl

theorem linesKeepStack_passUnless {name : String} {length : Nat} (h : c.ContainsAt line (Plan.passUnless name length))
    (hlt : line + (length + 3) < c.size) (hsame : c.stackAt (line + (length + 3)) = c.stackAt line) :
    c.LinesKeepStack line (Plan.passUnless name length) := by
  have hst₁ := h.stackAt_succ
  have hst₂ := h.tail.stackAt_succ
  refine .cons (h.lineKeepsStack rfl nofun) (.cons (h.tail.lineKeepsStack rfl trivial) (.cons ?_ .nil))
  refine h.tail.tail.lineKeepsStack_jump (line + (length + 3)) rfl ?_ hlt ?_
  · omega
  · rw [hsame, hst₂, hst₁]
    rfl

end

namespace Plan

def PushesFresh : Plan → Stack → Prop
  | skip, _ | load _ _, _ | evaluate _ _, _ | constant _, _ => True
  | seq first second, st => first.PushesFresh st ∧ second.PushesFresh st
  | frame f body, st => Pushable f.declarations (.frame f.scope :: st) ∧ body.PushesFresh (f.entries ++ st)
  | loop _ locals start test body step, st =>
    Pushable locals st ∧ start.PushesFresh (held locals ++ st) ∧ test.PushesFresh (held locals ++ st) ∧
      body.PushesFresh (held locals ++ st) ∧ step.PushesFresh (held locals ++ st)
  | choice _ test onTrue, st => test.PushesFresh st ∧ onTrue.PushesFresh st
  | choiceElse _ test onTrue onFalse, st => test.PushesFresh st ∧ onTrue.PushesFresh st ∧ onFalse.PushesFresh st

def PlanKeepsStack (c : Code) (st : Stack) (p : Plan) : Prop :=
  ∀ line, c.ContainsAt line p.code → line + p.code.length < c.size → c.stackAt line = st → c.LinesKeepStack line p.code

section

variable {c : Code} {st : Stack} {name : String} {start test body step onTrue onFalse : Plan}

theorem PlanKeepsStack.seq {first second : Plan} (hfirst : first.PlanKeepsStack c st)
    (hsecond : second.PlanKeepsStack c st) :
    (seq first second).PlanKeepsStack c st := by
  intro line h hend hst
  have hmiddle := h.left.stackAt
  rw [hst, effect_code] at hmiddle
  simp only [code, List.length_append] at hend
  exact (hfirst _ h.left (by omega) hst).append (hsecond _ h.right (by omega) hmiddle)

theorem PlanKeepsStack.frame {f : Frame} (hf : Pushable f.declarations (.frame f.scope :: st))
    (hbody : body.PlanKeepsStack c (f.entries ++ st)) : (frame f body).PlanKeepsStack c st := by
  intro line h hend hst
  have hopened := h.left.left.stackAt
  have hclosing := h.left.stackAt
  rw [hst, effect_opening] at hopened
  rw [hst, effect_append, effect_opening, effect_code] at hclosing
  simp only [code, List.length_append] at hend
  exact ((linesKeepStack_opening h.left.left (hst ▸ hf)).append (hbody _ h.left.right (by omega) hopened)).append
    (linesKeepStack_closing h.right hclosing)

/-- The jump back is the only one that leads to a line before it. -/
theorem PlanKeepsStack.loop {locals : List Declaration} (hlocals : Pushable locals st)
    (hstart : start.PlanKeepsStack c (held locals ++ st)) (htest : test.PlanKeepsStack c (held locals ++ st))
    (hbody : body.PlanKeepsStack c (held locals ++ st)) (hstep : step.PlanKeepsStack c (held locals ++ st)) :
    (loop name locals start test body step).PlanKeepsStack c st := by
  intro line h hend hst
  have hround := h.left.left.right
  have hstStart := h.left.left.left.left.stackAt
  have hstTest := h.left.left.left.stackAt
  rw [hst, effect_pushVars] at hstStart
  rw [hst, effect_append, effect_pushVars, effect_code] at hstTest
  have hstPass := hround.left.left.stackAt
  have hstBody := hround.left.stackAt
  have hstBack := hround.stackAt
  simp only [hstTest, effect_append, effect_code, effect_passUnless] at hstPass hstBody hstBack
  have hstStep := hround.right.left.stackAt
  rw [hstBody, effect_code] at hstStep
  have hstPops := h.left.stackAt
  simp only [hst, effect_append, effect_pushVars, effect_code, effect_passUnless] at hstPops
  simp only [code, List.length_append, length_passUnless, List.length_cons, List.length_nil] at hend
  refine ((((linesKeepStack_pushVars h.left.left.left.left (hst ▸ hlocals)).append
    (hstart _ h.left.left.left.right ?_ hstStart)).append
    (((htest _ hround.left.left ?_ hstTest).append (linesKeepStack_passUnless hround.left.right ?_ ?_)).append
    ((hbody _ hround.right.left ?_ hstBody).append (hstep _ hround.right.right ?_ hstStep)))).append
    (.cons (h.left.right.lineKeepsStack_jump (line + (pushVars locals ++ start.code).length) rfl ?_ ?_ ?_)
    .nil)).append (linesKeepStack_popVars h.right hstPops)
  · omega
  · simp only [List.length_append]
    omega
  · simp only [List.length_append]
    omega
  · rw [hstPass]
    refine Eq.trans (congrArg c.stackAt ?_) hstPops
    simp only [List.length_append, length_passUnless, List.length_cons, List.length_nil]
    omega
  · simp only [List.length_append, length_passUnless]
    omega
  · simp only [List.length_append, length_passUnless]
    omega
  · simp only [List.length_append, length_passUnless]
    omega
  · simp only [List.length_append]
    omega
  · rw [hstTest, ← hstBack]
    congr 1
    simp only [List.length_append, length_passUnless]
    omega

theorem PlanKeepsStack.choice (htest : test.PlanKeepsStack c st) (htrue : onTrue.PlanKeepsStack c st) :
    (choice name test onTrue).PlanKeepsStack c st := by
  intro line h hend hst
  have hstPass := h.left.left.stackAt
  have hstTrue := h.left.stackAt
  have hstEnd := h.stackAt
  simp only [hst, effect_append, effect_code, effect_passUnless] at hstPass hstTrue hstEnd
  simp only [code, List.length_append, length_passUnless] at hend hstEnd
  refine ((htest _ h.left.left ?_ hst).append (linesKeepStack_passUnless h.left.right ?_ ?_)).append
    (htrue _ h.right ?_ hstTrue)
  · omega
  · omega
  · rw [hstPass, ← hstEnd]
    congr 1
    omega
  · rw [List.length_append, length_passUnless]
    omega

theorem PlanKeepsStack.choiceElse (htest : test.PlanKeepsStack c st) (htrue : onTrue.PlanKeepsStack c st)
    (hfalse : onFalse.PlanKeepsStack c st) :
    (choiceElse name test onTrue onFalse).PlanKeepsStack c st := by
  intro line h hend hst
  have hstPass := h.left.left.left.left.stackAt
  have hstTrue := h.left.left.left.stackAt
  have hstJump := h.left.left.stackAt
  have hstFalse := h.left.stackAt
  have hstEnd := h.stackAt
  simp only [hst, effect_append, effect_code, effect_passUnless] at hstPass hstTrue hstJump hstFalse hstEnd
  simp only [code, List.length_append, length_passUnless, List.length_cons, List.length_nil] at hend
  refine ((((htest _ h.left.left.left.left ?_ hst).append
    (linesKeepStack_passUnless h.left.left.left.right ?_ ?_)).append
    (htrue _ h.left.left.right ?_ hstTrue)).append (.cons (h.left.right.lineKeepsStack_jump
    (line + (Plan.choiceElse name test onTrue onFalse).code.length) rfl ?_ ?_ ?_) .nil)).append
    (hfalse _ h.right ?_ hstFalse)
  · omega
  · omega
  · rw [hstPass]
    refine Eq.trans (congrArg c.stackAt ?_) hstFalse
    simp only [List.length_append, length_passUnless, List.length_cons, List.length_nil]
    omega
  · simp only [List.length_append, length_passUnless]
    omega
  · simp only [code, List.length_append, length_passUnless, List.length_cons, List.length_nil]
    omega
  · simp only [code, List.length_append, length_passUnless, List.length_cons, List.length_nil]
    omega
  · rw [hstEnd, hstJump]
  · simp only [List.length_append, length_passUnless, List.length_cons, List.length_nil]
    omega

end

theorem linesKeepStack {c : Code} {p : Plan} {st : Stack} (ht : p.PushesFresh st) : p.PlanKeepsStack c st := by
  induction p generalizing st with
  | skip => exact fun _ _ _ _ => .nil
  | load | evaluate => exact fun _ h _ _ => .cons (h.lineKeepsStack rfl trivial) .nil
  | constant => exact fun _ h _ _ => .cons (h.lineKeepsStack rfl nofun) .nil
  | seq first second ihFirst ihSecond =>
    obtain ⟨hfirst, hsecond⟩ := ht
    exact .seq (ihFirst hfirst) (ihSecond hsecond)
  | frame f body ih =>
    obtain ⟨hf, hbody⟩ := ht
    exact .frame hf (ih hbody)
  | loop name locals start test body step ihStart ihTest ihBody ihStep =>
    obtain ⟨hlocals, hstart, htest, hbody, hstep⟩ := ht
    exact .loop hlocals (ihStart hstart) (ihTest htest) (ihBody hbody) (ihStep hstep)
  | choice name test onTrue ihTest ihTrue =>
    obtain ⟨htest, htrue⟩ := ht
    exact .choice (ihTest htest) (ihTrue htrue)
  | choiceElse name test onTrue onFalse ihTest ihTrue ihFalse =>
    obtain ⟨htest, htrue, hfalse⟩ := ht
    exact .choiceElse (ihTest htest) (ihTrue htrue) (ihFalse hfalse)

end Plan

def Returnless (is : List Instruction) : Prop := ∀ i ∈ is, i.op ≠ .ret

theorem Returnless.append {l l' : List Instruction} (h : Returnless l) (h' : Returnless l') :
    Returnless (l ++ l') :=
  List.forall_mem_append.2 ⟨h, h'⟩

theorem returnless_pushVars (ds : List Declaration) : Returnless (pushVars ds) := by
  intro i hi
  obtain ⟨d, -, rfl⟩ := List.mem_map.1 hi
  nofun

theorem returnless_popVars (ds : List Declaration) : Returnless (popVars ds) := by
  intro i hi
  obtain ⟨d, -, rfl⟩ := List.mem_map.1 hi
  nofun

theorem returnless_singleton {i : Instruction} (h : i.op ≠ .ret) : Returnless [i] := by
  intro j hj
  rwa [List.mem_singleton.1 hj]

theorem returnless_opening (f : Frame) : Returnless f.opening :=
  (returnless_singleton (by nofun)).append (returnless_pushVars f.declarations)

theorem returnless_closing (f : Frame) : Returnless f.closing :=
  (returnless_popVars f.declarations).append (returnless_singleton (by nofun))

theorem returnless_passUnless (name : String) (length : Nat) : Returnless (Plan.passUnless name length) :=
  (returnless_singleton (by nofun)).append ((returnless_singleton (by nofun)).append (returnless_singleton (by nofun)))

theorem Plan.returnless (p : Plan) : Returnless p.code := by
  induction p with
  | skip => exact nofun
  | load | evaluate | constant => exact returnless_singleton (by nofun)
  | seq first second ihFirst ihSecond => exact ihFirst.append ihSecond
  | frame f body ih => exact ((returnless_opening f).append ih).append (returnless_closing f)
  | loop name locals start test body step ihStart ihTest ihBody ihStep =>
    exact ((((returnless_pushVars locals).append ihStart).append
      ((ihTest.append (returnless_passUnless name _)).append (ihBody.append ihStep))).append
      (returnless_singleton (by nofun))).append (returnless_popVars locals)
  | choice name test onTrue ihTest ihTrue => exact (ihTest.append (returnless_passUnless name _)).append ihTrue
  | choiceElse name test onTrue onFalse ihTest ihTrue ihFalse =>
    exact (((ihTest.append (returnless_passUnless name _)).append ihTrue).append
      (returnless_singleton (by nofun))).append ihFalse

namespace Program

def PushesFresh (p : Program) : Prop :=
  Pushable p.frame.declarations [.frame p.frame.scope] ∧ p.body.PushesFresh p.frame.entries

variable {c : Code} {p : Program} {insertReturn : Bool} (hc : c = .ofList (p.code insertReturn))

include hc

theorem containsAt : c.ContainsAt 0 (p.code insertReturn) := ⟨[], [], by rw [hc, List.nil_append, List.append_nil], rfl⟩

theorem size_eq : c.size = (p.code insertReturn).length := by rw [hc, Code.size_ofList]

theorem lineKeepsStack (ht : p.PushesFresh) (line : Nat) : c.LineKeepsStack line := by
  obtain ⟨hframe, hbody⟩ := ht
  have h := containsAt hc
  have hsize := size_eq hc
  have hopened := h.left.left.left.stackAt
  have hran := h.left.left.stackAt
  have hclosing := h.left.stackAt
  have hstart : c.stackAt 0 = [] := rfl
  simp only [hstart, effect_append, effect_opening, Plan.effect_code, List.append_nil] at hopened hran hclosing
  have hret : effect (if insertReturn then [⟨.ret, none⟩] else []) p.frame.entries = p.frame.entries := by
    cases insertReturn <;> rfl
  rw [hret] at hclosing
  have hlinesKeepStack : c.LinesKeepStack 0 (p.code insertReturn) := by
    refine (((linesKeepStack_opening h.left.left.left hframe).append
      (Plan.linesKeepStack hbody _ h.left.left.right ?_ hopened)).append ?_).append
      (linesKeepStack_closing h.right (show _ = p.frame.entries ++ [] by rw [hclosing, List.append_nil]))
    · rw [hsize]
      simp only [code, Frame.closing, List.length_append, List.length_cons]
      omega
    · have hline := h.left.right
      cases insertReturn with
      | false => exact .nil
      | true => exact .cons (hline.lineKeepsStack rfl trivial) .nil
  rcases Nat.lt_or_ge line (p.code insertReturn).length with hlt | hge
  · exact hlinesKeepStack line (Nat.zero_le _) (by omega)
  · have hnone : c.op? line = none := by
      rw [hc, Code.op?_ofList, List.getElem?_eq_none hge]
      rfl
    refine ⟨?_, ?_⟩
    · intro op hop
      cases hnone.symm.trans hop
    · intro op offset hop
      cases hnone.symm.trans hop

theorem stackAt_size : c.stackAt c.size = [] := by
  have h := (containsAt hc).stackAt
  have hret (st : Stack) : effect (if insertReturn then [⟨.ret, none⟩] else []) st = st := by
    cases insertReturn <;> rfl
  have hstart : c.stackAt 0 = [] := rfl
  rw [Nat.zero_add, ← size_eq hc, hstart, code] at h
  simp only [effect_append, effect_opening, Plan.effect_code, hret, effect_closing] at h
  exact h

theorem op?_ret_iff {line : Nat} : c.op? line = some .ret ↔
    insertReturn = true ∧ line = (p.frame.opening ++ p.body.code).length := by
  have hbefore : Returnless (p.frame.opening ++ p.body.code) :=
    (returnless_opening p.frame).append p.body.returnless
  have hafter : Returnless p.frame.closing := returnless_closing p.frame
  rw [hc, Code.op?_ofList, Option.map_eq_some_iff, code]
  constructor
  · rintro ⟨i, hi, hret⟩
    cases insertReturn with
    | false =>
      rw [if_neg Bool.false_ne_true, List.append_nil] at hi
      exact ((hbefore.append hafter) i (List.mem_of_getElem? hi) hret).elim
    | true =>
      refine ⟨rfl, ?_⟩
      rw [if_pos rfl, List.append_assoc, List.getElem?_append] at hi
      split at hi
      next => exact (hbefore i (List.mem_of_getElem? hi) hret).elim
      next hge =>
        rw [List.getElem?_append] at hi
        split at hi
        next hlt =>
          rw [List.length_singleton] at hlt
          omega
        next => exact (hafter i (List.mem_of_getElem? hi) hret).elim
  · rintro ⟨rfl, rfl⟩
    exact ⟨⟨.ret, none⟩, by simp, rfl⟩

theorem exists_ret_iff : (∃ line, c.op? line = some .ret) ↔ insertReturn = true := by
  simp only [op?_ret_iff hc, exists_and_left, exists_eq, and_true]

theorem stackAt_ret {line : Nat} (hop : c.op? line = some .ret) : c.stackAt line = p.frame.entries := by
  obtain ⟨-, rfl⟩ := (op?_ret_iff hc).1 hop
  have hran := (containsAt hc).left.left.stackAt
  have hstart : c.stackAt 0 = [] := rfl
  simp only [hstart, effect_append, effect_opening, Plan.effect_code, List.append_nil, Nat.zero_add] at hran
  rw [List.length_append, ← hran, List.length_append]

end Program

end FlowGraph
