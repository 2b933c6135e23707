import FlowGraph.Proofs.Debugging
import FlowGraph.Proofs.Decisions
import FlowGraph.Proofs.Inventory
import FlowGraph.Proofs.Presets

/-!
# Branches

Wherever the code has come from, the jump of a conditional finds in the accumulator what has been compared in the lines
before it, and that is what the condition reads: the value of the node it is linked to, or its own. An instruction
without a value to load or to evaluate leaves the accumulator as it is, and so does the code for a condition that is
linked to one. Such a condition goes by whatever has been there.
-/

namespace FlowGraph

open FlowGraph.Graph

namespace Graph

variable {g : Graph} {id : NodeId} {n : Node} {memory : Memory} {v : Value}

theorem read_of_value? (hn : g.nodeAt? id = some n) (hplain : n.isVariableLike = false)
    (hv : memory.value? id = some v) : g.read memory id = .ok v := by
  obtain ⟨k, hk⟩ : ∃ k, g.depthBound = k + 1 := ⟨_, rfl⟩
  rw [read, hk, readWithin, node?_eq_some_iff.2 hn]
  dsimp only
  split
  next hkind =>
    rw [Node.isVariableLike, hkind] at hplain
    cases hplain
  next hkind =>
    rw [Node.isVariableLike, hkind] at hplain
    cases hplain
  next => rw [hv, Option.getD_some]

end Graph

namespace Exec

variable {g : Graph} {id : NodeId} {n : Node} {s s' : State} {v : Value}

theorem value?_of_setValue {x : Exec Value}
    (h : (do let v ← x; modifyMemory (·.setValue id v); return v).apply s = (.ok v, s')) :
    s'.memory.value? id = some v := by
  obtain ⟨w, s₁, -, h⟩ := bind_eq_ok_iff.1 h
  have hset : (Except.ok w, { s₁ with memory := s₁.memory.setValue id w }) = (Except.ok v, s') := h
  cases hset
  rw [Memory.value?_setValue, if_pos rfl]

theorem value?_of_valueFor (hplain : n.isVariableLike = false) (h : (valueFor g n).apply s = (.ok v, s')) :
    s'.memory.value? n.id = some v := by
  unfold valueFor at h
  split at h
  next hkind =>
    rw [Node.isVariableLike, hkind] at hplain
    cases hplain
  next => exact value?_of_setValue h
  next => exact value?_of_setValue h
  next => exact value?_of_setValue h

/-- An evaluation leaves in the accumulator what the node reads as from then on. -/
theorem of_evaluate (hn : g.nodeAt? id = some n) (hid : n.id = id) (hplain : n.isVariableLike = false)
    (h : (evaluate g id).apply s = (.ok (), s')) :
    ∃ v, s'.registers.rax = v.toWord ∧ g.read s'.memory id = .ok v := by
  have hevaluate : (evaluate g id).apply s = (do
      let v ← valueFor g n
      write .rax v.toWord
      modify fun s => { s with lastEvaluated := some id, visited := s.visited.insert id.raw } : Exec Unit).apply s := by
    rw [evaluate, node?_eq_some_iff.2 hn]
    rfl
  rw [hevaluate] at h
  obtain ⟨v, s₁, hvalue, h⟩ := bind_eq_ok_iff.1 h
  have hwrite : (Except.ok (), { s₁ with
      registers := s₁.registers.write .rax v.toWord
      lastEvaluated := some id
      visited := s₁.visited.insert id.raw }) = ((Except.ok (), s') : Except Trap Unit × State) := h
  cases hwrite
  have hv : s₁.memory.value? id = some v := hid ▸ value?_of_valueFor hplain hvalue
  exact ⟨v, rfl, read_of_value? hn hplain hv⟩

theorem of_perform_mov {move : Move} {r : Register} {word : Word} (hr : r ≠ .eip)
    (h : (perform g (.mov r word)).apply s = (.ok move, s')) :
    s' = { s with registers := s.registers.write r word } := by
  cases r with
  | eip => exact (hr rfl).elim
  | _ => exact (congrArg Prod.snd h).symm

theorem of_perform_cmp {move : Move} {r r' : Register} (h : (perform g (.cmp r r')).apply s = (.ok move, s')) :
    s' = { s with
      registers := s.registers.write .rax
        (Word.ofBool (Word.asBool (s.registers.read r) == Word.asBool (s.registers.read r'))) } :=
  (congrArg Prod.snd h).symm

theorem of_perform_eval {move : Move} (hn : g.nodeAt? id = some n) (hid : n.id = id) (hplain : n.isVariableLike = false)
    (h : (perform g (.eval id)).apply s = (.ok move, s')) :
    ∃ v, g.read s'.memory id = .ok v ∧ s'.registers.rax = v.toWord := by
  obtain ⟨_, s₁, hevaluate, h⟩ := bind_eq_ok_iff.1 h
  have hmove : (Except.ok (Move.by 1), s₁) = ((Except.ok move, s') : Except Trap Move × State) := h
  cases hmove
  obtain ⟨v, hrax, hread⟩ := of_evaluate hn hid hplain hevaluate
  exact ⟨v, hread, hrax⟩

theorem of_perform_deref {move : Move} (h : (perform g (.deref id)).apply s = (.ok move, s')) :
    ∃ v, g.read s'.memory id = .ok v ∧ s'.registers.rax = v.toWord := by
  obtain ⟨v, s₁, hfirst, h⟩ := bind_eq_ok_iff.1 h
  rw [apply_read] at hfirst
  obtain ⟨hread, rfl⟩ := Prod.mk.inj hfirst
  have hwrite : (Except.ok (Move.by 1), { s with registers := s.registers.write .rax v.toWord }) =
      ((Except.ok move, s') : Except Trap Move × State) := h
  cases hwrite
  exact ⟨v, hread, rfl⟩

end Exec

namespace Code

variable {g : Graph} {c : Code} {s s' : State} {line target : Nat}

theorem target_cases (hg : ValidCode g c) (hreachedByWalk : c.ReachedByWalk s)
    (h : c.advance g s = (.ok (some target), s')) :
    target = s.registers.cursor + 1 ∨ ∃ op offset, c.op? s.registers.cursor = some op ∧
      op.offset? = some offset ∧ (target : Int) = s.registers.cursor + offset := by
  obtain ⟨op, move, hop, hperform, htarget⟩ := of_advance h
  obtain ⟨st, hwalk, hholds⟩ := hreachedByWalk
  have hfits : op.FitsStack st := hwalk.stack_eq hg.lineKeepsStack ▸ (hg.lineKeepsStack _).fitsStack hop
  obtain ⟨s₁, -, ⟨t, htrap, -⟩ | ⟨move', hmove, hleads, -⟩⟩ := perform_cases hg hop hfits hholds
  · cases hperform.symm.trans htrap
  · cases hperform.symm.trans hmove
    obtain rfl | ⟨offset, rfl, hsuccessor⟩ := hleads
    · cases htarget
    · have hby : (target : Int) = s.registers.cursor + offset := by
        simp only [Move.target] at htarget
        split at htarget
        next hrange =>
          cases htarget
          omega
        next => cases htarget
      rcases Op.successors_cases (hsuccessor s.registers.cursor) hfits with hnext | ⟨jump, hjump, hsame⟩
      · exact .inl (by omega)
      · exact .inr ⟨op, jump, hop, hjump, by omega⟩

theorem ReachesState.reachedByWalk (hg : ValidCode g c) (h : c.ReachesState g s) : c.ReachedByWalk s := by
  induction h with
  | start => exact c.reachedByWalk_start
  | step _ hadvance ih =>
    obtain ⟨t, s₁, htrap, -⟩ | ⟨s₁, hend⟩ | ⟨target, s₁, hnext, hreachedByWalk⟩ := advance_cases hg ih
    · cases htrap.symm.trans hadvance
    · cases hend.symm.trans hadvance
    · cases hnext.symm.trans hadvance
      exact hreachedByWalk

theorem ReachesState.before (hg : ValidCode g c) (h : c.ReachesState g s) (hcursor : s.registers.cursor = line + 1)
    (hlands : ∀ i op offset, c.op? i = some op → op.offset? = some offset → (i : Int) + offset ≠ (line + 1 : Nat)) :
    ∃ s₀ s₁ op move, c.ReachesState g s₀ ∧ s₀.registers.cursor = line ∧ c.op? line = some op ∧
      (Exec.perform g op).apply s₀ = (.ok move, s₁) ∧ s = s₁.at (line + 1) := by
  cases h with
  | start => cases hcursor
  | @step s₀ s₁ target hreachesState hadvance =>
    rw [State.cursor_at ((le_of_advance hadvance).trans hg.size)] at hcursor
    subst hcursor
    obtain ⟨op, move, hop, hperform, -⟩ := of_advance hadvance
    obtain hnext | ⟨op', offset, hop', hoffset, htarget⟩ := target_cases hg (hreachesState.reachedByWalk hg) hadvance
    · obtain rfl : line = s₀.registers.cursor := Nat.succ.inj hnext
      exact ⟨s₀, s₁, op, move, hreachesState, rfl, hop, hperform, rfl⟩
    · exact (hlands _ op' offset hop' hoffset htarget.symm).elim

end Code

namespace Graph

/-- What is in the place of the condition is an instruction without a value to load or to evaluate. -/
def ValuelessCondition (g : Graph) (n : Node) (b : Branch) : Prop :=
  ∃ r m, (n.slot? b.condition).bind Slot.first? = some r ∧ g.node r.node = .ok m ∧
    (m.kind = .plain ∨ m.kind = .emptyInstruction)

def conditionIn (g : Graph) (memory : Memory) (n : Node) (b : Branch) : Except Trap Value :=
  match (n.slot? b.condition).bind Slot.first? with
  | some source => g.read memory source.node
  | none => .ok ((n.slot? b.condition).elim .void fun s => (n.property s.property).value)

variable {g : Graph} {c : Code} {id : NodeId} {n : Node} {b : Branch} {start beyond k : Nat} {test onTrue : Plan}
  {s : State}

theorem code_eq_nil (hg : WellFormed g) (hl : HasLayouts g) (hn : g.nodeAt? id = some n)
    (hkind : n.kind.isConditional = false) (hplain : n.isVariableLike = false) (hevaluated : n.isEvaluated = false)
    (h : g.outlineWithin k id = .ok test) :
    test.code = [] := by
  have hops := evaluates_outlineWithin hg hl hn hkind h
  have hoperands : g.operands id = [] := by
    apply List.eq_nil_iff_forall_not_mem.2
    intro y hy
    rcases hl.reader hn hkind hy with hreads | hreads
    · cases hevaluated.symm.trans hreads
    · cases hplain.symm.trans hreads
  have hself : g.evaluates id = false := by rw [evaluates, hn, Option.any_some, hevaluated]
  cases k with
  | zero => cases h
  | succ k =>
    rw [Plan.Evaluates, visits, hoperands, List.flatMap_nil, List.nil_append, List.filter_singleton, hself] at hops
    exact List.map_eq_nil_iff.1 hops

theorem exists_eval (hn : g.nodeAt? id = some n) (hkind : n.kind.isConditional = false)
    (hevaluated : n.isEvaluated = true) (h : g.outlineWithin k id = .ok test) :
    ∃ before comment, test.code = before ++ [⟨.eval id, comment⟩] := by
  cases k with
  | zero => cases h
  | succ k =>
    rw [outlineWithin_simple hn hkind] at h
    obtain ⟨operands, -, heq⟩ := bind_eq_ok.1 h
    have htest : .ok (.seq (.sequence operands) (if n.isEvaluated then .evaluate id n.name else .skip)) =
        (.ok test : Except Fault Plan) := heq
    rw [if_pos hevaluated] at htest
    cases htest
    exact ⟨(Plan.sequence operands).code, some n.name, rfl⟩

theorem kind_cases {m : Node} (hr : Reachable g) (hm : g.nodeAt? id = some m) (hkind : m.kind.isConditional = false)
    (hinternal : m.internalScope = none) : m.isVariableLike = true ∨ m.isVariableLike = false ∧
      (m.isEvaluated = true ∨ m.isEvaluated = false ∧ (m.kind = .plain ∨ m.kind = .emptyInstruction)) := by
  unfold Node.isVariableLike Node.isEvaluated Node.isInvokable
  cases hm' : m.kind with
  | entryPoint =>
    obtain ⟨i, sc, hi, -⟩ := hr.inventory.block (node_eq_ok_iff.2 hm) (by rw [hm']; rfl)
    cases hinternal.symm.trans hi
  | ifElse | forLoop | whileLoop =>
    rw [hm'] at hkind
    cases hkind
  | _ => decide

namespace TestAt

variable (h : TestAt g c n b start test onTrue beyond) (hg : ValidCode g c)

include h hg

theorem before {j : Nat} (hj : j < test.code.length + 2) (hs : c.ReachesState g s)
    (hcursor : s.registers.cursor = start + j + 1) : ∃ s₀ s₁ op move, c.ReachesState g s₀ ∧
      s₀.registers.cursor = start + j ∧ c.op? (start + j) = some op ∧ (Exec.perform g op).apply s₀ = (.ok move, s₁) ∧
      s = s₁.at (start + j + 1) := by
  refine hs.before hg hcursor fun i op offset hop hoffset => ?_
  have hlands := h.not_jumpsTo (Nat.succ_pos j) (Nat.succ_lt_succ hj) hop hoffset
  rwa [Nat.add_assoc, Nat.cast_add]

theorem compared (hs : c.ReachesState g s) (hcursor : s.registers.cursor = start + test.code.length + 2) :
    ∃ s₀, c.ReachesState g s₀ ∧ s₀.registers.cursor = start + test.code.length ∧ s₀.memory = s.memory ∧
      Word.asBool s.registers.rax = Word.asBool s₀.registers.rax := by
  obtain ⟨name, length, hcontainsAt, -⟩ := h.containsAt
  have hpass := hcontainsAt.left.right
  obtain ⟨s₁, s₁', op₁, move₁, hs₁, hcursor₁, hop₁, hperform₁, rfl⟩ := h.before hg (Nat.lt_succ_self _) hs hcursor
  obtain ⟨s₀, s₀', op₀, move₀, hs₀, hcursor₀, hop₀, hperform₀, rfl⟩ :=
    h.before hg (Nat.lt_succ_of_lt (Nat.lt_succ_self _)) hs₁ hcursor₁
  cases hpass.tail.op?.symm.trans hop₁
  cases hpass.op?.symm.trans hop₀
  obtain rfl := Exec.of_perform_mov (by decide) hperform₀
  obtain rfl := Exec.of_perform_cmp hperform₁
  refine ⟨s₀, hs₀, hcursor₀, rfl, ?_⟩
  show Word.asBool (Word.ofBool (Word.asBool s₀.registers.rax == Word.asBool (Word.ofBool true))) = _
  rw [Word.asBool_ofBool, Word.asBool_ofBool, beq_true]

theorem ended (before : List Instruction) {op : Op} {comment : Option String}
    (hcode : test.code = before ++ [⟨op, comment⟩]) (hs : c.ReachesState g s)
    (hcursor : s.registers.cursor = start + test.code.length) : ∃ s₀ s₁ move,
      (Exec.perform g op).apply s₀ = (.ok move, s₁) ∧ s = s₁.at (start + test.code.length) := by
  have hlength : test.code.length = before.length + 1 := by rw [hcode, List.length_append, List.length_singleton]
  obtain ⟨name, length, hcontainsAt, -⟩ := h.containsAt
  have hlast := hcontainsAt.left.left
  rw [hlength] at hcursor ⊢
  obtain ⟨s₀, s₁, op', move, -, -, hop, hperform, heq⟩ := h.before hg (by omega) hs hcursor
  rw [hcode] at hlast
  cases hlast.right.op?.symm.trans hop
  exact ⟨s₀, s₁, move, hperform, heq⟩

/-- Behind a test that has code, the accumulator holds what the condition reads. -/
theorem reads (hr : Reachable g) (hn : g.nodeAt? id = some n) (hb : n.branch = some b)
    (hvoiced : ¬ValuelessCondition g n b) (hs : c.ReachesState g s)
    (hcursor : s.registers.cursor = start + test.code.length) :
    ∃ v, g.conditionIn s.memory n b = .ok v ∧ s.registers.rax = v.toWord := by
  have hcondition := h.condition
  unfold conditionIn
  simp only [outlineCondition] at hcondition
  split at hcondition
  next hnone =>
    cases hcondition
    obtain ⟨s₀, s₁, move, hperform, rfl⟩ := h.ended hg [] rfl hs hcursor
    obtain rfl := Exec.of_perform_mov (by decide) hperform
    rw [hnone]
    exact ⟨_, rfl, rfl⟩
  next r hr' =>
    obtain ⟨m, hm, hinternal, hkind⟩ := hr.hasLayouts.plain_of_branch hr.wellFormed.linksMatch hn hb (.inl rfl) hr'
    obtain ⟨m', hm', hcondition⟩ := bind_eq_ok.1 hcondition
    cases hm.symm.trans (node_eq_ok_iff.1 hm')
    rw [hr']
    rcases kind_cases hr hm hkind hinternal with hplain | ⟨hplain, hevaluated | ⟨-, hvaluelessCondition⟩⟩
    · rw [if_pos hplain] at hcondition
      cases hcondition
      obtain ⟨s₀, s₁, move, hperform, rfl⟩ := h.ended hg [] rfl hs hcursor
      obtain ⟨v, hread, hrax⟩ := Exec.of_perform_deref hperform
      exact ⟨v, hread, hrax⟩
    · rw [if_neg (Bool.eq_false_iff.1 hplain)] at hcondition
      obtain ⟨before, comment, hcode⟩ := exists_eval hm hkind hevaluated hcondition
      obtain ⟨s₀, s₁, move, hperform, rfl⟩ := h.ended hg before hcode hs hcursor
      obtain ⟨v, hread, hrax⟩ := Exec.of_perform_eval hm (hr.hasLayouts.id_eq hm) hplain hperform
      exact ⟨v, hread, hrax⟩
    · exact (hvoiced ⟨r, m, hr', hm', hvaluelessCondition⟩).elim

omit hg in
theorem code_eq_nil_of_valuelessCondition (hr : Reachable g) (hn : g.nodeAt? id = some n) (hb : n.branch = some b)
    (hvaluelessCondition : ValuelessCondition g n b) : test.code = [] := by
  obtain ⟨r, m, hr', hm, hkind⟩ := hvaluelessCondition
  have hcondition := h.condition
  obtain ⟨m', hm', -, hconditional⟩ := hr.hasLayouts.plain_of_branch hr.wellFormed.linksMatch hn hb (.inl rfl) hr'
  cases (node_eq_ok_iff.1 hm).symm.trans hm'
  have hplain : m.isVariableLike = false := by rcases hkind with hkind | hkind <;> simp [Node.isVariableLike, hkind]
  have hevaluated : m.isEvaluated = false := by
    rcases hkind with hkind | hkind <;> simp [Node.isEvaluated, Node.isInvokable, NodeKind.isInvokable, hkind]
  simp only [outlineCondition, hr', hm, ok_bind, hplain, Bool.false_eq_true, if_false] at hcondition
  exact code_eq_nil hr.wellFormed hr.hasLayouts hm' hconditional hplain hevaluated hcondition

omit h hg in
theorem exists_trueSide (hr : Reachable g) (h : TestAt g c n b start test onTrue beyond) (hn : g.nodeAt? id = some n)
    (hkind : n.kind.isConditional = true) : ∃ t, g.side? n .onTrue = .ok (some t) ∧
      g.outlineBlock (g.outlineWithin g.depthBound) t = .ok onTrue ∧ 0 < onTrue.code.length := by
  have hpartitions : n.kind.partitions? = some 2 := by
    rcases NodeKind.of_isConditional hkind with hkind | hkind | hkind <;> rw [hkind] <;> rfl
  obtain ⟨i, sc, hi, hscopeParts⟩ := hr.inventory.block (node_eq_ok_iff.2 hn) hpartitions
  obtain ⟨t, ht⟩ : ∃ t, sc.partitions[Side.onTrue.index]? = some t :=
    ⟨_, List.getElem?_eq_getElem (by rw [hscopeParts.parts]; decide)⟩
  have hside : g.side? n .onTrue = .ok (some t) := by
    rw [side?, hi]
    exact bind_eq_ok.2 ⟨sc, hscopeParts.live, congrArg Except.ok ht⟩
  have htrue := h.trueSide
  simp only [outlineTrueSide, hside, ok_bind] at htrue
  refine ⟨t, hside, htrue, ?_⟩
  simp only [outlineBlock, bind_eq_ok, pure_eq_ok] at htrue
  obtain ⟨q, -, rfl⟩ := htrue
  exact Nat.succ_pos _

/-- The jump leads to the line behind it or beyond the true side, and changes nothing else. -/
theorem advance_eq (hcursor : s.registers.cursor = start + test.code.length + 2) : beyond < c.size ∧ c.advance g s =
      (.ok (some (if Word.asBool s.registers.rax then start + test.code.length + 3 else beyond)), s) := by
  obtain ⟨name, length, hcontainsAt, hbeyond, hle⟩ := h.containsAt
  have hop : c.op? (start + test.code.length + 2) = some (.jne (length + 1)) := hcontainsAt.left.right.tail.tail.op?
  obtain ⟨target, htarget, hlt, -⟩ := (hg.lineKeepsStack _).target hop rfl
  have hinside : beyond < c.size := by omega
  refine ⟨hinside, ?_⟩
  have hperform : (Exec.perform g (.jne (length + 1))).apply s =
      (.ok (if Word.asBool s.registers.rax then .by 1 else .by (length + 1)), s) := rfl
  simp only [Code.advance, hcursor, hop, hperform]
  cases Word.asBool s.registers.rax with
  | true =>
    have hrange : 0 ≤ ((start + test.code.length + 2 : Nat) : Int) + 1 ∧
        ((start + test.code.length + 2 : Nat) : Int) + 1 ≤ c.size := by omega
    simp only [if_true, Move.target, if_pos hrange]
    rfl
  | false =>
    have hrange : 0 ≤ ((start + test.code.length + 2 : Nat) : Int) + (length + 1) ∧
        ((start + test.code.length + 2 : Nat) : Int) + (length + 1) ≤ c.size := by omega
    have hexit : ((start + test.code.length + 2 : Nat) + ((length : Int) + 1)).toNat = beyond := by omega
    simp only [Bool.false_eq_true, if_false, Move.target, if_pos hrange, hexit]

end TestAt

end Graph

namespace Machine

/-- In the midst of running the code, on its own or under the debugger, between two instructions. -/
inductive BetweenInstructions (g : Graph) (c : Code) : Machine → Prop
  | start {m m' : Machine} {mode : Mode} : m.program = some c → m.start mode = (m', .ok ()) → BetweenInstructions g c m'
  | debug {m m' : Machine} : m.program = some c → m.debug g = (m', .ok ()) → BetweenInstructions g c m'
  | step {m m' : Machine} : BetweenInstructions g c m → m.step g = (m', .ok true) → BetweenInstructions g c m'
  | stepOver {m m' : Machine} : BetweenInstructions g c m → m.stepOver g = (m', .ok true) → BetweenInstructions g c m'

/-- What the condition of a node reads now. -/
def conditionOf (g : Graph) (m : Machine) (n : Node) (b : Branch) : Except Fault (Option Value) :=
  match (n.slot? b.condition).bind Slot.first? with
  | some source => m.valueOf g source.node
  | none => .ok (some ((n.slot? b.condition).elim .void fun s => (n.property s.property).value))

/-- The next step leads to the line behind, if the word holds, or else to the line beyond. -/
def BranchesOn (g : Graph) (m : Machine) (beyond : Nat) (word : Word) : Prop :=
  ∃ m', m.step g = (m', .ok true) ∧ m'.cursor = if Word.asBool word then m.cursor + 1 else beyond

variable {g : Graph} {c : Code} {m m' : Machine}

theorem reachesState_step (hprogram : m.program = some c) (hreachesState : c.ReachesState g m.state)
    (h : m.step g = (m', .ok true)) :
    m'.program = some c ∧ c.ReachesState g m'.state := by
  obtain ⟨steps, hstep⟩ := step_eq (g := g) hprogram
  rw [h] at hstep
  rcases hadvance : c.advance g m.state with ⟨t | _ | target, s⟩
  · rw [hadvance] at hstep
    cases hstep
  · rw [hadvance] at hstep
    cases hstep
  · rw [hadvance] at hstep
    obtain rfl := (Prod.mk.inj hstep).1
    exact ⟨hprogram, hreachesState.step hadvance⟩

theorem BetweenInstructions.reachesState (h : BetweenInstructions g c m) :
    m.program = some c ∧ c.ReachesState g m.state := by
  have hstarted {m m' : Machine} {mode : Mode} (hprogram : m.program = some c) (hstart : m.start mode = (m', .ok ())) :
      m'.program = some c ∧ m'.state = {} := by
    obtain ⟨-, hbusy⟩ | ⟨-, hclear⟩ := start_eq hprogram mode
    · cases hbusy.symm.trans hstart
    · cases hclear.symm.trans hstart
      exact ⟨hprogram, rfl⟩
  induction h with
  | start hprogram hstart =>
    obtain ⟨hprogram', hstate⟩ := hstarted hprogram hstart
    exact ⟨hprogram', hstate ▸ .start⟩
  | @debug m m' hprogram hdebug =>
    unfold Machine.debug at hdebug
    split at hdebug
    next => cases hdebug
    next m₁ hstart =>
      obtain ⟨hprogram', hstate⟩ := hstarted hprogram hstart
      cases hdebug
      exact ⟨hprogram', hstate ▸ .start⟩
  | step _ hstep ih => exact reachesState_step ih.1 ih.2 hstep
  | @stepOver m m' _ hstep ih =>
    unfold Machine.stepOver at hstep
    split at hstep
    next => cases hstep
    next =>
      split at hstep
      next m₁ hstepped =>
        cases hstep
        obtain ⟨hprogram, hreachesState⟩ := reachesState_step ih.1 ih.2 hstepped
        unfold lookAhead
        split
        next => exact ⟨hprogram, hreachesState⟩
        next => exact ⟨hprogram, hreachesState⟩
      next r hother =>
        have hresult := congrArg Prod.snd hstep
        rw [(observed_settle _).1] at hresult
        exact (hother _ (Prod.ext rfl hresult)).elim

theorem branchesOn_of_advance {beyond target : Nat} {word : Word} (hprogram : m.program = some c)
    (hsize : c.size ≤ Code.limit) (hadvance : c.advance g m.state = (.ok (some target), m.state))
    (hlt : target < c.size) (htarget : target = if Word.asBool word then m.cursor + 1 else beyond) :
    m.BranchesOn g beyond word := by
  obtain ⟨steps, hstep⟩ := step_eq (g := g) hprogram
  rw [hadvance] at hstep
  dsimp only at hstep
  rw [decide_eq_true hlt] at hstep
  refine ⟨_, hstep, ?_⟩
  rw [← htarget]
  exact State.cursor_at (hlt.le.trans hsize)

theorem BetweenInstructions.stepsOver {k : Nat} (h : BetweenInstructions g c m) (hsteps : stepsOver g k m = some m') :
    BetweenInstructions g c m' := by
  induction k generalizing m with
  | zero =>
    cases hsteps
    exact h
  | succ k ih =>
    unfold Machine.stepsOver at hsteps
    split at hsteps
    next m₁ hstep => exact ih (.stepOver h hstep) hsteps
    next => cases hsteps

end Machine

namespace Graph

variable {g : Graph} {c : Code} {insertReturn : Bool}

/-- All branches go by what their conditions read. -/
def BranchesOnConditions (g : Graph) (c : Code) : Prop :=
  ∀ id n b onTrue beyond m, g.Decides c id m.cursor onTrue beyond → g.node id = .ok n → n.branch = some b →
    Machine.BetweenInstructions g c m → ∃ v, m.conditionOf g n b = .ok (some v) ∧ m.BranchesOn g beyond v.toWord

theorem conditionOf_eq {m : Machine} {n : Node} {b : Branch} {v : Value}
    (h : g.conditionIn m.state.memory n b = .ok v) :
    m.conditionOf g n b = .ok (some v) := by
  unfold conditionIn at h
  unfold Machine.conditionOf
  split at h
  next => simp only [Machine.valueOf, h]
  next =>
    cases h
    rfl

/-- Every jump that depends on a test is that of a conditional. It goes on into the true side, or leads beyond it, by
what the condition reads at that moment, unless the condition is linked to an instruction without a value: then it goes
by what has been in the accumulator before the comparison. -/
theorem branchesOn_condition (hr : Reachable g) (hcompile : g.compile insertReturn = .ok (.ok c)) :
    (∀ line offset, c.op? line = some (.jne offset) → ∃ id onTrue beyond, g.Decides c id line onTrue beyond) ∧
    ∀ id n b onTrue beyond m, g.Decides c id m.cursor onTrue beyond → g.node id = .ok n → n.branch = some b →
      Machine.BetweenInstructions g c m →
      (∃ t, g.side? n .onTrue = .ok (some t) ∧ g.outlineBlock (g.outlineWithin g.depthBound) t = .ok onTrue) ∧
      c.ContainsAt (m.cursor + 1) onTrue.code ∧ m.cursor + 1 < beyond ∧
      (¬ValuelessCondition g n b → ∃ v, m.conditionOf g n b = .ok (some v) ∧ m.BranchesOn g beyond v.toWord) ∧
      (ValuelessCondition g n b → ∃ s, c.ReachesState g s ∧ s.registers.cursor + 2 = m.cursor ∧
      s.memory = m.state.memory ∧
        m.BranchesOn g beyond s.registers.rax) := by
  have hg := hr.wellFormed
  have hl := hr.hasLayouts
  have hvalidCode := validCode_of_compile hr hcompile
  obtain ⟨q, hq, hc, hsize⟩ := outline_of_compile hcompile
  constructor
  · intro line offset hop
    exact lineOutlined_of_outline hg hl hq hc hop
  intro id n b onTrue beyond m hdecides hn hb hbetweenInstructions
  rw [node_eq_ok_iff] at hn
  obtain ⟨hprogram, hreachesState⟩ := hbetweenInstructions.reachesState
  obtain ⟨start, test, hcursor, htested⟩ := hdecides.testAt hg hl hq hc hn hb
  have hkind := hdecides.isConditional hl hn
  obtain ⟨t, hside, hblock, hlength⟩ := htested.exists_trueSide hr hn hkind
  obtain ⟨name, length, hcontainsAt, hbeyond, hle⟩ := htested.containsAt
  obtain ⟨hinside, hadvance⟩ := htested.advance_eq hvalidCode hcursor
  obtain ⟨s, hs, hs', hmemory, hsame⟩ := htested.compared hvalidCode hreachesState hcursor
  have hnext : start + test.code.length + 3 = m.cursor + 1 := by omega
  have hgoes {word : Word} (hword : Word.asBool s.registers.rax = Word.asBool word) : m.BranchesOn g beyond word := by
    rw [hsame, hword, hnext] at hadvance
    refine Machine.branchesOn_of_advance hprogram hsize hadvance ?_ rfl
    split
    next => omega
    next => exact hinside
  refine ⟨⟨t, hside, hblock⟩, ?_, by omega, ?_, ?_⟩
  · have htrue := hcontainsAt.right
    rw [List.length_append, length_passUnless, ← Nat.add_assoc, hnext] at htrue
    exact htrue
  · intro hvoiced
    obtain ⟨v, hv, hrax⟩ := htested.reads hvalidCode hr hn hb hvoiced hs hs'
    rw [hmemory] at hv
    exact ⟨v, conditionOf_eq hv, hgoes (congrArg Word.asBool hrax)⟩
  · intro hvaluelessCondition
    have hnil := htested.code_eq_nil_of_valuelessCondition hr hn hb hvaluelessCondition
    refine ⟨s, hs, ?_, hmemory, hgoes rfl⟩
    omega

/-- The variable 3 is 1 and the first on the path. The `if` 5 behind it has its condition from the empty instruction 4.
On its true side the variable 9 is declared, and the `if` 10 has its condition from that. -/
def hushed : Except Fault Graph := do
  let g ← create {} {} default {}
  let s ← g.rootScope
  [.declaration .int "x" s, .setValue ⟨3⟩ (.int 1), .emptyInstruction s, .conditional .ifElse s,
    .declaration .int "y" ⟨8⟩, .conditional .ifElse ⟨8⟩, .connect ⟨⟨1⟩, ⟨0⟩⟩ ⟨⟨3⟩, ⟨0⟩⟩ true,
    .connect ⟨⟨3⟩, ⟨1⟩⟩ ⟨⟨5⟩, ⟨0⟩⟩ true, .connect ⟨⟨5⟩, ⟨3⟩⟩ ⟨⟨9⟩, ⟨0⟩⟩ true,
    .connect ⟨⟨9⟩, ⟨1⟩⟩ ⟨⟨10⟩, ⟨0⟩⟩ true, .connect ⟨⟨4⟩, ⟨2⟩⟩ ⟨⟨5⟩, ⟨4⟩⟩ true,
    .connect ⟨⟨9⟩, ⟨3⟩⟩ ⟨⟨10⟩, ⟨4⟩⟩ true].foldlM perform g

def planOf (d : Declaration) : Plan := .seq (.sequence [.skip]) (.evaluate d.node d.name)

def hushedInner : Plan := .frame ⟨⟨13⟩, "if", []⟩ .skip

def hushedOuter : Plan := .frame ⟨⟨8⟩, "if", [⟨⟨9⟩, "y"⟩]⟩
  (.sequence [planOf ⟨⟨9⟩, "y"⟩, .choice "if" (.load ⟨9⟩ "y") hushedInner])

def hushedProgram : Program := ⟨⟨⟨2⟩, "entry point", [⟨⟨3⟩, "x"⟩]⟩,
  .sequence [planOf ⟨⟨3⟩, "x"⟩, .choice "if" (.seq (.sequence []) .skip) hushedOuter]⟩

def hushedCode : Code := .ofList (hushedProgram.code false)

def hushedAt (g : Graph) (line : Nat) : Option Machine :=
  Machine.stepsOver g line ((({} : Machine).load hushedCode).1.debug g).1

theorem hushed_reachable (h : hushed = .ok g) : Reachable g := by
  simp only [hushed, bind_eq_ok] at h
  obtain ⟨g₀, hcreate, s, -, h⟩ := h
  exact (Reachable.create hcreate).edits h

theorem hushed_compiles : ∃ g, hushed = .ok g ∧ g.compile false = .ok (.ok hushedCode) := by
  obtain ⟨g, hg⟩ := exists_of_isOk (x := hushed) (by decide +kernel)
  exact ⟨g, hg, eq_ok_of_toOption_bind (·.compile false) hg (by decide +kernel)⟩

theorem hushed_betweenInstructions {m : Machine} {line : Nat} (h : hushedAt g line = some m) :
    m.BetweenInstructions g hushedCode := by
  have hstart : Machine.BetweenInstructions g hushedCode ((({} : Machine).load hushedCode).1.debug g).1 :=
    @Machine.BetweenInstructions.debug g hushedCode (({} : Machine).load hushedCode).1 _ rfl rfl
  exact hstart.stepsOver h

theorem hushed_decides (hg : hushed = .ok g) : g.Decides hushedCode ⟨5⟩ 5 hushedOuter 17 ∧
    g.Decides hushedCode ⟨10⟩ 12 hushedInner 15 := by
  have hscopes := eq_ok_of_toOption_bind (fun g => do
    return ((← g.scope ⟨2⟩).declared, (← g.scope ⟨8⟩).declared, ← g.backbone ⟨2⟩, ← g.backbone ⟨8⟩)) hg
    (b := ([⟨3⟩], [⟨9⟩], [⟨3⟩] ++ [⟨5⟩], [⟨9⟩] ++ [⟨10⟩])) (by decide +kernel)
  have hplans := eq_ok_of_toOption_bind (fun g => do
    return (← [⟨3⟩].mapM (g.outlineWithin g.depthBound), ← g.outlineWithin g.depthBound ⟨5⟩,
      ← [⟨9⟩].mapM (g.outlineWithin g.depthBound), ← g.outlineWithin g.depthBound ⟨10⟩)) hg
    (b := ([planOf ⟨⟨3⟩, "x"⟩], .choice "if" (.seq (.sequence []) .skip) hushedOuter, [planOf ⟨⟨9⟩, "y"⟩],
      .choice "if" (.load ⟨9⟩ "y") hushedInner)) (by decide +kernel)
  simp only [bind_eq_ok, pure_eq_ok, Prod.mk.injEq] at hscopes hplans
  obtain ⟨outer, houter, inner, hinner, path, hpath, path', hpath', hdeclared, hdeclared', rfl, rfl⟩ := hscopes
  obtain ⟨before, hbefore, p, hp, before', hbefore', p', hp', rfl, rfl, rfl, rfl⟩ := hplans
  have hlowered := Lowered.inFrame (show hushedCode.op? 0 = _ from rfl) houter hpath hbefore hp
  have hlowered' := Lowered.inFrame (show hushedCode.op? 6 = _ from rfl) hinner hpath' hbefore' hp'
  rw [hdeclared] at hlowered
  rw [hdeclared'] at hlowered'
  exact ⟨.intro hlowered .choice, .intro hlowered' .choice⟩

/-- The `if` on a variable goes by its value, which is 0. -/
theorem branchesOn_hushed : ∃ (g : Graph) (n : Node) (b : Branch) (m : Machine), hushed = .ok g ∧ Reachable g ∧
    g.compile false = .ok (.ok hushedCode) ∧ g.Decides hushedCode ⟨10⟩ m.cursor hushedInner 15 ∧
    g.node ⟨10⟩ = .ok n ∧ n.branch = some b ∧ m.BetweenInstructions g hushedCode ∧ ¬ValuelessCondition g n b ∧
    m.conditionOf g n b = .ok (some (.int 0)) ∧ m.BranchesOn g 15 (Value.int 0).toWord := by
  obtain ⟨g, hg, hcompile⟩ := hushed_compiles
  have hmachine := eq_ok_of_toOption_bind (fun g => do
    let n ← g.node ⟨10⟩
    let b ← n.branch.elim (throw .endless) pure
    let m ← (hushedAt g 12).elim (throw .endless) pure
    let source ← g.node ⟨9⟩
    return ((n.slot? b.condition).bind Slot.first?, source.kind, m.cursor, ← m.conditionOf g n b)) hg
    (b := (some ⟨⟨9⟩, ⟨3⟩⟩, .variable, 12, some (.int 0))) (by decide +kernel)
  simp only [bind_eq_ok, elim_throw_eq_ok, pure_eq_ok, Prod.mk.injEq] at hmachine
  obtain ⟨n, hn, b, hb, m, hm, source, hsource, v, hv, hr, hkind, hcursor, rfl⟩ := hmachine
  have hdecides : g.Decides hushedCode ⟨10⟩ m.cursor hushedInner 15 := by
    rw [hcursor]
    exact (hushed_decides hg).2
  have hvoiced : ¬ValuelessCondition g n b := by
    rintro ⟨r, source', hr', hsource', hvaluelessCondition⟩
    cases hr.symm.trans hr'
    cases hsource.symm.trans hsource'
    rw [hkind] at hvaluelessCondition
    simp at hvaluelessCondition
  obtain ⟨-, -, -, hgoes, -⟩ := (branchesOn_condition (hushed_reachable hg) hcompile).2 _ n b _ _ m hdecides hn hb
    (hushed_betweenInstructions hm)
  obtain ⟨w, hw, hby⟩ := hgoes hvoiced
  cases hv.symm.trans hw
  exact ⟨g, n, b, m, hg, hushed_reachable hg, hcompile, hdecides, hn, hb,
    hushed_betweenInstructions hm, hvoiced, hv, hby⟩

/-- The `if` on the empty instruction goes by the variable that has been evaluated before it. -/
theorem not_branchesOnConditions_hushed : ∃ g, hushed = .ok g ∧ Reachable g ∧ g.compile false = .ok (.ok hushedCode) ∧
    ¬BranchesOnConditions g hushedCode := by
  obtain ⟨g, hg, hcompile⟩ := hushed_compiles
  refine ⟨g, hg, hushed_reachable hg, hcompile, fun hbranchesOnConditions => ?_⟩
  have hmachine := eq_ok_of_toOption_bind (fun g => do
    let n ← g.node ⟨5⟩
    let b ← n.branch.elim (throw .endless) pure
    let m ← (hushedAt g 5).elim (throw .endless) pure
    return (m.cursor, ← m.conditionOf g n b, (m.step g).1.cursor)) hg (b := (5, some .void, 6)) (by decide +kernel)
  simp only [bind_eq_ok, elim_throw_eq_ok, pure_eq_ok, Prod.mk.injEq] at hmachine
  obtain ⟨n, hn, b, hb, m, hm, v, hv, hcursor, rfl, hnext⟩ := hmachine
  have hdecides : g.Decides hushedCode ⟨5⟩ m.cursor hushedOuter 17 := by
    rw [hcursor]
    exact (hushed_decides hg).1
  obtain ⟨w, hw, m', hstep, hby⟩ := hbranchesOnConditions _ n b _ _ m hdecides hn hb (hushed_betweenInstructions hm)
  cases hv.symm.trans hw
  rw [hstep] at hnext
  cases hnext.symm.trans hby

end Graph

end FlowGraph
