import FlowGraph.Proofs.Evaluations
import FlowGraph.Proofs.Discipline

/-!
# Where jumps land

A jump of a plan's code stays inside the code, and the jumps around a part of it lead past the part or to its first
line. So a part is run from the start, like the plan it is a part of.
-/

namespace FlowGraph

open FlowGraph.Graph

def JumpsTo (is : List Instruction) (t : Int) : Prop :=
  ∃ (j : Nat) (i : Instruction) (offset : Int), is[j]? = some i ∧ i.op.offset? = some offset ∧ t = j + offset

def Op.IsStraight (op : Op) : Prop := op.offset? = none ∧ ∀ s, op ≠ .pushFrame s

def StraightLine (is : List Instruction) : Prop := ∀ i ∈ is, i.op.IsStraight

theorem Op.isStraight_mov {r : Register} {word : Word} : (Op.mov r word).IsStraight :=
  ⟨rfl, nofun⟩

theorem Op.isStraight_deref {id : NodeId} : (Op.deref id).IsStraight :=
  ⟨rfl, nofun⟩

theorem Op.isStraight_ret : Op.ret.IsStraight :=
  ⟨rfl, nofun⟩

section

variable {is l l' : List Instruction} {i : Instruction} {t : Int}

theorem not_jumpsTo_nil : ¬JumpsTo [] t := by
  rintro ⟨j, i, offset, hi, -⟩
  cases hi

theorem jumpsTo_append : JumpsTo (l ++ l') t ↔ JumpsTo l t ∨ JumpsTo l' (t - l.length) := by
  constructor
  · rintro ⟨j, i, offset, hi, hoffset, rfl⟩
    rw [List.getElem?_append] at hi
    split at hi
    next => exact .inl ⟨j, i, offset, hi, hoffset, rfl⟩
    next hle => exact .inr ⟨j - l.length, i, offset, hi, hoffset, by omega⟩
  · rintro (⟨j, i, offset, hi, hoffset, rfl⟩ | ⟨j, i, offset, hi, hoffset, ht⟩)
    · refine ⟨j, i, offset, ?_, hoffset, rfl⟩
      rw [List.getElem?_append_left (List.getElem?_eq_some_iff.1 hi).1, hi]
    · refine ⟨l.length + j, i, offset, ?_, hoffset, by omega⟩
      rw [List.getElem?_append_right (Nat.le_add_right _ _), Nat.add_sub_cancel_left, hi]

theorem jumpsTo_singleton : JumpsTo [i] t ↔ i.op.offset? = some t := by
  constructor
  · rintro ⟨j, i', offset, hi, hoffset, rfl⟩
    obtain ⟨hj, rfl⟩ := List.getElem?_eq_some_iff.1 hi
    obtain rfl : j = 0 := by simpa using hj
    simpa using hoffset
  · intro hoffset
    exact ⟨0, i, t, rfl, hoffset, by omega⟩

theorem jumpsTo_cons : JumpsTo (i :: is) t ↔ i.op.offset? = some t ∨ JumpsTo is (t - 1) := by
  rw [← List.singleton_append, jumpsTo_append, jumpsTo_singleton]
  rfl

theorem StraightLine.not_jumpsTo (h : StraightLine is) : ¬JumpsTo is t := by
  rintro ⟨j, i, offset, hi, hoffset, -⟩
  cases (h i (List.mem_of_getElem? hi)).1.symm.trans hoffset

theorem straightLine_nil : StraightLine [] := List.forall_mem_nil _

theorem StraightLine.append (h : StraightLine l) (h' : StraightLine l') : StraightLine (l ++ l') :=
  List.forall_mem_append.2 ⟨h, h'⟩

theorem straightLine_pushVars (ds : List Declaration) : StraightLine (pushVars ds) := by
  intro i hi
  obtain ⟨d, -, rfl⟩ := List.mem_map.1 hi
  exact ⟨rfl, nofun⟩

theorem straightLine_popVars (ds : List Declaration) : StraightLine (popVars ds) := by
  intro i hi
  obtain ⟨d, -, rfl⟩ := List.mem_map.1 hi
  exact ⟨rfl, nofun⟩

theorem straightLine_singleton (h : i.op.IsStraight) : StraightLine [i] := by
  intro j hj
  rwa [List.mem_singleton.1 hj]

theorem straightLine_closing (f : Frame) : StraightLine f.closing :=
  (straightLine_popVars f.declarations).append (straightLine_singleton ⟨rfl, nofun⟩)

theorem not_jumpsTo_opening (f : Frame) : ¬JumpsTo f.opening t := by
  rw [Frame.opening, jumpsTo_cons]
  rintro (hframe | hpush)
  · cases hframe
  · exact (straightLine_pushVars f.declarations).not_jumpsTo hpush

theorem Plan.Evaluates.straightLine {p : Plan} {xs : List NodeId} (h : p.Evaluates xs) : StraightLine p.code := by
  intro i hi
  have hmem : i.op ∈ xs.map Op.eval := h ▸ List.mem_map_of_mem hi
  obtain ⟨x, -, hx⟩ := List.mem_map.1 hmem
  rw [← hx]
  exact ⟨rfl, nofun⟩

namespace Plan

variable {name : String} {length : Nat}

theorem jumpsTo_passUnless : JumpsTo (passUnless name length) t ↔ t = length + 3 := by
  simp only [passUnless, jumpsTo_cons, Op.offset?, Option.some.injEq, not_jumpsTo_nil, reduceCtorEq, false_or, or_false]
  omega

theorem jumpsTo_jumpBack : JumpsTo [jumpBack length] t ↔ t = -length := by
  simp only [jumpBack, jumpsTo_singleton, Op.offset?, Option.some.injEq]
  omega

theorem jumpsTo_jumpPast : JumpsTo [jumpPast length] t ↔ t = length + 1 := by
  simp only [jumpPast, jumpsTo_singleton, Op.offset?, Option.some.injEq]
  omega

/-- No jump of a plan's code leads out of it. -/
theorem jumpsTo_code {p : Plan} (h : JumpsTo p.code t) : 0 ≤ t ∧ t ≤ p.code.length := by
  induction p generalizing t with
  | skip => exact (not_jumpsTo_nil h).elim
  | load | evaluate | constant =>
    rw [code, jumpsTo_singleton] at h
    cases h
  | seq first second ihFirst ihSecond =>
    simp only [code, jumpsTo_append, List.length_append] at h ⊢
    rcases h with h | h
    · have := ihFirst h
      omega
    · have := ihSecond h
      omega
  | frame f body ih =>
    simp only [code, jumpsTo_append, not_jumpsTo_opening, (straightLine_closing f).not_jumpsTo, false_or, or_false,
      List.length_append] at h ⊢
    have := ih h
    omega
  | loop name locals start test body step ihStart ihTest ihBody ihStep =>
    simp only [code, jumpsTo_append, (straightLine_pushVars locals).not_jumpsTo,
      (straightLine_popVars locals).not_jumpsTo,
      jumpsTo_passUnless, jumpsTo_jumpBack, false_or, or_false, List.length_append, length_passUnless,
      List.length_singleton] at h ⊢
    rcases h with (h | (h | h) | h | h) | h
    · have := ihStart h
      omega
    · have := ihTest h
      omega
    · omega
    · have := ihBody h
      omega
    · have := ihStep h
      omega
    · omega
  | choice name test onTrue ihTest ihTrue =>
    simp only [code, jumpsTo_append, jumpsTo_passUnless, List.length_append, length_passUnless] at h ⊢
    rcases h with (h | h) | h
    · have := ihTest h
      omega
    · omega
    · have := ihTrue h
      omega
  | choiceElse name test onTrue onFalse ihTest ihTrue ihFalse =>
    simp only [code, jumpsTo_append, jumpsTo_passUnless, jumpsTo_jumpPast, List.length_append, length_passUnless,
      List.length_singleton] at h ⊢
    rcases h with (((h | h) | h) | h) | h
    · have := ihTest h
      omega
    · omega
    · have := ihTrue h
      omega
    · omega
    · have := ihFalse h
      omega

end Plan

end

namespace Code

def NoJumpInto (c : Code) (line length : Nat) : Prop :=
  ∀ i op offset, c.op? i = some op → op.offset? = some offset → i < line ∨ line + length ≤ i →
    (i : Int) + offset ≤ line ∨ (line : Int) + length ≤ i + offset

variable {c : Code} {line : Nat} {is l m r : List Instruction}

theorem ContainsAt.op?_add (h : c.ContainsAt line is) {j : Nat} (hj : j < is.length) :
    c.op? (line + j) = is[j]?.map (·.op) := by
  obtain ⟨before, after, rfl, rfl⟩ := h
  rw [op?_ofList, List.append_assoc, List.getElem?_append_right (Nat.le_add_right _ _), Nat.add_sub_cancel_left,
    List.getElem?_append_left hj]

theorem noJumpInto_size (c : Code) : c.NoJumpInto 0 c.size := by
  intro i op offset hop _ hout
  have := lt_size_of_op? hop
  omega

theorem ContainsAt.jumpsTo (h : c.ContainsAt line is) {j : Nat} (hj : j < is.length) {op : Op} {offset : Int}
    (hop : c.op? (line + j) = some op) (hoffset : op.offset? = some offset) : JumpsTo is (j + offset) := by
  rw [h.op?_add hj, Option.map_eq_some_iff] at hop
  obtain ⟨i, hi, rfl⟩ := hop
  exact ⟨j, i, offset, hi, hoffset, rfl⟩

theorem NoJumpInto.part (h : c.NoJumpInto line (l ++ m ++ r).length) (hc : c.ContainsAt line (l ++ m ++ r))
    (hl : ∀ t, JumpsTo l t → t ≤ l.length ∨ l.length + m.length ≤ t)
    (hr : ∀ t, JumpsTo r t → 0 ≤ t ∨ t + m.length ≤ 0) : c.NoJumpInto (line + l.length) m.length := by
  intro i op offset hop hoffset hout
  have hlength : (l ++ m ++ r).length = l.length + m.length + r.length := by
    rw [List.length_append, List.length_append]
  have hmiddle : (l ++ m).length = l.length + m.length := List.length_append
  by_cases hbefore : line ≤ i ∧ i < line + l.length
  · obtain ⟨j, rfl⟩ := Nat.exists_eq_add_of_le hbefore.1
    have := hl _ (hc.left.left.jumpsTo (by omega) hop hoffset)
    omega
  by_cases hbehind : line + (l ++ m).length ≤ i ∧ i < line + (l ++ m ++ r).length
  · obtain ⟨j, rfl⟩ := Nat.exists_eq_add_of_le hbehind.1
    have := hr _ (hc.right.jumpsTo (by omega) hop hoffset)
    omega
  · have := h i op offset hop hoffset (by omega)
    omega

theorem NoJumpInto.middle (h : c.NoJumpInto line (l ++ m ++ r).length) (hc : c.ContainsAt line (l ++ m ++ r))
    (hl : ∀ t, ¬JumpsTo l t) (hr : ∀ t, ¬JumpsTo r t) : c.NoJumpInto (line + l.length) m.length :=
  h.part hc (fun t ht => (hl t ht).elim) fun t ht => (hr t ht).elim

theorem NoJumpInto.member {plans plans' : List Plan} {p : Plan}
    (h : c.NoJumpInto line ((Plan.sequence plans).code ++ p.code ++ (Plan.sequence plans').code).length)
    (hc : c.ContainsAt line ((Plan.sequence plans).code ++ p.code ++ (Plan.sequence plans').code)) :
    c.NoJumpInto (line + (Plan.sequence plans).code.length) p.code.length :=
  h.part hc (fun _ ht => .inl (Plan.jumpsTo_code ht).2) fun _ ht => .inl (Plan.jumpsTo_code ht).1

end Code

end FlowGraph
