import FlowGraph.Proofs.Circles
import Mathlib.Data.List.Duplicate
import Mathlib.Data.List.ReduceOption
import Mathlib.Data.Set.Card

/-!
# Evaluations of a sequential program

Where control goes straight on, code is a list of evaluations between a frame's opening and closing. Each node is
evaluated for the path if it is on it, and once more for every input that takes its value from it: the code has an
evaluation for each node that needs one exactly if no value is shared.
-/

namespace FlowGraph

open Relation

def Op.evaluated? : Op → Option NodeId
  | eval node => some node
  | _ => none

/-- The nodes that are evaluated, line by line. -/
def Code.evaluations (c : Code) : List NodeId := c.instructions.toList.filterMap (·.op.evaluated?)

def Node.isEvaluated (n : Node) : Bool := n.isInvokable || n.kind == .variable || n.kind == .literal

theorem Node.Layout.reads (l : Layout) (fanIn : Nat) (id : NodeId) : (l.build fanIn id).filterSlots .input = [] ∨
    l.kind.isConditional = true ∨ l.kind.isInvokable = true ∨ l.kind = .variable ∨ l.kind = .variableRef := by
  cases l with
  | plain | emptyInstruction | entryPoint | literal => exact .inl rfl
  | declaration => exact .inr (.inr (.inr (.inl rfl)))
  | reference => exact .inr (.inr (.inr (.inr rfl)))
  | invokable kind signature callable => exact .inr (.inr (.inl callable))
  | conditional c => exact .inr (.inl (by cases c <;> rfl))

namespace Plan

def Evaluates (p : Plan) (xs : List NodeId) : Prop := p.code.map (·.op) = xs.map .eval

theorem evaluates_sequence {α : Type} {plan : α → Except Fault Plan} {visit : α → List NodeId} {as : List α}
    {plans : List Plan} (h : as.mapM plan = .ok plans)
    (hvisit : ∀ a ∈ as, ∀ p, plan a = .ok p → p.Evaluates (visit a)) :
    (sequence plans).Evaluates (as.flatMap visit) := by
  rw [mapM_eq_ok_iff] at h
  induction h with
  | nil => rfl
  | cons hp _ ih =>
    have hfirst := hvisit _ List.mem_cons_self _ hp
    have hrest := ih fun a ha => hvisit a (List.mem_cons_of_mem _ ha)
    unfold Evaluates at hfirst hrest ⊢
    rw [sequence, code, List.map_append, hfirst, hrest, List.flatMap_cons, List.map_append]

end Plan

namespace Graph

def TakesInput (g : Graph) (y : NodeId) (i : Nat) (x : NodeId) : Prop :=
  ∃ n m slot r, g.node y = .ok n ∧ (n.filterSlots .input)[i]? = some slot ∧ slot.first? = some r ∧ r.node = x ∧
    g.node x = .ok m ∧ m.isVariableLike = false

def FeedsPath (g : Graph) (path : List NodeId) (x : NodeId) : Prop := ∃ z ∈ path, ReflTransGen (Feeds g) x z

/-- On the path or run for what is, and of a kind that is evaluated. -/
def EvaluatedFor (g : Graph) (path : List NodeId) (x : NodeId) : Prop :=
  FeedsPath g path x ∧ ∃ n, g.node x = .ok n ∧ n.isEvaluated = true

/-- There are two occasions to run `x`. -/
inductive RunTwice (g : Graph) (path : List NodeId) (x : NodeId) : Prop
  | onPath {y : NodeId} {i : Nat} : x ∈ path → FeedsPath g path y → TakesInput g y i x → RunTwice g path x
  | twice {y y' : NodeId} {i i' : Nat} : FeedsPath g path y → FeedsPath g path y' → TakesInput g y i x →
      TakesInput g y' i' x →
      (y, i) ≠ (y', i') → RunTwice g path x

def source? (g : Graph) (slot : Slot) : Option NodeId :=
  slot.first?.bind fun r => (g.nodeAt? r.node).bind fun m => if m.isVariableLike then none else some r.node

def ports (g : Graph) (x : NodeId) : List (Option NodeId) :=
  ((g.nodeAt? x).map fun n => (n.filterSlots .input).map g.source?).getD []

def operands (g : Graph) (x : NodeId) : List NodeId := (g.ports x).reduceOption

def visits (g : Graph) : Nat → NodeId → List NodeId
  | 0, _ => []
  | k + 1, x => (g.operands x).flatMap (g.visits k) ++ [x]

def evaluates (g : Graph) (x : NodeId) : Bool := (g.nodeAt? x).any Node.isEvaluated

variable {g : Graph} {x y : NodeId} {n m : Node} {k : Nat} {path : List NodeId}

theorem source?_eq_some_iff {slot : Slot} : g.source? slot = some x ↔
    ∃ r m, slot.first? = some r ∧ r.node = x ∧ g.nodeAt? x = some m ∧ m.isVariableLike = false := by
  simp only [source?, Option.bind_eq_some_iff]
  constructor
  · rintro ⟨r, hr, m, hm, h⟩
    split at h
    next => cases h
    next hreads =>
      cases h
      exact ⟨r, m, hr, rfl, hm, Bool.eq_false_iff.2 hreads⟩
  · rintro ⟨r, m, hr, rfl, hm, hreads⟩
    exact ⟨r, hr, m, hm, by rw [hreads]; rfl⟩

theorem takesInput_iff {i : Nat} : TakesInput g y i x ↔ (g.ports y)[i]? = some (some x) := by
  simp only [TakesInput, node_eq_ok_iff, ports]
  constructor
  · rintro ⟨n, m, slot, r, hn, hslot, hr, rfl, hm, hreads⟩
    rw [hn, Option.map_some, Option.getD_some, List.getElem?_map, hslot, Option.map_some,
      source?_eq_some_iff.2 ⟨r, m, hr, rfl, hm, hreads⟩]
  · intro h
    cases hn : g.nodeAt? y with
    | none =>
      rw [hn] at h
      cases h
    | some n =>
      rw [hn, Option.map_some, Option.getD_some, List.getElem?_map, Option.map_eq_some_iff] at h
      obtain ⟨slot, hslot, h⟩ := h
      obtain ⟨r, m, hr, hx, hm, hreads⟩ := source?_eq_some_iff.1 h
      exact ⟨n, m, slot, r, rfl, hslot, hr, hx, hm, hreads⟩

theorem mem_operands : x ∈ g.operands y ↔ ∃ i, TakesInput g y i x := by
  rw [operands, List.reduceOption_mem_iff, List.mem_iff_getElem?]
  simp only [takesInput_iff]

theorem feeds_iff (hn : g.nodeAt? y = some n) (hkind : n.kind.isConditional = false) :
    Feeds g x y ↔ x ∈ g.operands y := by
  simp only [mem_operands, TakesInput, Feeds, node_eq_ok_iff]
  constructor
  · rintro ⟨n', m, slot, r, hn', -, hslot, h⟩
    obtain ⟨i, hi⟩ := List.getElem?_of_mem hslot
    exact ⟨i, n', m, slot, r, hn', hi, h⟩
  · rintro ⟨i, n', m, slot, r, hn', hslot, h⟩
    cases hn.symm.trans hn'
    exact ⟨n, m, slot, r, hn, hkind, List.mem_of_getElem? hslot, h⟩

theorem operands_eq (hn : g.nodeAt? x = some n) :
    g.operands x = ((n.filterSlots .input).map g.source?).reduceOption := by
  rw [operands, ports, hn, Option.map_some, Option.getD_some]

theorem flatMap_operands (hn : g.nodeAt? x = some n) (visit : NodeId → List NodeId) :
    (g.operands x).flatMap visit = (n.filterSlots .input).flatMap fun slot => (g.source? slot).elim [] visit := by
  rw [operands_eq hn]
  induction n.filterSlots .input with
  | nil => rfl
  | cons slot slots ih =>
    rw [List.map_cons, List.flatMap_cons, ← ih]
    cases g.source? slot with
    | none => rfl
    | some y => rfl

theorem evaluates_outlineWithin (hg : WellFormed g) (hl : HasLayouts g) {p : Plan} (hn : g.nodeAt? x = some n)
    (hkind : n.kind.isConditional = false) (h : g.outlineWithin k x = .ok p) :
    p.Evaluates ((g.visits k x).filter g.evaluates) := by
  induction k generalizing x n p with
  | zero => cases h
  | succ k ih =>
    rw [outlineWithin_simple hn hkind] at h
    simp only [outlineSimple, bind_eq_ok, pure_eq_ok] at h
    obtain ⟨plans, hplans, rfl⟩ := h
    have hoperands : (Plan.sequence plans).Evaluates (((g.operands x).flatMap (g.visits k)).filter g.evaluates) := by
      rw [flatMap_operands hn, List.filter_flatMap]
      refine Plan.evaluates_sequence hplans fun slot hslot q hq => ?_
      simp only [outlineOperand] at hq
      split at hq
      next hnone =>
        cases hq
        rw [source?, hnone]
        rfl
      next r hr =>
        obtain ⟨m, hm, hq⟩ := bind_eq_ok.1 hq
        rw [node_eq_ok_iff] at hm
        obtain ⟨m', hm', -, hplain⟩ := hl.plain_of_input hg.linksMatch hn (Node.mem_inputs_of_first hslot hr)
        split at hq
        next hreads =>
          cases hq
          rw [source?, hr, Option.bind_some, hm, Option.bind_some, if_pos hreads]
          rfl
        next hreads =>
          rw [source?_eq_some_iff.2 ⟨r, m, hr, rfl, hm, Bool.eq_false_iff.2 hreads⟩]
          exact ih hm' hplain hq
    have hself : g.evaluates x = n.isEvaluated := by rw [evaluates, hn, Option.any_some]
    unfold Plan.Evaluates at hoperands ⊢
    rw [Plan.code, List.map_append, hoperands, visits, List.filter_append, List.map_append, List.append_right_inj]
    show (if n.isEvaluated then Plan.evaluate x n.name else Plan.skip).code.map (·.op) = _
    by_cases hevaluated : n.isEvaluated = true
    · rw [if_pos hevaluated, List.filter_singleton, hself, hevaluated]
      rfl
    · rw [if_neg hevaluated, List.filter_singleton, hself, Bool.eq_false_iff.2 hevaluated]
      rfl

theorem perm_unfold {visit next : NodeId → List NodeId} {xs : List NodeId}
    (h : ∀ x ∈ xs, (visit x).Perm (x :: (visit x).flatMap next)) :
    (xs.flatMap visit).Perm (xs ++ (xs.flatMap visit).flatMap next) := by
  induction xs with
  | nil => exact .refl _
  | cons x xs ih =>
    have hfirst := h x List.mem_cons_self
    have hrest := ih fun x hx => h x (List.mem_cons_of_mem _ hx)
    rw [List.flatMap_cons, List.flatMap_append, List.cons_append]
    exact (hfirst.append hrest).trans (.cons x (List.perm_append_comm_assoc _ _ _))

theorem perm_visits (hg : WellFormed g) (hl : HasLayouts g) {p : Plan} (hn : g.nodeAt? x = some n)
    (hkind : n.kind.isConditional = false) (h : g.outlineWithin k x = .ok p) :
    (g.visits k x).Perm (x :: (g.visits k x).flatMap g.operands) := by
  induction k generalizing x n p with
  | zero => cases h
  | succ k ih =>
    have hoperands : ∀ y ∈ g.operands x, (g.visits k y).Perm (y :: (g.visits k y).flatMap g.operands) := by
      intro y hy
      have hfeeds := (feeds_iff hn hkind).2 hy
      obtain ⟨m, hm, -, hplain⟩ := hfeeds.plain hg hl
      obtain ⟨q, hq⟩ := exists_of_outlineUses hl h (.operand hfeeds)
      exact ih hm hplain hq
    have hall := perm_unfold hoperands
    rw [visits, List.flatMap_append, List.flatMap_singleton]
    exact (List.perm_append_singleton x _).trans (.cons x (hall.trans List.perm_append_comm))

theorem operand_of_feeds (h : Feeds g x y) : x ∈ g.operands y := by
  obtain ⟨n, m, slot, r, hn, hkind, h⟩ := h
  exact (feeds_iff (node_eq_ok_iff.1 hn) hkind).1 ⟨n, m, slot, r, hn, hkind, h⟩

theorem feedsPath_of_mem (h : x ∈ path) : FeedsPath g path x := ⟨x, h, .refl⟩

theorem reaches_of_mem_visits (hg : WellFormed g) (hl : HasLayouts g) (hn : g.nodeAt? y = some n)
    (hkind : n.kind.isConditional = false) (h : x ∈ g.visits k y) : ReflTransGen (Feeds g) x y := by
  induction k generalizing y n with
  | zero => cases h
  | succ k ih =>
    rcases List.mem_append.1 h with h | h
    · obtain ⟨z, hz, h⟩ := List.mem_flatMap.1 h
      have hfeeds := (feeds_iff hn hkind).2 hz
      obtain ⟨m, hm, -, hplain⟩ := hfeeds.plain hg hl
      exact (ih hm hplain h).tail hfeeds
    · rw [List.mem_singleton.1 h]

theorem evaluates_iff : g.evaluates x = true ↔ ∃ n, g.node x = .ok n ∧ n.isEvaluated = true := by
  simp only [evaluates, Option.any_eq_true, node_eq_ok_iff]

theorem duplicate_reduceOption (l : List (Option NodeId)) : l.reduceOption.Duplicate x ↔ l.Duplicate (some x) := by
  induction l with
  | nil => simp
  | cons a l ih =>
    cases a with
    | none => simp [List.reduceOption_cons_of_none, List.duplicate_cons_iff, ih]
    | some y => simp [List.reduceOption_cons_of_some, List.duplicate_cons_iff, List.reduceOption_mem_iff, ih]

/-- An operand that is run twice is the value of two inputs. -/
theorem two_le_count_operands_iff :
    2 ≤ (g.operands y).count x ↔ ∃ i i', i ≠ i' ∧ TakesInput g y i x ∧ TakesInput g y i' x := by
  rw [← List.duplicate_iff_two_le_count, operands, duplicate_reduceOption, List.duplicate_iff_exists_distinct_get]
  simp only [takesInput_iff, List.getElem?_eq_some_iff]
  constructor
  · rintro ⟨i, i', hlt, hi, hi'⟩
    exact ⟨i, i', Nat.ne_of_lt hlt, ⟨i.2, hi.symm⟩, i'.2, hi'.symm⟩
  · rintro ⟨i, i', hne, ⟨hi, hx⟩, hi', hx'⟩
    rcases Nat.lt_or_gt_of_ne hne with hlt | hlt
    · exact ⟨⟨i, hi⟩, ⟨i', hi'⟩, hlt, hx.symm, hx'.symm⟩
    · exact ⟨⟨i', hi'⟩, ⟨i, hi⟩, hlt, hx'.symm, hx.symm⟩

theorem HasLayouts.reader (h : HasLayouts g) (hn : g.nodeAt? y = some n) (hkind : n.kind.isConditional = false)
    (hx : x ∈ g.operands y) : n.isEvaluated = true ∨ n.isVariableLike = true := by
  obtain ⟨l, hshape⟩ := h.shaped hn
  have hkind' : n.kind = l.kind := (Node.of_shape hshape).2.1.trans l.kind_build
  rcases l.reads g.config.fanIn y with hnone | hreads
  · have hempty : n.filterSlots .input = [] := by
      rw [← List.length_eq_zero_iff, Node.length_filterSlots_of_shape hshape rfl, hnone]
      rfl
    rw [operands_eq hn, hempty] at hx
    cases hx
  · rw [← hkind'] at hreads
    rcases hreads with hconditional | hinvokable | hvariable | hreference
    · cases hkind.symm.trans hconditional
    · exact .inl (by rw [Node.isEvaluated, Node.isInvokable, hinvokable]; rfl)
    · exact .inr (by rw [Node.isVariableLike, hvariable]; rfl)
    · exact .inr (by rw [Node.isVariableLike, hreference]; rfl)

section

variable {visited : List NodeId} (hperm : visited.Perm (path ++ visited.flatMap g.operands))
variable (hvisited : ∀ x, x ∈ visited ↔ FeedsPath g path x)

include hperm in
theorem count_visited (x : NodeId) : visited.count x = path.count x + (visited.flatMap g.operands).count x := by
  rw [hperm.count_eq, List.count_append]

include hvisited in
theorem count_operands_le {ys : List NodeId} (hnodup : ys.Nodup) (hys : ∀ y ∈ ys, FeedsPath g path y) :
    (ys.flatMap g.operands).count x ≤ (visited.flatMap g.operands).count x := by
  obtain ⟨ys', hys', hsublist⟩ := List.subperm_of_subset hnodup fun y hy => (hvisited y).2 (hys y hy)
  rw [← (hys'.flatMap_right _).count_eq]
  exact (hsublist.flatMap g.operands).count_le x

include hperm hvisited in
theorem not_runTwice (h : visited.count x ≤ 1) : ¬RunTwice g path x := by
  rw [count_visited hperm] at h
  have hreader {y : NodeId} {i : Nat} (htakesInput : TakesInput g y i x) : 1 ≤ (g.operands y).count x :=
    List.one_le_count_iff.2 (mem_operands.2 ⟨i, htakesInput⟩)
  intro hshared
  cases hshared with
  | @onPath y i hx hy htakesInput =>
    have hpath : 1 ≤ path.count x := List.one_le_count_iff.2 hx
    have hle := count_operands_le (x := x) hvisited (List.nodup_singleton y) (List.forall_mem_singleton.2 hy)
    have hone := hreader htakesInput
    rw [List.flatMap_singleton] at hle
    omega
  | @twice y y' i i' hy hy' htakesInput htakesInput' hne =>
    -- two inputs of one node count within its own operands, those of two nodes in a sum
    by_cases hreaders : y = y'
    · subst hreaders
      have htwice := two_le_count_operands_iff.2 ⟨i, i', fun hi => hne (congrArg _ hi), htakesInput, htakesInput'⟩
      have hle := count_operands_le (x := x) hvisited (List.nodup_singleton y) (List.forall_mem_singleton.2 hy)
      rw [List.flatMap_singleton] at hle
      omega
    · have hle := count_operands_le (x := x) hvisited (List.nodup_cons.2
        ⟨mt List.mem_singleton.1 hreaders, List.nodup_singleton y'⟩)
        (List.forall_mem_cons.2 ⟨hy, List.forall_mem_singleton.2 hy'⟩)
      have hone := hreader htakesInput
      have hone' := hreader htakesInput'
      rw [List.flatMap_cons, List.flatMap_singleton, List.count_append] at hle
      omega

omit hperm hvisited in
theorem count_flatMap_of_unique {l : List NodeId} {f : NodeId → List NodeId} (h : ∀ z ∈ l, x ∈ f z → z = y) :
    (l.flatMap f).count x = l.count y * (f y).count x := by
  rw [List.count_flatMap, List.sum_map_eq_nsmul_single y]
  · rfl
  · intro z hne hz
    exact List.count_eq_zero.2 fun hx => hne (h z hz hx)

omit hperm hvisited in
theorem evaluatedFor_of_takesInput {i : Nat} (hn : g.nodeAt? x = some n) (hx : FeedsPath g path x)
    (hkind : n.isEvaluated = true ∨ n.isVariableLike = true) (htakesInput : TakesInput g y i x) :
    EvaluatedFor g path x := by
  obtain ⟨-, m, -, -, -, -, -, -, hm, hreads⟩ := htakesInput
  cases hn.symm.trans (node_eq_ok_iff.1 hm)
  refine ⟨hx, n, node_eq_ok_iff.2 hn, hkind.resolve_right ?_⟩
  rw [hreads]
  nofun

section

variable (hnodup : path.Nodup) (hnot : ∀ x, EvaluatedFor g path x → ¬RunTwice g path x)

include hperm hvisited hnodup hnot

theorem count_le_one_of_mem (hn : g.nodeAt? x = some n) (hx : x ∈ path)
    (hkind : n.isEvaluated = true ∨ n.isVariableLike = true) : visited.count x ≤ 1 := by
  have hfree : (visited.flatMap g.operands).count x = 0 := by
    refine List.count_eq_zero.2 fun hmem => ?_
    obtain ⟨y, hy, hmem⟩ := List.mem_flatMap.1 hmem
    obtain ⟨i, htakesInput⟩ := mem_operands.1 hmem
    exact hnot x (evaluatedFor_of_takesInput hn (feedsPath_of_mem hx) hkind htakesInput)
      (.onPath hx ((hvisited y).1 hy) htakesInput)
  rw [count_visited hperm, hfree]
  exact List.nodup_iff_count_le_one.1 hnodup x

/-- A node that is not run on two occasions is run as often as the one that it is run for, and that is once. -/
theorem count_le_one (hl : HasLayouts g) (hn : g.nodeAt? x = some n) (hx : FeedsPath g path x)
    (hkind : n.isEvaluated = true ∨ n.isVariableLike = true) : visited.count x ≤ 1 := by
  obtain ⟨z, hz, hreach⟩ := id hx
  induction hreach using ReflTransGen.head_induction_on generalizing n with
  | refl => exact count_le_one_of_mem hperm hvisited hnodup hnot hn hz hkind
  | @head x y hfeeds hreach ih =>
    by_cases hpath : x ∈ path
    · exact count_le_one_of_mem hperm hvisited hnodup hnot hn hpath hkind
    have hy : FeedsPath g path y := ⟨z, hz, hreach⟩
    obtain ⟨m, hm, hplain⟩ : ∃ m, g.nodeAt? y = some m ∧ m.kind.isConditional = false := by
      obtain ⟨m, -, -, -, hm, hplain, -⟩ := id hfeeds
      exact ⟨m, node_eq_ok_iff.1 hm, hplain⟩
    have hmem := operand_of_feeds hfeeds
    obtain ⟨i, htakesInput⟩ := mem_operands.1 hmem
    have hneeded := evaluatedFor_of_takesInput hn hx hkind htakesInput
    have hunique : ∀ y' ∈ visited, x ∈ g.operands y' → y' = y := by
      intro y' hy' hmem'
      obtain ⟨i', htakesInput'⟩ := mem_operands.1 hmem'
      by_contra hne
      exact hnot x hneeded (.twice ((hvisited y').1 hy') hy htakesInput' htakesInput fun h => hne (congrArg Prod.fst h))
    have honce : (g.operands y).count x ≤ 1 := by
      by_contra htwice
      obtain ⟨i, i', hne, htakesInput, htakesInput'⟩ := two_le_count_operands_iff.1 (Nat.lt_of_not_le htwice)
      exact hnot x hneeded (.twice hy hy htakesInput htakesInput' fun h => hne (congrArg Prod.snd h))
    rw [count_visited hperm, List.count_eq_zero.2 hpath, count_flatMap_of_unique hunique, Nat.zero_add]
    exact Nat.mul_le_mul (ih hm hy (hl.reader hm hplain hmem)) honce

end

include hperm hvisited in
theorem nodup_visited_iff (hl : HasLayouts g) (hnodup : path.Nodup) :
    (visited.filter g.evaluates).Nodup ↔ ∀ x, EvaluatedFor g path x → ¬RunTwice g path x := by
  rw [List.nodup_iff_count_le_one]
  constructor
  · rintro h x ⟨-, hx⟩
    have hle := h x
    rw [List.count_filter (evaluates_iff.2 hx)] at hle
    exact not_runTwice hperm hvisited hle
  · intro hnot x
    by_cases hx : g.evaluates x = true
    · rw [List.count_filter hx]
      obtain ⟨n, hn, hevaluated⟩ := evaluates_iff.1 hx
      by_cases hmem : x ∈ visited
      · exact count_le_one hperm hvisited hnodup hnot hl (node_eq_ok_iff.1 hn) ((hvisited x).1 hmem) (.inl hevaluated)
      · rw [List.count_eq_zero.2 hmem]
        exact Nat.zero_le 1
    · rw [List.count_eq_zero.2 fun hmem => hx (List.mem_filter.1 hmem).2]
      exact Nat.zero_le 1

end

theorem evaluated_pushVars (ds : List Declaration) : (pushVars ds).filterMap (·.op.evaluated?) = [] := by
  simp [pushVars, Op.evaluated?, List.filterMap_map]

theorem evaluated_popVars (ds : List Declaration) : (popVars ds).filterMap (·.op.evaluated?) = [] := by
  simp [popVars, Op.evaluated?, List.filterMap_map]

theorem evaluations_of_body {p : Program} {xs : List NodeId} (h : p.body.Evaluates xs) (insertReturn : Bool) :
    (Code.ofList (p.code insertReturn)).evaluations = xs := by
  have hbody : p.body.code.filterMap (·.op.evaluated?) = xs := by
    have hops := congrArg (List.filterMap Op.evaluated?) h
    rw [List.filterMap_map, List.filterMap_map] at hops
    exact hops.trans (List.filterMap_some)
  simp only [Code.evaluations, Code.ofList, Program.code, Frame.opening, Frame.closing, List.filterMap_append,
    List.filterMap_cons, evaluated_pushVars, evaluated_popVars, hbody]
  cases insertReturn <;> simp [Op.evaluated?]

theorem length_of_body {p : Program} {xs : List NodeId} (h : p.body.Evaluates xs) (insertReturn : Bool) :
    (p.code insertReturn).length = 1 + p.frame.declarations.length + xs.length + p.frame.declarations.length + 1 +
      if insertReturn then 1 else 0 := by
  have hbody : p.body.code.length = xs.length := by simpa using congrArg List.length h
  simp only [Program.code, Frame.opening, Frame.closing, pushVars, popVars, List.length_append, List.length_cons,
    List.length_map, List.length_reverse, List.length_nil, hbody]
  cases insertReturn <;> simp <;> omega

/-- A plan of a path without conditionals runs what is involved, and evaluates what of it is to be evaluated. -/
theorem straight_path (hg : WellFormed g) (hl : HasLayouts g) {s : ScopeId} {plans : List Plan}
    (hpath : g.backbone s = .ok path) (hstraight : ∀ x ∈ path, ∀ n, g.node x = .ok n → n.kind.isConditional = false)
    (hplans : path.mapM (g.outlineWithin k) = .ok plans) : ∃ visited : List NodeId,
      (Plan.sequence plans).Evaluates (visited.filter g.evaluates) ∧
      visited.Perm (path ++ visited.flatMap g.operands) ∧ ∀ x, x ∈ visited ↔ FeedsPath g path x := by
  have hnode : ∀ x ∈ path, ∃ n, g.nodeAt? x = some n ∧ n.kind.isConditional = false := by
    intro x hx
    obtain ⟨n, hn, -⟩ := backbone_scope hg.scopesMatchNodes hpath x hx
    exact ⟨n, hn, hstraight x hx n (node_eq_ok_iff.2 hn)⟩
  have hperm : (path.flatMap (g.visits k)).Perm (path ++ (path.flatMap (g.visits k)).flatMap g.operands) := by
    refine perm_unfold fun x hx => ?_
    obtain ⟨n, hn, hkind⟩ := hnode x hx
    obtain ⟨p, -, hp⟩ := exists_of_mem_mapM hplans hx
    exact perm_visits hg hl hn hkind hp
  refine ⟨path.flatMap (g.visits k), ?_, hperm, fun x => ⟨fun hx => ?_, ?_⟩⟩
  · rw [List.filter_flatMap]
    refine Plan.evaluates_sequence hplans fun x hx p hp => ?_
    obtain ⟨n, hn, hkind⟩ := hnode x hx
    exact evaluates_outlineWithin hg hl hn hkind hp
  · obtain ⟨z, hz, hx⟩ := List.mem_flatMap.1 hx
    obtain ⟨n, hn, hkind⟩ := hnode z hz
    exact ⟨z, hz, reaches_of_mem_visits hg hl hn hkind hx⟩
  · rintro ⟨z, hz, hreach⟩
    induction hreach using ReflTransGen.head_induction_on with
    | refl => exact hperm.mem_iff.2 (List.mem_append_left _ hz)
    | @head x y hfeeds _ ih =>
      exact hperm.mem_iff.2 (List.mem_append_right _ (List.mem_flatMap.2 ⟨y, ih, operand_of_feeds hfeeds⟩))

section

variable {insertReturn : Bool} {c : Code} {s : ScopeId} {sc : Scope} (hr : Reachable g)
variable (hcompile : g.compile insertReturn = .ok (.ok c)) (hs : g.rootScope = .ok s) (hsc : g.scope s = .ok sc)
variable (hpath : g.backbone s = .ok path)
variable (hstraight : ∀ x ∈ path, ∀ n, g.node x = .ok n → n.kind.isConditional = false)

include hr hcompile hs hsc hpath hstraight

theorem straight_program : (∀ x, x ∈ c.evaluations ↔ EvaluatedFor g path x) ∧
    c.size = 1 + sc.declared.length + c.evaluations.length + sc.declared.length + 1 + (if insertReturn then 1 else 0) ∧
    (c.evaluations.Nodup ↔ ∀ x, EvaluatedFor g path x → ¬RunTwice g path x) := by
  obtain ⟨p, hp, rfl, -⟩ := outline_of_compile hcompile
  simp only [outline, outlineScope, hs, hsc, hpath, ok_bind, bind_eq_ok, pure_eq_ok] at hp
  obtain ⟨owner, -, ds, hds, plans, hplans, rfl⟩ := hp
  obtain ⟨visited, hevaluates, hperm, hvisited⟩ := straight_path hr.wellFormed hr.hasLayouts hpath hstraight hplans
  have hevaluations := evaluations_of_body (p := ⟨⟨s, owner.name, ds⟩, .sequence plans⟩) hevaluates insertReturn
  have hlength : ds.length = sc.declared.length := by rw [← (nodes_of_declarations hds).1, List.length_map]
  refine ⟨fun x => ?_, ?_, ?_⟩
  · rw [hevaluations, List.mem_filter, hvisited, evaluates_iff]
    rfl
  · rw [hevaluations, Code.size_ofList, length_of_body hevaluates, hlength]
  · rw [hevaluations]
    exact nodup_visited_iff hperm hvisited hr.hasLayouts (backbone_nodup hpath)

theorem ncard_evaluatedFor : {x | EvaluatedFor g path x}.ncard = c.evaluations.dedup.length := by
  have hset : {x | EvaluatedFor g path x} = (c.evaluations.toFinset : Set NodeId) := by
    ext x
    rw [List.coe_toFinset]
    exact ((straight_program hr hcompile hs hsc hpath hstraight).1 x).symm
  rw [hset, Set.ncard_coe_finset, List.card_toFinset]

/-- The code of a program whose path has no conditional evaluates what is to be evaluated between the opening and the
closing of its frame. It has one evaluation for each of these nodes exactly if none of them is run on two occasions. -/
theorem size_of_straight : (∀ x, x ∈ c.evaluations ↔ EvaluatedFor g path x) ∧
    c.size = 1 + sc.declared.length + c.evaluations.length + sc.declared.length + 1 + (if insertReturn then 1 else 0) ∧
    (c.evaluations.Nodup ↔ ∀ x, EvaluatedFor g path x → ¬RunTwice g path x) ∧
    (c.size = 1 + sc.declared.length + {x | EvaluatedFor g path x}.ncard + sc.declared.length + 1 +
      (if insertReturn then 1 else 0) ↔ ∀ x, EvaluatedFor g path x → ¬RunTwice g path x) := by
  obtain ⟨hmem, hsize, hnodup⟩ := straight_program hr hcompile hs hsc hpath hstraight
  refine ⟨hmem, hsize, hnodup, ?_⟩
  rw [← hnodup, ncard_evaluatedFor hr hcompile hs hsc hpath hstraight, hsize]
  constructor
  · intro h
    have hlength : c.evaluations.dedup.length = c.evaluations.length := by omega
    exact List.dedup_eq_self.1 ((List.dedup_sublist _).eq_of_length hlength)
  · intro h
    rw [List.dedup_eq_self.2 h]

end

/-- Node 6 assigns the variable 3 its sum 5 with the literal 4, and node 7 takes the absolute value of what is
assigned. The program runs 6 and then 7. -/
def increment : Except Fault Graph := do
  let int : Argument := { type := .int }
  let g ← create {} {} .standard {}
  let s ← g.rootScope
  [.declaration .int "x" s, .literal (.int 1) s, .operator ⟨"+", .int, [int, int]⟩ s,
    .operator ⟨"=", .int, [{ int with byRef := true }, int]⟩ s, .function ⟨"abs", .int, [int]⟩ s,
    .connect ⟨⟨3⟩, ⟨3⟩⟩ ⟨⟨5⟩, ⟨3⟩⟩ true, .connect ⟨⟨4⟩, ⟨0⟩⟩ ⟨⟨5⟩, ⟨4⟩⟩ true,
    .connect ⟨⟨3⟩, ⟨3⟩⟩ ⟨⟨6⟩, ⟨3⟩⟩ true, .connect ⟨⟨5⟩, ⟨2⟩⟩ ⟨⟨6⟩, ⟨4⟩⟩ true,
    .connect ⟨⟨6⟩, ⟨2⟩⟩ ⟨⟨7⟩, ⟨3⟩⟩ true, .connect ⟨⟨1⟩, ⟨0⟩⟩ ⟨⟨6⟩, ⟨0⟩⟩ true,
    .connect ⟨⟨6⟩, ⟨1⟩⟩ ⟨⟨7⟩, ⟨0⟩⟩ true].foldlM perform g

def incrementCode : Code := .ofList
  [⟨.pushFrame ⟨2⟩, some "entry point scope"⟩, ⟨.pushVar ⟨3⟩, some "x"⟩,
    ⟨.eval ⟨4⟩, some "1"⟩, ⟨.eval ⟨5⟩, some "+"⟩, ⟨.eval ⟨6⟩, some "="⟩,
    ⟨.eval ⟨4⟩, some "1"⟩, ⟨.eval ⟨5⟩, some "+"⟩, ⟨.eval ⟨6⟩, some "="⟩, ⟨.eval ⟨7⟩, some "abs"⟩,
    ⟨.popVar ⟨3⟩, some "x"⟩, ⟨.popFrame ⟨2⟩, some "entry point scope"⟩]

theorem increment_compiles : ∃ g sc, increment = .ok g ∧ Reachable g ∧ g.compile false = .ok (.ok incrementCode) ∧
    g.rootScope = .ok ⟨2⟩ ∧ g.scope ⟨2⟩ = .ok sc ∧ sc.declared = [⟨3⟩] ∧ g.backbone ⟨2⟩ = .ok [⟨6⟩, ⟨7⟩] ∧
    ∀ x ∈ [(⟨6⟩ : NodeId), ⟨7⟩], ∀ n, g.node x = .ok n → n.kind.isConditional = false := by
  obtain ⟨g, hg⟩ := exists_of_isOk (x := increment) (by decide +kernel)
  have hreachable : Reachable g := by
    simp only [increment, bind_eq_ok] at hg
    obtain ⟨g₀, hcreate, s, -, h⟩ := hg
    exact (Reachable.create hcreate).edits h
  have hread := eq_ok_of_toOption_bind (fun g => do
    return ((← g.scope ⟨2⟩).declared, (← g.node ⟨6⟩).kind, (← g.node ⟨7⟩).kind)) hg
    (b := ([⟨3⟩], .operator, .function)) (by decide +kernel)
  simp only [bind_eq_ok, pure_eq_ok, Prod.mk.injEq] at hread
  obtain ⟨sc, hsc, n, hn, m, hm, hdeclared, hkind, hkind'⟩ := hread
  refine ⟨g, sc, hg, hreachable, eq_ok_of_toOption_bind (compile · false) hg (by decide +kernel),
    eq_ok_of_toOption_bind rootScope hg (by decide +kernel), hsc, hdeclared,
    eq_ok_of_toOption_bind (backbone · ⟨2⟩) hg (by decide +kernel), ?_⟩
  simp only [List.forall_mem_cons, hn, hm, Except.ok.injEq, forall_eq', hkind, hkind']
  exact ⟨rfl, rfl, nofun⟩

theorem size_of_increment : ∃ g sc, increment = .ok g ∧ g.compile false = .ok (.ok incrementCode) ∧
    g.scope ⟨2⟩ = .ok sc ∧
    incrementCode.size = 1 + sc.declared.length + incrementCode.evaluations.length + sc.declared.length + 1 ∧
    ∃ x, EvaluatedFor g [⟨6⟩, ⟨7⟩] x ∧ RunTwice g [⟨6⟩, ⟨7⟩] x := by
  obtain ⟨g, sc, hg, hreachable, hcompile, hs, hsc, -, hpath, hstraight⟩ := increment_compiles
  obtain ⟨-, hsize, hnodup, -⟩ := size_of_straight hreachable hcompile hs hsc hpath hstraight
  refine ⟨g, sc, hg, hcompile, hsc, hsize, ?_⟩
  by_contra hnone
  have honce : incrementCode.evaluations.Nodup := hnodup.2 fun x hx hshared => hnone ⟨x, hx, hshared⟩
  exact absurd honce (by decide)

/-- The assignment feeds the node after it, and runs twice. -/
theorem not_once_increment : ∃ g c s sc path, Reachable g ∧ g.compile false = .ok (.ok c) ∧ g.rootScope = .ok s ∧
    g.scope s = .ok sc ∧ g.backbone s = .ok path ∧
    (∀ x ∈ path, ∀ n, g.node x = .ok n → n.kind.isConditional = false) ∧
    c.size ≠ 1 + sc.declared.length + {x | EvaluatedFor g path x}.ncard + sc.declared.length + 1 ∧
    c.evaluations.count ⟨6⟩ = 2 := by
  obtain ⟨g, sc, -, hreachable, hcompile, hs, hsc, hdeclared, hpath, hstraight⟩ := increment_compiles
  refine ⟨g, incrementCode, ⟨2⟩, sc, [⟨6⟩, ⟨7⟩], hreachable, hcompile, hs, hsc, hpath, hstraight, ?_, by decide⟩
  rw [ncard_evaluatedFor hreachable hcompile hs hsc hpath hstraight, hdeclared]
  decide

end Graph

end FlowGraph
