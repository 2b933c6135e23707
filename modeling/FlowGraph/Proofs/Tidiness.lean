import FlowGraph.Proofs.Discipline
import FlowGraph.Proofs.Mirror

/-!
# Outlines push fresh variables

The outline of a reachable graph pushes no variable that is pushed already. A variable is declared in one scope,
and the scopes of a conditional are entered only by the plan of that conditional; a plan that contained itself
would have no end.
-/

namespace FlowGraph.Graph

variable {g : Graph}

def LocalsOf (g : Graph) (n : Node) (locals : List Declaration) : Prop :=
  n.internalScope = none ∧ locals = [] ∨
    ∃ i sc, n.internalScope = some i ∧ g.scopeAt? i = some sc ∧ g.declarations sc.declared = .ok locals

theorem outlineFor_eq_ok_iff {planNode : NodeId → Except Fault Plan} {n : Node} {b : Branch} {p : Plan} :
    g.outlineFor planNode n b = .ok p ↔ ∃ locals start test body step, g.LocalsOf n locals ∧
      outlineInput planNode n b.initialization = .ok start ∧ g.outlineCondition planNode n b = .ok test ∧
        g.outlineTrueSide planNode n = .ok body ∧ outlineInput planNode n b.iteration = .ok step ∧
        p = .loop n.name locals start test body step := by
  unfold outlineFor
  cases hi : n.internalScope with
  | none =>
    simp only [bind_eq_ok, pure_eq_ok]
    constructor
    · rintro ⟨_, rfl, start, hstart, test, htest, body, hbody, step, hstep, rfl⟩
      exact ⟨[], start, test, body, step, .inl ⟨hi, rfl⟩, hstart, htest, hbody, hstep, rfl⟩
    · rintro ⟨_, start, test, body, step, ⟨-, rfl⟩ | ⟨i, _, hi', -⟩, hstart, htest, hbody, hstep, rfl⟩
      · exact ⟨[], rfl, start, hstart, test, htest, body, hbody, step, hstep, rfl⟩
      · cases hi.symm.trans hi'
  | some i =>
    simp only [bind_eq_ok, pure_eq_ok, scope_eq_ok_iff]
    constructor
    · rintro ⟨sc, hsc, locals, hlocals, start, hstart, test, htest, body, hbody, step, hstep, rfl⟩
      exact ⟨locals, start, test, body, step, .inr ⟨i, sc, hi, hsc, hlocals⟩, hstart, htest, hbody, hstep, rfl⟩
    · rintro ⟨locals, start, test, body, step, ⟨hi', -⟩ | ⟨_, sc, hi', hsc, hlocals⟩, hstart, htest, hbody, hstep, rfl⟩
      · cases hi.symm.trans hi'
      · cases hi.symm.trans hi'
        exact ⟨sc, hsc, locals, hlocals, start, hstart, test, htest, body, hbody, step, hstep, rfl⟩

section

variable {planNode planNode' : NodeId → Except Fault Plan} (h : ∀ id, Entails (planNode id) (planNode' id))

include h

theorem outlineScope_entails (s : ScopeId) :
    Entails (g.outlineScope planNode s) (g.outlineScope planNode' s) := by
  refine .bind (.refl _) fun scope => .bind (.refl _) fun owner => .bind (.refl _) fun ds => ?_
  exact .bind (.refl _) fun path => .bind (.mapM h path) fun _ => .refl _

theorem outlineBlock_entails (s : ScopeId) :
    Entails (g.outlineBlock planNode s) (g.outlineBlock planNode' s) :=
  .bind (outlineScope_entails h s) fun _ => .refl _

theorem outlineTrueSide_entails (n : Node) :
    Entails (g.outlineTrueSide planNode n) (g.outlineTrueSide planNode' n) := by
  refine .bind (.refl _) fun side => ?_
  cases side with
  | none => exact .refl _
  | some s => exact outlineBlock_entails h s

theorem outlineInput_entails (n : Node) (slot : Option SlotId) :
    Entails (outlineInput planNode n slot) (outlineInput planNode' n slot) := by
  unfold outlineInput
  split
  next => exact .refl _
  next source _ => exact h source.node

theorem outlineCondition_entails (n : Node) (b : Branch) :
    Entails (g.outlineCondition planNode n b) (g.outlineCondition planNode' n b) := by
  simp only [outlineCondition]
  split
  next => exact .refl _
  next source _ =>
    refine .bind (.refl _) fun reads => ?_
    split
    next => exact .refl _
    next => exact h source.node

theorem outlineWhile_entails (n : Node) (b : Branch) :
    Entails (g.outlineWhile planNode n b) (g.outlineWhile planNode' n b) :=
  .bind (outlineCondition_entails h n b) fun _ => .bind (outlineTrueSide_entails h n) fun _ => .refl _

theorem outlineFor_entails (n : Node) (b : Branch) :
    Entails (g.outlineFor planNode n b) (g.outlineFor planNode' n b) := by
  have hrest (locals : List Declaration) : Entails (do
      let start ← outlineInput planNode n b.initialization
      let test ← g.outlineCondition planNode n b
      let body ← g.outlineTrueSide planNode n
      let step ← outlineInput planNode n b.iteration
      return Plan.loop n.name locals start test body step) (do
      let start ← outlineInput planNode' n b.initialization
      let test ← g.outlineCondition planNode' n b
      let body ← g.outlineTrueSide planNode' n
      let step ← outlineInput planNode' n b.iteration
      return Plan.loop n.name locals start test body step) :=
    .bind (outlineInput_entails h n _) fun _ => .bind (outlineCondition_entails h n b) fun _ =>
      .bind (outlineTrueSide_entails h n) fun _ => .bind (outlineInput_entails h n _) fun _ => .refl _
  unfold outlineFor
  split
  next => exact hrest []
  next => exact .bind (.refl _) fun scope => .bind (.refl _) hrest

theorem outlineIf_entails (n : Node) (b : Branch) :
    Entails (g.outlineIf planNode n b) (g.outlineIf planNode' n b) := by
  refine .bind (outlineCondition_entails h n b) fun test => .bind (outlineTrueSide_entails h n) fun onTrue =>
    .bind (.refl _) fun side => ?_
  cases side with
  | none => exact .refl _
  | some s =>
    refine .bind (.refl _) fun path => ?_
    match path with
    | [] => exact .refl _
    | [only] =>
      refine .bind (.refl _) fun inner => ?_
      split
      next => exact .bind (h only) fun _ => .refl _
      next => exact .bind (outlineBlock_entails h s) fun _ => .refl _
    | _ :: _ :: _ => exact .bind (outlineBlock_entails h s) fun _ => .refl _

theorem outlineOperand_entails (slot : Slot) :
    Entails (g.outlineOperand planNode slot) (g.outlineOperand planNode' slot) := by
  unfold outlineOperand
  split
  next => exact .refl _
  next source _ =>
    refine .bind (.refl _) fun n => ?_
    split
    next => exact .refl _
    next => exact h source.node

theorem outlineSimple_entails (id : NodeId) (n : Node) :
    Entails (g.outlineSimple planNode id n) (g.outlineSimple planNode' id n) :=
  .bind (.mapM (outlineOperand_entails h) _) fun _ => .refl _

end

theorem outlineWithin_succ (k : Nat) (id : NodeId) :
    Entails (g.outlineWithin k id) (g.outlineWithin (k + 1) id) := by
  induction k generalizing id with
  | zero => exact nofun
  | succ k ih =>
    refine .bind (.refl _) fun n => ?_
    split
    next b _ _ => exact outlineIf_entails ih n b
    next b _ _ => exact outlineWhile_entails ih n b
    next b _ _ => exact outlineFor_entails ih n b
    next => exact outlineSimple_entails ih id n

theorem var_mem_held {ds : List Declaration} {v : NodeId} : .var v ∈ held ds ↔ v ∈ ds.map (·.node) := by
  simp only [held, List.map_reverse, List.mem_reverse, List.mem_map, StackEntry.var.injEq]

def NoVariablePushed (g : Graph) (s : ScopeId) (st : Stack) : Prop :=
  ∀ v n, .var v ∈ st → g.nodeAt? v = some n → n.scope ≠ some s

def PushedOutside (g : Graph) (k : Nat) (st : Stack) : Prop :=
  ∀ v, .var v ∈ st → ∃ n s sc m, g.nodeAt? v = some n ∧ n.scope = some s ∧ g.scopeAt? s = some sc ∧
    g.nodeAt? sc.owner = some m ∧ (m.kind.isConditional = true → ∀ p, g.outlineWithin k sc.owner ≠ .ok p)

variable {s : ScopeId} {sc : Scope} {ds : List Declaration} {st : Stack} {k : Nat} {id : NodeId} {n : Node}

theorem PushedOutside.pred (h : PushedOutside g (k + 1) st) : PushedOutside g k st := by
  intro v hv
  obtain ⟨n, s, sc, m, hn, hs, hsc, hm, hfails⟩ := h v hv
  exact ⟨n, s, sc, m, hn, hs, hsc, hm, fun hkind p hp => hfails hkind p (outlineWithin_succ k _ p hp)⟩

theorem PushedOutside.noVariablePushed (h : PushedOutside g k st) (hsc : g.scopeAt? s = some sc)
    (hn : g.nodeAt? sc.owner = some n) (hkind : n.kind.isConditional = true) {p : Plan}
    (hp : g.outlineWithin k sc.owner = .ok p) : NoVariablePushed g s st := by
  intro v m hv hm hs
  obtain ⟨m', s', sc', n', hm', hs', hsc', hn', hfails⟩ := h v hv
  obtain rfl : m = m' := Option.some.inj (hm.symm.trans hm')
  obtain rfl : s = s' := Option.some.inj (hs.symm.trans hs')
  obtain rfl : sc = sc' := Option.some.inj (hsc.symm.trans hsc')
  obtain rfl : n = n' := Option.some.inj (hn.symm.trans hn')
  exact hfails hkind p hp

section Pushing

variable (hg : WellFormed g) (hsc : g.scopeAt? s = some sc) (hds : g.declarations sc.declared = .ok ds)

include hg hsc hds

theorem scope_of_held {v : NodeId} (hv : .var v ∈ held ds) : ∃ n, g.nodeAt? v = some n ∧ n.scope = some s := by
  rw [var_mem_held, (nodes_of_declarations hds).1] at hv
  have hscopeMatches := hg.scopesMatchNodes.scopeMatchesNodes hsc
  exact hscopeMatches.child v (hscopeMatches.declared v hv).1

theorem pushable_of_noVariablePushed (hfresh : NoVariablePushed g s st) : Pushable ds st := by
  refine ⟨?_, ?_⟩
  · rw [(nodes_of_declarations hds).1]
    exact (hg.scopesMatchNodes.scopeMatchesNodes hsc).declared_nodup
  · intro d hd hmem
    obtain ⟨n, hn, hs⟩ := scope_of_held hg hsc hds (var_mem_held.2 (List.mem_map_of_mem hd))
    exact hfresh d.node n hmem hn hs

theorem pushedOutside_push (hst : PushedOutside g k st) (hn : g.nodeAt? sc.owner = some n)
    (hfails : n.kind.isConditional = true → ∀ p, g.outlineWithin k sc.owner ≠ .ok p) :
    PushedOutside g k (held ds ++ st) := by
  intro v hv
  rcases List.mem_append.1 hv with hv | hv
  · obtain ⟨m, hm, hs⟩ := scope_of_held hg hsc hds hv
    exact ⟨m, s, sc, n, hm, hs, hsc, hn, hfails⟩
  · exact hst v hv

theorem noVariablePushed_push {t : ScopeId} (hst : NoVariablePushed g t st) (hne : t ≠ s) :
    NoVariablePushed g t (held ds ++ st) := by
  intro v m hv hm ht
  rcases List.mem_append.1 hv with hv | hv
  · obtain ⟨m', hm', hs⟩ := scope_of_held hg hsc hds hv
    obtain rfl : m = m' := Option.some.inj (hm.symm.trans hm')
    exact hne (Option.some.inj (ht.symm.trans hs))
  · exact hst v m hv hm ht

end Pushing

theorem pushedOutside_nil (g : Graph) (k : Nat) : PushedOutside g k [] := fun _ hv => absurd hv List.not_mem_nil

theorem noVariablePushed_nil (g : Graph) (s : ScopeId) : NoVariablePushed g s [] :=
  fun _ _ hv => absurd hv List.not_mem_nil

theorem PushedOutside.frame (h : PushedOutside g k st) (s : ScopeId) : PushedOutside g k (.frame s :: st) := by
  intro v hv
  exact h v (by simpa using hv)

theorem NoVariablePushed.frame (h : NoVariablePushed g s st) (t : ScopeId) : NoVariablePushed g s (.frame t :: st) := by
  intro v m hv
  exact h v m (by simpa using hv)

theorem pushesFresh_sequence {α : Type} {plan : α → Except Fault Plan} {as : List α} {plans : List Plan}
    (hpushesFresh : ∀ a p, plan a = .ok p → p.PushesFresh st) (h : as.mapM plan = .ok plans) :
    (Plan.sequence plans).PushesFresh st := by
  rw [mapM_eq_ok_iff] at h
  induction h with
  | nil => trivial
  | cons hp _ ih => exact ⟨hpushesFresh _ _ hp, ih⟩

section Level

variable {planNode : NodeId → Except Fault Plan}

theorem outlineScope_pushesFresh {p : Program} (hg : WellFormed g) (hsc : g.scopeAt? s = some sc)
    (h : g.outlineScope planNode s = .ok p) (hfresh : NoVariablePushed g s st)
    (hnodes : ∀ ds, g.declarations sc.declared = .ok ds → ∀ x q, planNode x = .ok q →
      q.PushesFresh (held ds ++ .frame s :: st)) :
    p.frame.scope = s ∧ g.declarations sc.declared = .ok p.frame.declarations ∧
      Pushable p.frame.declarations (.frame p.frame.scope :: st) ∧ p.body.PushesFresh (p.frame.entries ++ st) := by
  simp only [outlineScope, bind_eq_ok, pure_eq_ok, scope_eq_ok_iff] at h
  obtain ⟨sc', hsc', owner, -, ds, hds, path, -, plans, hplans, rfl⟩ := h
  obtain rfl : sc = sc' := Option.some.inj (hsc.symm.trans hsc')
  refine ⟨rfl, hds, pushable_of_noVariablePushed hg hsc hds (hfresh.frame s), ?_⟩
  rw [Frame.entries, List.append_assoc]
  exact pushesFresh_sequence (hnodes ds hds) hplans

structure PartsPushFresh (g : Graph) (planNode : NodeId → Except Fault Plan) (id : NodeId) (st : Stack) : Prop where
  node {x : NodeId} {p : Plan} : planNode x = .ok p → p.PushesFresh st
  block {s i : ScopeId} {sp : Scope} {j : Nat} {p : Plan} : g.scopeAt? s = some sp → sp.owner = id →
    sp.kind = .partition i j → g.outlineBlock planNode s = .ok p → p.PushesFresh st

theorem outlineInput_pushesFresh {slot : Option SlotId} {p : Plan} (hnested : PartsPushFresh g planNode id st)
    (h : outlineInput planNode n slot = .ok p) : p.PushesFresh st := by
  unfold outlineInput at h
  split at h
  next =>
    cases h
    trivial
  next => exact hnested.node h

theorem outlineCondition_pushesFresh {b : Branch} {p : Plan} (hnested : PartsPushFresh g planNode id st)
    (h : g.outlineCondition planNode n b = .ok p) : p.PushesFresh st := by
  simp only [outlineCondition] at h
  split at h
  next =>
    cases h
    trivial
  next =>
    obtain ⟨reads, -, h⟩ := bind_eq_ok.1 h
    split at h
    next =>
      cases h
      trivial
    next => exact hnested.node h

theorem scope_of_side {side : Side} (ho : ScopesOwned g) (hn : g.nodeAt? id = some n)
    (h : g.side? n side = .ok (some s)) :
    ∃ i sp, n.internalScope = some i ∧ g.scopeAt? s = some sp ∧ sp.owner = id ∧ sp.kind = .partition i side.index := by
  unfold side? at h
  split at h
  next => cases h
  next i hi =>
    simp only [bind_eq_ok, scope_eq_ok_iff, pure_eq_ok] at h
    obtain ⟨si, hsi, hs⟩ := h
    obtain ⟨si', hsi', -, -, hpartitions⟩ := ho.internal hn hi
    obtain rfl : si = si' := Option.some.inj (hsi.symm.trans hsi')
    obtain ⟨sp, hsp, howner, hkind⟩ := hpartitions side.index s hs
    exact ⟨i, sp, hi, hsp, howner, hkind⟩

theorem outlineTrueSide_pushesFresh {p : Plan} (ho : ScopesOwned g) (hn : g.nodeAt? id = some n)
    (hnested : PartsPushFresh g planNode id st) (h : g.outlineTrueSide planNode n = .ok p) : p.PushesFresh st := by
  simp only [outlineTrueSide, bind_eq_ok] at h
  obtain ⟨side, hside, h⟩ := h
  cases side with
  | none =>
    cases h
    trivial
  | some s =>
    obtain ⟨i, sp, -, hsp, howner, hkind⟩ := scope_of_side ho hn hside
    exact hnested.block hsp howner hkind h

theorem outlineWhile_pushesFresh {b : Branch} {p : Plan} (ho : ScopesOwned g) (hn : g.nodeAt? id = some n)
    (hnested : PartsPushFresh g planNode id st) (h : g.outlineWhile planNode n b = .ok p) : p.PushesFresh st := by
  simp only [outlineWhile, bind_eq_ok, pure_eq_ok] at h
  obtain ⟨test, htest, body, hbody, rfl⟩ := h
  exact ⟨pushable_nil st, trivial, outlineCondition_pushesFresh hnested htest,
    outlineTrueSide_pushesFresh ho hn hnested hbody, trivial⟩

theorem outlineFor_pushesFresh {b : Branch} {p : Plan} (ho : ScopesOwned g) (hn : g.nodeAt? id = some n)
    (hunsplit : PartsPushFresh g planNode id st)
    (hnested : ∀ i si ds, n.internalScope = some i → g.scopeAt? i = some si → g.declarations si.declared = .ok ds →
      Pushable ds st ∧ PartsPushFresh g planNode id (held ds ++ st))
    (h : g.outlineFor planNode n b = .ok p) : p.PushesFresh st := by
  obtain ⟨locals, start, test, body, step, hlocals, hstart, htest, hbody, hstep, rfl⟩ := outlineFor_eq_ok_iff.1 h
  obtain ⟨hpush, hnested⟩ : Pushable locals st ∧ PartsPushFresh g planNode id (held locals ++ st) := by
    rcases hlocals with ⟨-, rfl⟩ | ⟨i, si, hi, hsi, hds⟩
    · exact ⟨pushable_nil st, hunsplit⟩
    · exact hnested i si locals hi hsi hds
  exact ⟨hpush, outlineInput_pushesFresh hnested hstart, outlineCondition_pushesFresh hnested htest,
    outlineTrueSide_pushesFresh ho hn hnested hbody, outlineInput_pushesFresh hnested hstep⟩

theorem outlineIf_pushesFresh {b : Branch} {p : Plan} (ho : ScopesOwned g) (hn : g.nodeAt? id = some n)
    (hnested : PartsPushFresh g planNode id st) (h : g.outlineIf planNode n b = .ok p) : p.PushesFresh st := by
  simp only [outlineIf, bind_eq_ok] at h
  obtain ⟨test, htest, onTrue, htrue, side, hside, h⟩ := h
  have htest := outlineCondition_pushesFresh hnested htest
  have htrue := outlineTrueSide_pushesFresh ho hn hnested htrue
  cases side with
  | none =>
    cases h
    exact ⟨htest, htrue⟩
  | some s =>
    obtain ⟨i, sp, -, hsp, howner, hkind⟩ := scope_of_side ho hn hside
    have hblock {q : Plan} (hq : g.outlineBlock planNode s = .ok q) : q.PushesFresh st :=
      hnested.block hsp howner hkind hq
    obtain ⟨path, -, h⟩ := bind_eq_ok.1 h
    match path, h with
    | [], h =>
      cases h
      exact ⟨htest, htrue⟩
    | [only], h =>
      obtain ⟨inner, -, h⟩ := bind_eq_ok.1 h
      split at h
      next =>
        obtain ⟨onFalse, hfalse, ⟨⟩⟩ := bind_eq_ok.1 h
        exact ⟨htest, htrue, hnested.node hfalse⟩
      next =>
        obtain ⟨onFalse, hfalse, ⟨⟩⟩ := bind_eq_ok.1 h
        exact ⟨htest, htrue, hblock hfalse⟩
    | _ :: _ :: _, h =>
      obtain ⟨onFalse, hfalse, ⟨⟩⟩ := bind_eq_ok.1 h
      exact ⟨htest, htrue, hblock hfalse⟩

theorem outlineSimple_pushesFresh {p : Plan} (hnodes : ∀ x q, planNode x = .ok q → q.PushesFresh st)
    (h : g.outlineSimple planNode id n = .ok p) : p.PushesFresh st := by
  simp only [outlineSimple, bind_eq_ok, pure_eq_ok] at h
  obtain ⟨operands, hoperands, rfl⟩ := h
  refine ⟨pushesFresh_sequence ?_ hoperands, ?_⟩
  · intro slot q hq
    simp only [outlineOperand] at hq
    split at hq
    next =>
      cases hq
      trivial
    next source _ =>
      obtain ⟨reads, -, hq⟩ := bind_eq_ok.1 hq
      split at hq
      next =>
        cases hq
        trivial
      next => exact hnodes source.node q hq
  · split <;> trivial

end Level

/-- The plan of a node pushes nothing twice where nothing is pushed by a conditional that the plan could come back to.
If there is a plan of fewer levels it is the same plan; otherwise the node itself cannot occur inside. -/
theorem outlineWithin_pushesFresh (hg : WellFormed g) {p : Plan} (h : g.outlineWithin k id = .ok p)
    (hst : PushedOutside g k st) :
    p.PushesFresh st := by
  induction k generalizing id p st with
  | zero => cases h
  | succ k ih =>
    by_cases hless : ∃ q, g.outlineWithin k id = .ok q
    · obtain ⟨q, hq⟩ := hless
      have hsame := outlineWithin_succ k id q hq
      rw [h] at hsame
      cases hsame
      exact ih hq hst.pred
    -- so whatever is pushed from here on belongs to nodes that need more levels than their content
    have hfails (q : Plan) : g.outlineWithin k id ≠ .ok q := fun hq => hless ⟨q, hq⟩
    have hplan := h
    simp only [outlineWithin, bind_eq_ok] at h
    obtain ⟨n, hn, h⟩ := h
    rw [node_eq_ok_iff] at hn
    have hblock {st : Stack} (hst : PushedOutside g k st) (hfresh : ∀ s sp i j, g.scopeAt? s = some sp → sp.owner = id →
        sp.kind = .partition i j → NoVariablePushed g s st) : PartsPushFresh g (g.outlineWithin k) id st := by
      refine ⟨fun hx => ih hx hst, ?_⟩
      rintro s i sp j q hsp rfl hkind hq
      simp only [outlineBlock, bind_eq_ok, pure_eq_ok] at hq
      obtain ⟨r, hr, rfl⟩ := hq
      refine (outlineScope_pushesFresh hg hsp hr (hfresh s sp i j hsp rfl hkind) ?_).2.2
      intro ds hds x q hq
      exact ih hq (pushedOutside_push hg hsp hds (hst.frame s) hn fun _ => hfails)
    have hfresh (hkind : n.kind.isConditional = true) {s : ScopeId} {sc : Scope} (hsc : g.scopeAt? s = some sc)
        (howner : sc.owner = id) : NoVariablePushed g s st := by
      subst howner
      exact hst.noVariablePushed hsc hn hkind hplan
    have hnested (hkind : n.kind.isConditional = true) : PartsPushFresh g (g.outlineWithin k) id st :=
      hblock hst.pred fun s sp i j hsp howner _ => hfresh hkind hsp howner
    split at h
    next hkind _ => exact outlineIf_pushesFresh hg.scopesOwned hn (hnested (by rw [hkind]; rfl)) h
    next hkind _ => exact outlineWhile_pushesFresh hg.scopesOwned hn (hnested (by rw [hkind]; rfl)) h
    next hkind _ =>
      have hkind : n.kind.isConditional = true := by rw [hkind]; rfl
      refine outlineFor_pushesFresh hg.scopesOwned hn (hnested hkind) ?_ h
      intro i si ds hi hsi hds
      obtain ⟨si', hsi', howner, hinternal, -⟩ := hg.scopesOwned.internal hn hi
      obtain rfl : si = si' := Option.some.inj (hsi.symm.trans hsi')
      refine ⟨pushable_of_noVariablePushed hg hsi hds (hfresh hkind hsi howner), hblock ?_ ?_⟩
      · subst howner
        exact pushedOutside_push hg hsi hds hst.pred hn fun _ => hfails
      · intro s sp i' j hsp howner' hpartition
        refine noVariablePushed_push hg hsi hds (hfresh hkind hsp howner') ?_
        rintro rfl
        obtain rfl : si = sp := Option.some.inj (hsi.symm.trans hsp)
        cases hinternal.symm.trans hpartition
    next => exact outlineSimple_pushesFresh (fun x q hq => ih hq hst.pred) h

theorem outline_pushesFresh (hg : WellFormed g) {p : Program} (h : g.outline = .ok p) :
    p.PushesFresh ∧ ∃ sc, g.rootScope = .ok p.frame.scope ∧ g.scope p.frame.scope = .ok sc ∧
      p.frame.entries = sc.declared.reverse.map .var ++ [.frame p.frame.scope] := by
  simp only [outline, bind_eq_ok] at h
  obtain ⟨s, hs, h⟩ := h
  have hroot := hs
  simp only [rootScope, bind_eq_ok, node_eq_ok_iff] at hroot
  obtain ⟨n, hn, hi⟩ := hroot
  split at hi
  next i hi' =>
    cases hi
    obtain ⟨sc, hsc, howner, -⟩ := hg.scopesOwned.internal hn hi'
    obtain ⟨n', hn', hkind⟩ := hg.rootIsEntryPoint
    obtain rfl : n = n' := Option.some.inj (hn.symm.trans hn')
    have hnodes (ds : List Declaration) (hds : g.declarations sc.declared = .ok ds) (x : NodeId) (q : Plan)
        (hq : g.outlineWithin g.depthBound x = .ok q) : q.PushesFresh (held ds ++ [.frame s]) := by
      refine outlineWithin_pushesFresh hg hq (pushedOutside_push hg hsc hds ((pushedOutside_nil g _).frame s)
        (howner ▸ hn) ?_)
      rw [hkind]
      intro hconditional
      cases hconditional
    obtain ⟨hscope, hds, hpush, hbody⟩ := outlineScope_pushesFresh hg hsc h (noVariablePushed_nil g s) hnodes
    refine ⟨⟨hpush, by rwa [List.append_nil] at hbody⟩, sc, hscope ▸ hs, hscope ▸ scope_eq_ok_iff.2 hsc, ?_⟩
    rw [Frame.entries, held, ← (nodes_of_declarations hds).1, ← List.map_reverse, List.map_map]
    rfl
  next => cases hi

/-- What can be said about the stack on all paths through compiled code. -/
structure Disciplined (g : Graph) (insertReturn : Bool) (c : Code) : Prop where
  jumps {line : Nat} {op : Op} {offset : Int} : c.op? line = some op → op.offset? = some offset →
    0 ≤ line + offset ∧ line + offset < c.size
  unique {line : Nat} {st st' : Stack} : c.Walk line st → c.Walk line st' → st = st'
  inside {line : Nat} {st : Stack} : c.Walk line st → line ≤ c.size
  fitsStack {line : Nat} {st : Stack} {op : Op} : c.Walk line st → c.op? line = some op → op.FitsStack st
  atEnd {st : Stack} : insertReturn = false → c.Walk c.size st → st = []
  returns : (∃ line, c.op? line = some .ret) ↔ insertReturn = true
  atReturn {line : Nat} {st : Stack} : insertReturn = true → c.Walk line st → c.op? line = some .ret →
    ∃ s sc, g.rootScope = .ok s ∧ g.scope s = .ok sc ∧ st = sc.declared.reverse.map .var ++ [.frame s]

theorem disciplined_of_compile {insertReturn : Bool} {c : Code} (h : Reachable g)
    (hcompile : g.compile insertReturn = .ok (.ok c)) : Disciplined g insertReturn c := by
  obtain ⟨p, hp, hc, -⟩ := outline_of_compile hcompile
  obtain ⟨hpushesFresh, sc, hs, hsc, hentries⟩ := outline_pushesFresh h.wellFormed hp
  have hlineKeepsStack := p.lineKeepsStack hc hpushesFresh
  refine ⟨?_, ?_, ?_, ?_, ?_, ?_, ?_⟩
  · intro line op offset hop hoffset
    obtain ⟨target, htarget, hlt, -⟩ := (hlineKeepsStack line).target hop hoffset
    omega
  · intro line st st' hwalk hwalk'
    exact (hwalk.stack_eq hlineKeepsStack).trans (hwalk'.stack_eq hlineKeepsStack).symm
  · intro line st hwalk
    exact hwalk.le_size hlineKeepsStack
  · intro line st op hwalk hop
    rw [hwalk.stack_eq hlineKeepsStack]
    exact (hlineKeepsStack line).fitsStack hop
  · intro st _ hwalk
    rw [hwalk.stack_eq hlineKeepsStack, p.stackAt_size hc]
  · exact p.exists_ret_iff hc
  · intro line st _ hwalk hop
    refine ⟨p.frame.scope, sc, hs, hsc, ?_⟩
    rw [hwalk.stack_eq hlineKeepsStack, p.stackAt_ret hc hop, hentries]

theorem disciplined_idleLoop : ∃ g c, idleLoop = .ok g ∧ Reachable g ∧ g.compile false = .ok (.ok c) ∧
    Disciplined g false c := by
  obtain ⟨g, c, hg, hc⟩ := idleLoop_compiles
  exact ⟨g, c, hg, idleLoop_reachable hg, hc, disciplined_of_compile (idleLoop_reachable hg) hc⟩

end FlowGraph.Graph
