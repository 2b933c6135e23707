import FlowGraph.Proofs.Landings
import FlowGraph.Proofs.Visibility

/-!
# Where conditions take effect

A conditional comes to a test, a comparison and a jump past its true side. Whatever a node on a backbone is lowered to,
jumps from elsewhere do not lead into the midst of it, and so it is with the test of a conditional and the lines up to
the jump. All jumps that depend on a test come from conditionals.
-/

namespace FlowGraph

open FlowGraph.Graph

inductive Plan.Branches : Plan → (start : Nat) → (test onTrue : Plan) → (beyond : Nat) → Prop
  | loop {name : String} {locals : List Declaration} {start test body step : Plan} :
    Branches (.loop name locals start test body step) (pushVars locals ++ start.code).length test body
      ((pushVars locals ++ start.code).length + test.code.length + 4 + (body.code ++ step.code).length)
  | choice {name : String} {test onTrue : Plan} :
    Branches (.choice name test onTrue) 0 test onTrue (test.code.length + 3 + onTrue.code.length)
  | choiceElse {name : String} {test onTrue onFalse : Plan} :
    Branches (.choiceElse name test onTrue onFalse) 0 test onTrue (test.code.length + 4 + onTrue.code.length)

/-- The line is that of the jump by which the condition of a node takes effect. -/
inductive Graph.Decides (g : Graph) (c : Code) (id : NodeId) : (line : Nat) → (onTrue : Plan) → (beyond : Nat) → Prop
  | intro {s : ScopeId} {line start beyond : Nat} {p test onTrue : Plan} : Lowered g c s id line p →
      p.Branches start test onTrue beyond →
      Decides g c id (line + start + test.code.length + 2) onTrue (line + beyond)

namespace Plan.Branches

variable {p test onTrue test' onTrue' : Plan} {start beyond start' beyond' : Nat}

theorem parts (h : p.Branches start test onTrue beyond) : ∃ l name length r,
    p.code = l ++ (test.code ++ passUnless name length) ++ onTrue.code ++ r ∧ l.length = start ∧
      start + test.code.length + 3 + length = beyond ∧ onTrue.code.length ≤ length ∧
      (∀ t, JumpsTo l t → t ≤ l.length) ∧
      ∀ t, JumpsTo r t → 0 ≤ t ∨ t + (test.code.length + 3 + onTrue.code.length) ≤ 0 := by
  cases h with
  | @loop name locals first _ _ step =>
    refine ⟨pushVars locals ++ first.code, name, (onTrue.code ++ step.code).length + 1, step.code ++
      [jumpBack (test.code ++ passUnless name ((onTrue.code ++ step.code).length + 1) ++
        (onTrue.code ++ step.code)).length] ++ popVars locals, ?_, rfl, ?_, ?_, ?_, ?_⟩
    · simp only [code, List.append_assoc]
    · omega
    · rw [List.length_append]
      omega
    · intro t ht
      rw [jumpsTo_append, or_iff_right (straightLine_pushVars locals).not_jumpsTo] at ht
      have := (jumpsTo_code ht).2
      rw [List.length_append]
      omega
    · intro t ht
      simp only [jumpsTo_append, jumpsTo_jumpBack, (straightLine_popVars locals).not_jumpsTo, or_false,
        List.length_append,
        length_passUnless] at ht
      rcases ht with ht | ht
      · exact .inl (jumpsTo_code ht).1
      · omega
  | @choice name =>
    refine ⟨[], name, onTrue.code.length, [], ?_, rfl, ?_, Nat.le_refl _, fun t ht => ?_, fun t ht => ?_⟩
    · simp only [code, List.nil_append, List.append_nil]
    · omega
    · exact (not_jumpsTo_nil ht).elim
    · exact (not_jumpsTo_nil ht).elim
  | @choiceElse name _ _ onFalse =>
    refine ⟨[], name, onTrue.code.length + 1, [jumpPast onFalse.code.length] ++ onFalse.code, ?_, rfl, ?_, ?_,
      fun t ht => ?_, fun t ht => ?_⟩
    · simp only [code, List.nil_append, List.append_assoc]
    · omega
    · omega
    · exact (not_jumpsTo_nil ht).elim
    · rw [jumpsTo_append, jumpsTo_jumpPast, List.length_singleton] at ht
      rcases ht with ht | ht
      · omega
      · have := (jumpsTo_code ht).1
        omega

theorem noJumpInto {c : Code} {line : Nat} (h : p.Branches start test onTrue beyond) (hc : c.ContainsAt line p.code)
    (hs : c.NoJumpInto line p.code.length) : c.NoJumpInto (line + start) (test.code.length + 3) ∧
      c.NoJumpInto (line + (start + (test.code.length + 3))) onTrue.code.length := by
  obtain ⟨l, name, length, r, hcode, rfl, -, hle, hl, hr⟩ := h.parts
  have htested : (test.code ++ passUnless name length).length = test.code.length + 3 := by
    rw [List.length_append, length_passUnless]
  rw [hcode] at hc hs
  constructor
  · rw [List.append_assoc] at hc hs
    rw [← htested]
    refine hs.part hc (fun t ht => .inl (hl t ht)) fun t ht => ?_
    rw [htested]
    rcases jumpsTo_append.1 ht with ht | ht
    · exact .inl (jumpsTo_code ht).1
    · have := hr _ ht
      omega
  · rw [← htested, ← List.length_append]
    refine hs.part hc (fun t ht => ?_) fun t ht => (hr t ht).imp_right fun hle => by omega
    rw [List.length_append, htested]
    simp only [jumpsTo_append, jumpsTo_passUnless] at ht
    rcases ht with ht | ht | ht
    · have := hl t ht
      omega
    · have := (jumpsTo_code ht).2
      omega
    · omega

theorem unique (h : p.Branches start test onTrue beyond) (h' : p.Branches start' test' onTrue' beyond') :
    start' = start ∧ test' = test ∧ onTrue' = onTrue ∧ beyond' = beyond := by
  cases h <;> cases h' <;> exact ⟨rfl, rfl, rfl, rfl⟩

end Plan.Branches

theorem Plan.noJumpInto_onFalse {c : Code} {line : Nat} {name : String} {test onTrue onFalse : Plan}
    (hc : c.ContainsAt line (choiceElse name test onTrue onFalse).code)
    (hs : c.NoJumpInto line (choiceElse name test onTrue onFalse).code.length) :
    c.NoJumpInto (line + (test.code ++ passUnless name (onTrue.code.length + 1) ++ onTrue.code ++
      [jumpPast onFalse.code.length]).length) onFalse.code.length := by
  rw [code, ← List.append_nil (_ ++ onFalse.code)] at hc hs
  refine hs.part hc (fun t ht => ?_) fun t ht => (not_jumpsTo_nil ht).elim
  simp only [jumpsTo_append, jumpsTo_passUnless, jumpsTo_jumpPast] at ht
  simp only [List.length_append, length_passUnless, List.length_singleton] at ht ⊢
  rcases ht with ((ht | ht) | ht) | ht
  · have := (jumpsTo_code ht).2
    omega
  · omega
  · have := (jumpsTo_code ht).2
    omega
  · omega

namespace Graph

variable {g : Graph} {c : Code} {s t : ScopeId} {id : NodeId} {n : Node} {b : Branch} {line k : Nat} {p : Plan}

/-- The test, and what it decides on, are outlined one level down. -/
theorem branches_of_outlineWithin (hl : HasLayouts g) (hn : g.nodeAt? id = some n) (hkind : n.kind.isConditional = true)
    (h : g.outlineWithin (k + 1) id = .ok p) : ∃ b start test onTrue beyond, n.branch = some b ∧
      p.Branches start test onTrue beyond ∧ g.outlineCondition (g.outlineWithin k) n b = .ok test ∧
      g.outlineTrueSide (g.outlineWithin k) n = .ok onTrue := by
  obtain ⟨b, hb, ⟨-, heq⟩ | ⟨-, heq⟩ | ⟨-, heq⟩⟩ := hl.outlineWithin_conditional hn hkind k
  all_goals rw [heq] at h
  · obtain ⟨test, onTrue, htest, htrue, ⟨rfl, -⟩ | ⟨t, onFalse, -, rfl, -⟩⟩ := of_outlineIf h
    · exact ⟨b, _, test, onTrue, _, hb, .choice, htest, htrue⟩
    · exact ⟨b, _, test, onTrue, _, hb, .choiceElse, htest, htrue⟩
  · obtain ⟨test, body, htest, hbody, rfl⟩ := of_outlineWhile h
    exact ⟨b, _, test, body, _, hb, .loop, htest, hbody⟩
  · obtain ⟨locals, start, test, body, step, -, -, htest, hbody, -, rfl⟩ := outlineFor_eq_ok_iff.1 h
    exact ⟨b, _, test, body, _, hb, .loop, htest, hbody⟩

theorem isConditional_of_branches {start beyond : Nat} {test onTrue : Plan} (hn : g.nodeAt? id = some n)
    (h : g.outlineWithin k id = .ok p) (hbranches : p.Branches start test onTrue beyond) :
    n.kind.isConditional = true := by
  by_contra hkind
  cases k with
  | zero => cases h
  | succ k =>
    rw [outlineWithin_simple hn (Bool.eq_false_iff.2 hkind)] at h
    obtain ⟨operands, -, heq⟩ := bind_eq_ok.1 h
    cases heq
    cases hbranches

theorem straightLine_of_outlineCondition {test : Plan} (hg : WellFormed g) (hl : HasLayouts g)
    (hn : g.nodeAt? id = some n) (hb : n.branch = some b) (h : g.outlineCondition (g.outlineWithin k) n b = .ok test) :
    StraightLine test.code := by
  simp only [outlineCondition] at h
  split at h
  next =>
    cases h
    exact straightLine_singleton Op.isStraight_mov
  next r hr =>
    obtain ⟨m, hm, hinternal, hplain⟩ := hl.plain_of_branch hg.linksMatch hn hb (.inl rfl) hr
    obtain ⟨reads, hreads, h⟩ := bind_eq_ok.1 h
    split at h
    next =>
      cases h
      exact straightLine_singleton Op.isStraight_deref
    next => exact (evaluates_outlineWithin hg hl hm hplain h).straightLine

theorem straightLine_of_outlineInput {slot : Option SlotId} (hg : WellFormed g) (hl : HasLayouts g)
    (hn : g.nodeAt? id = some n) (hb : n.branch = some b) (hslot : slot = b.initialization ∨ slot = b.iteration)
    (h : outlineInput (g.outlineWithin k) n slot = .ok p) : StraightLine p.code := by
  unfold outlineInput at h
  split at h
  next =>
    cases h
    exact straightLine_nil
  next r hr =>
    rw [Option.bind_assoc, Option.bind_eq_some_iff] at hr
    obtain ⟨i, rfl, hr⟩ := hr
    obtain ⟨m, hm, -, hplain⟩ := hl.plain_of_branch hg.linksMatch hn hb (.inr (hslot.imp Eq.symm Eq.symm)) hr
    exact (evaluates_outlineWithin hg hl hm hplain h).straightLine

theorem Lowered.outlined (hl : HasLayouts g) (h : Lowered g c s id line p) :
    g.outlineWithin g.depthBound id = .ok p := by
  induction h with
  | inFrame _ _ _ _ hp => exact hp
  | @inPlace s t id only n m line name test onTrue onFalse _ hn hkind hside hpath hm hnested ih =>
    rw [node_eq_ok_iff] at hn
    obtain ⟨b, hb⟩ := hl.branch_of_conditional hn (by rw [hkind]; rfl)
    obtain ⟨k, hk⟩ : ∃ k, g.depthBound = k + 1 := ⟨_, rfl⟩
    rw [hk, outlineWithin_ifElse hn hkind hb] at ih
    obtain ⟨_, _, -, -, ⟨heq, -⟩ | ⟨t', onFalse', hside', heq, hfalse⟩⟩ := of_outlineIf ih
    · cases heq
    · cases heq
      cases hside.symm.trans hside'
      obtain ⟨only', -, hpath', -, -, hfalse⟩ | ⟨-, hother⟩ := hfalse
      · cases hpath.symm.trans hpath'
        exact outlineWithin_le (hk ▸ Nat.le_succ k) only onFalse hfalse
      · exact (hother only m hpath hm hnested).elim

theorem Decides.isConditional {onTrue : Plan} {beyond : Nat} (h : g.Decides c id line onTrue beyond) (hl : HasLayouts g)
    (hn : g.nodeAt? id = some n) : n.kind.isConditional = true := by
  obtain ⟨hlowered, hbranches⟩ := h
  exact isConditional_of_branches hn (hlowered.outlined hl) hbranches

def LineOutlined (g : Graph) (c : Code) (line : Nat) : Op → Prop
  | .jne _ => ∃ id onTrue beyond, g.Decides c id line onTrue beyond
  | .pushFrame s => ∃ q, g.outlineScope (g.outlineWithin g.depthBound) s = .ok q ∧
    c.ContainsAt (line + q.frame.opening.length) q.body.code ∧
    c.NoJumpInto (line + q.frame.opening.length) q.body.code.length
  | _ => True

def LinesOutlined (g : Graph) (c : Code) (line : Nat) (is : List Instruction) : Prop :=
  ∀ i op, line ≤ i → i < line + is.length → c.op? i = some op → LineOutlined g c i op

namespace LinesOutlined

variable {is l l' : List Instruction} {i : Instruction}

theorem nil : LinesOutlined g c line [] := by
  intro i op hle hlt
  rw [List.length_nil] at hlt
  omega

theorem append (h : LinesOutlined g c line l) (h' : LinesOutlined g c (line + l.length) l') :
    LinesOutlined g c line (l ++ l') := by
  intro i op hle hlt hop
  rw [List.length_append] at hlt
  rcases Nat.lt_or_ge i (line + l.length) with hi | hi
  · exact h i op hle hi hop
  · exact h' i op hi (by omega) hop

theorem cons (hc : c.ContainsAt line (i :: l)) (h : LineOutlined g c line i.op) (h' : LinesOutlined g c (line + 1) l) :
    LinesOutlined g c line (i :: l) := by
  intro j op hle hlt hop
  rw [List.length_cons] at hlt
  rcases Nat.eq_or_lt_of_le hle with rfl | hj
  · cases hc.op?.symm.trans hop
    exact h
  · exact h' j op hj (by omega) hop

end LinesOutlined

theorem lineOutlined_of_isStraight {op : Op} (h : op.IsStraight) : LineOutlined g c line op := by
  cases op with
  | jne => cases h.1
  | pushFrame s => exact (h.2 s rfl).elim
  | _ => trivial

theorem linesOutlined_straightLine {is : List Instruction} (hc : c.ContainsAt line is) (h : StraightLine is) :
    LinesOutlined g c line is := by
  intro i op hle hlt hop
  obtain ⟨j, rfl⟩ := Nat.exists_eq_add_of_le hle
  rw [hc.op?_add (by omega), Option.map_eq_some_iff] at hop
  obtain ⟨i, hi, rfl⟩ := hop
  exact lineOutlined_of_isStraight (h i (List.mem_of_getElem? hi))

theorem linesOutlined_test {start beyond length : Nat} {test onTrue : Plan} {name : String}
    (hlowered : Lowered g c s id line p) (hbranches : p.Branches start test onTrue beyond)
    (htest : StraightLine test.code) (hc : c.ContainsAt (line + start) (test.code ++ Plan.passUnless name length)) :
    LinesOutlined g c (line + start) (test.code ++ Plan.passUnless name length) := by
  refine (linesOutlined_straightLine hc.left htest).append (.cons hc.right trivial (.cons hc.right.tail trivial ?_))
  exact .cons hc.right.tail.tail ⟨id, onTrue, _, .intro hlowered hbranches⟩ .nil

section Conditional

variable {name : String} {locals : List Declaration} {start test body step onTrue onFalse : Plan}

def PlanOutlined (g : Graph) (c : Code) (p : Plan) : Prop :=
  ∀ line, c.ContainsAt line p.code → c.NoJumpInto line p.code.length → LinesOutlined g c line p.code

theorem linesOutlined_loop (hlowered : Lowered g c s id line (.loop name locals start test body step))
    (hc : c.ContainsAt line (Plan.loop name locals start test body step).code)
    (hs : c.NoJumpInto line (Plan.loop name locals start test body step).code.length) (hstart : StraightLine start.code)
    (htest : StraightLine test.code) (hbody : PlanOutlined g c body) (hstep : StraightLine step.code) :
    LinesOutlined g c line (Plan.loop name locals start test body step).code := by
  have hround := hc.left.left.right
  obtain ⟨-, hnoJumpInto⟩ := Plan.Branches.loop.noJumpInto hc hs
  rw [← length_passUnless name ((body.code ++ step.code).length + 1), ← List.length_append,
    ← Nat.add_assoc] at hnoJumpInto
  have hbefore := (straightLine_pushVars locals).append hstart
  have htested := (linesOutlined_test hlowered .loop htest hround.left).append
    ((hbody _ hround.right.left hnoJumpInto).append (linesOutlined_straightLine hround.right.right hstep))
  exact (((linesOutlined_straightLine hc.left.left.left hbefore).append htested).append
    (.cons hc.left.right trivial .nil)).append (linesOutlined_straightLine hc.right (straightLine_popVars locals))

theorem linesOutlined_choice (hlowered : Lowered g c s id line (.choice name test onTrue))
    (hc : c.ContainsAt line (Plan.choice name test onTrue).code)
    (hs : c.NoJumpInto line (Plan.choice name test onTrue).code.length) (htest : StraightLine test.code)
    (htrue : PlanOutlined g c onTrue) : LinesOutlined g c line (Plan.choice name test onTrue).code := by
  obtain ⟨-, hnoJumpInto⟩ := Plan.Branches.choice.noJumpInto hc hs
  rw [← length_passUnless name onTrue.code.length, ← List.length_append, Nat.zero_add] at hnoJumpInto
  exact (linesOutlined_test hlowered .choice htest hc.left).append (htrue _ hc.right hnoJumpInto)

theorem linesOutlined_choiceElse (hlowered : Lowered g c s id line (.choiceElse name test onTrue onFalse))
    (hc : c.ContainsAt line (Plan.choiceElse name test onTrue onFalse).code)
    (hs : c.NoJumpInto line (Plan.choiceElse name test onTrue onFalse).code.length) (htest : StraightLine test.code)
    (htrue : PlanOutlined g c onTrue) (hfalse : ∀ line', line' = line + test.code.length + onTrue.code.length + 4 →
      c.ContainsAt line' onFalse.code → c.NoJumpInto line' onFalse.code.length → LinesOutlined g c line' onFalse.code) :
    LinesOutlined g c line (Plan.choiceElse name test onTrue onFalse).code := by
  obtain ⟨-, hnoJumpInto⟩ := Plan.Branches.choiceElse.noJumpInto hc hs
  rw [← length_passUnless name (onTrue.code.length + 1), ← List.length_append, Nat.zero_add] at hnoJumpInto
  have htested :=
    (linesOutlined_test hlowered .choiceElse htest hc.left.left.left).append (htrue _ hc.left.left.right hnoJumpInto)
  refine (htested.append (.cons hc.left.right trivial .nil)).append (hfalse _ ?_ hc.right ?_)
  · simp only [List.length_append, length_passUnless, List.length_singleton]
    omega
  · exact Plan.noJumpInto_onFalse hc hs

end Conditional

section Level

variable (hg : WellFormed g) (hl : HasLayouts g) (hk : k ≤ g.depthBound)
variable
  (hlinesOutlined : ∀ s x line p, Lowered g c s x line p → g.outlineWithin k x = .ok p → c.ContainsAt line p.code →
  c.NoJumpInto line p.code.length → LinesOutlined g c line p.code)

include hk hlinesOutlined

theorem linesOutlined_nodes {sc : Scope} {path before xs : List NodeId} {plans earlier rest : List Plan}
    (hop : c.op? line = some (.pushFrame s)) (hsc : g.scope s = .ok sc) (hpath : g.backbone s = .ok path)
    (hplans : path.mapM (g.outlineWithin k) = .ok plans)
    (hc : c.ContainsAt (line + 1 + sc.declared.length) (Plan.sequence plans).code)
    (hs : c.NoJumpInto (line + 1 + sc.declared.length) (Plan.sequence plans).code.length) (hsplit : path = before ++ xs)
    (hearlier : before.mapM (g.outlineWithin k) = .ok earlier) (hrest : xs.mapM (g.outlineWithin k) = .ok rest) :
    LinesOutlined g c (line + 1 + sc.declared.length + (Plan.sequence earlier).code.length)
      (Plan.sequence rest).code := by
  induction xs generalizing before earlier rest with
  | nil =>
    cases hrest
    exact .nil
  | cons x xs ih =>
    simp only [List.mapM_cons, bind_eq_ok, pure_eq_ok] at hrest
    obtain ⟨p, hp, ps, hps, rfl⟩ := hrest
    obtain ⟨after, hcode⟩ := exists_split (hsplit ▸ hplans) hearlier hp
    have hlowered : Lowered g c s x _ p := .inFrame hop hsc (hsplit ▸ hpath)
      (Entails.mapM (outlineWithin_le hk) before earlier hearlier) (outlineWithin_le hk x p hp)
    have hsplit' : path = (before ++ [x]) ++ xs := by rw [hsplit, List.append_assoc, List.singleton_append]
    have hearlier' : (before ++ [x]).mapM (g.outlineWithin k) = .ok (earlier ++ [p]) := by
      simp only [List.mapM_append, List.mapM_cons, List.mapM_nil, hearlier, hp, ok_bind]
      rfl
    have hmore := ih hsplit' hearlier' hps
    have hsingle : (Plan.sequence [p]).code = p.code := List.append_nil p.code
    rw [Plan.code_sequence_append, List.length_append, hsingle, ← Nat.add_assoc] at hmore
    rw [hcode] at hc hs
    exact (hlinesOutlined s x _ p hlowered hp hc.left.right (hs.member hc)).append hmore

theorem linesOutlined_body {q : Program} (hq : g.outlineScope (g.outlineWithin k) s = .ok q)
    (hop : c.op? line = some (.pushFrame s)) (hc : c.ContainsAt (line + q.frame.opening.length) q.body.code)
    (hs : c.NoJumpInto (line + q.frame.opening.length) q.body.code.length) :
    LinesOutlined g c (line + q.frame.opening.length) q.body.code := by
  obtain ⟨sc, path, plans, hsc, hpath, hplans, hbody, -, hdeclared⟩ := of_outlineScope hq
  have hline : line + q.frame.opening.length = line + 1 + sc.declared.length := by
    rw [q.frame.length_opening, hdeclared, Nat.add_assoc]
  rw [hbody, hline] at hc hs ⊢
  exact linesOutlined_nodes hk hlinesOutlined hop hsc hpath hplans hc hs (List.nil_append path).symm rfl hplans

theorem linesOutlined_open {q : Program} (hq : g.outlineScope (g.outlineWithin k) s = .ok q)
    (hc : c.ContainsAt line (q.frame.opening ++ q.body.code))
    (hs : c.NoJumpInto (line + q.frame.opening.length) q.body.code.length) :
    LinesOutlined g c line (q.frame.opening ++ q.body.code) := by
  obtain ⟨-, -, -, -, -, -, -, rfl, -⟩ := of_outlineScope hq
  refine .append (.cons hc.left ?_ (linesOutlined_straightLine hc.left.tail (straightLine_pushVars _)))
    (linesOutlined_body hk hlinesOutlined hq hc.left.op? hc.right hs)
  exact ⟨q, outlineScope_entails (outlineWithin_le hk) _ q hq, hc.right, hs⟩

theorem linesOutlined_block (h : g.outlineBlock (g.outlineWithin k) s = .ok p) : PlanOutlined g c p := by
  intro line hc hs
  simp only [outlineBlock, bind_eq_ok, pure_eq_ok] at h
  obtain ⟨q, hq, rfl⟩ := h
  have hbody := hs.middle hc (fun _ => not_jumpsTo_opening q.frame) fun _ => (straightLine_closing q.frame).not_jumpsTo
  exact (linesOutlined_open hk hlinesOutlined hq hc.left hbody).append
    (linesOutlined_straightLine hc.right (straightLine_closing q.frame))

theorem linesOutlined_trueSide (h : g.outlineTrueSide (g.outlineWithin k) n = .ok p) : PlanOutlined g c p := by
  simp only [outlineTrueSide, bind_eq_ok] at h
  obtain ⟨side, -, h⟩ := h
  cases side with
  | none =>
    cases h
    exact fun _ _ _ => .nil
  | some t => exact linesOutlined_block hk hlinesOutlined h

include hg hl

theorem linesOutlined_if (hlowered : Lowered g c s id line p) (hn : g.nodeAt? id = some n) (hb : n.branch = some b)
    (hkind : n.kind = .ifElse) (h : g.outlineIf (g.outlineWithin k) n b = .ok p) (hc : c.ContainsAt line p.code)
    (hs : c.NoJumpInto line p.code.length) : LinesOutlined g c line p.code := by
  obtain ⟨test, onTrue, htest, htrue, ⟨rfl, -⟩ | ⟨t, onFalse, hside, rfl, hfalse⟩⟩ := of_outlineIf h
  · exact linesOutlined_choice hlowered hc hs (straightLine_of_outlineCondition hg hl hn hb htest)
      (linesOutlined_trueSide hk hlinesOutlined htrue)
  refine linesOutlined_choiceElse hlowered hc hs (straightLine_of_outlineCondition hg hl hn hb htest)
    (linesOutlined_trueSide hk hlinesOutlined htrue) fun line' hline => ?_
  obtain ⟨only, m, hpath, hm, hnested, honly⟩ | ⟨hblock, -⟩ := hfalse
  · have hinner := Lowered.inPlace hlowered (node_eq_ok_iff.2 hn) hkind hside hpath hm hnested
    rw [← hline] at hinner
    exact hlinesOutlined t only line' onFalse hinner honly
  · exact linesOutlined_block hk hlinesOutlined hblock line'

theorem linesOutlined_outlineWithin_succ (hlowered : Lowered g c s id line p) (h : g.outlineWithin (k + 1) id = .ok p)
    (hc : c.ContainsAt line p.code) (hs : c.NoJumpInto line p.code.length) : LinesOutlined g c line p.code := by
  obtain ⟨n, hn, -⟩ := bind_eq_ok.1 h
  rw [node_eq_ok_iff] at hn
  cases hkind : n.kind.isConditional with
  | false => exact linesOutlined_straightLine hc (evaluates_outlineWithin hg hl hn hkind h).straightLine
  | true =>
    obtain ⟨b, hb, ⟨hif, heq⟩ | ⟨-, heq⟩ | ⟨-, heq⟩⟩ := hl.outlineWithin_conditional hn hkind k
    all_goals rw [heq] at h
    · exact linesOutlined_if hg hl hk hlinesOutlined hlowered hn hb hif h hc hs
    · obtain ⟨test, body, htest, hbody, rfl⟩ := of_outlineWhile h
      exact linesOutlined_loop hlowered hc hs straightLine_nil (straightLine_of_outlineCondition hg hl hn hb htest)
        (linesOutlined_trueSide hk hlinesOutlined hbody) straightLine_nil
    · obtain ⟨locals, start, test, body, step, -, hstart, htest, hbody, hstep, rfl⟩ := outlineFor_eq_ok_iff.1 h
      exact linesOutlined_loop hlowered hc hs (straightLine_of_outlineInput hg hl hn hb (.inl rfl) hstart)
        (straightLine_of_outlineCondition hg hl hn hb htest) (linesOutlined_trueSide hk hlinesOutlined hbody)
        (straightLine_of_outlineInput hg hl hn hb (.inr rfl) hstep)

end Level

theorem linesOutlined_outlineWithin (hg : WellFormed g) (hl : HasLayouts g) (hk : k ≤ g.depthBound)
    (hlowered : Lowered g c s id line p) (h : g.outlineWithin k id = .ok p) (hc : c.ContainsAt line p.code)
    (hs : c.NoJumpInto line p.code.length) :
    LinesOutlined g c line p.code := by
  induction k generalizing s id line p with
  | zero => cases h
  | succ k ih =>
    have hk' := Nat.le_of_succ_le hk
    exact linesOutlined_outlineWithin_succ hg hl hk' (fun s x line p => ih hk') hlowered h hc hs

structure TestAt (g : Graph) (c : Code) (n : Node) (b : Branch) (start : Nat) (test onTrue : Plan) (beyond : Nat) :
    Prop where
  condition : g.outlineCondition (g.outlineWithin g.depthBound) n b = .ok test
  trueSide : g.outlineTrueSide (g.outlineWithin g.depthBound) n = .ok onTrue
  straightLine : StraightLine test.code
  noJumpInto : c.NoJumpInto start (test.code.length + 3)
  containsAt : ∃ name length, c.ContainsAt start (test.code ++ Plan.passUnless name length ++ onTrue.code) ∧
    start + test.code.length + 3 + length = beyond ∧ onTrue.code.length ≤ length

/-- No jump leads to a line between the first and the one behind the jump. -/
theorem TestAt.not_jumpsTo {start beyond : Nat} {test onTrue : Plan} (h : TestAt g c n b start test onTrue beyond)
    {j : Nat} (hj : 0 < j) (hlt : j < test.code.length + 3) {i : Nat} {op : Op} {offset : Int} (hop : c.op? i = some op)
    (hoffset : op.offset? = some offset) : (i : Int) + offset ≠ start + j := by
  obtain ⟨name, length, hcontainsAt, -⟩ := h.containsAt
  have htested : (test.code ++ Plan.passUnless name length).length = test.code.length + 3 := by
    rw [List.length_append, length_passUnless]
  by_cases hinside : start ≤ i ∧ i < start + (test.code.length + 3)
  · obtain ⟨j', rfl⟩ := Nat.exists_eq_add_of_le hinside.1
    have hlands := hcontainsAt.left.jumpsTo (by omega) hop hoffset
    rw [jumpsTo_append, or_iff_right h.straightLine.not_jumpsTo, Plan.jumpsTo_passUnless] at hlands
    omega
  · have := h.noJumpInto i op offset hop hoffset (by omega)
    omega

section Program

variable {q : Program} {insertReturn : Bool} (hg : WellFormed g) (hl : HasLayouts g) (hq : g.outline = .ok q)
variable (hc : c = .ofList (q.code insertReturn))

include hg hl hq hc

/-- Every line of a program is there for something in the graph. -/
theorem lineOutlined_of_outline {op : Op} (hop : c.op? line = some op) : LineOutlined g c line op := by
  obtain ⟨s, -, hscope⟩ := bind_eq_ok.1 hq
  have hcontainsAt := q.containsAt hc
  have hlines : c.NoJumpInto 0 (q.code insertReturn).length := by
    rw [← q.size_eq hc]
    exact c.noJumpInto_size
  have hend : StraightLine ((if insertReturn then [⟨.ret, none⟩] else []) ++ q.frame.closing) := by
    refine StraightLine.append ?_ (straightLine_closing q.frame)
    cases insertReturn with
    | false => exact straightLine_nil
    | true => exact straightLine_singleton Op.isStraight_ret
  rw [Program.code, List.append_assoc] at hcontainsAt hlines
  have hbody := hlines.middle hcontainsAt (fun _ => not_jumpsTo_opening q.frame)
    fun _ => hend.not_jumpsTo
  have hopen :=
    linesOutlined_open (Nat.le_refl _) (fun s x line p => linesOutlined_outlineWithin hg hl (Nat.le_refl _)) hscope
    hcontainsAt.left hbody
  refine hopen.append (linesOutlined_straightLine hcontainsAt.right hend) line op (Nat.zero_le line) ?_ hop
  rw [Nat.zero_add, ← List.append_assoc, ← Program.code, ← q.size_eq hc]
  exact Code.lt_size_of_op? hop

/-- Jumps from elsewhere do not lead into the midst of what a node is lowered to. -/
theorem Lowered.noJumpInto (h : Lowered g c s id line p) : c.NoJumpInto line p.code.length := by
  induction h with
  | @inFrame s sc line before after id plans p hop hsc hpath hbefore hp =>
    obtain ⟨q', hq', hcontainsAt, hnoJumpInto⟩ := lineOutlined_of_outline hg hl hq hc hop
    obtain ⟨sc', path, all, hsc', hpath', hall, hbody, -, hdeclared⟩ := of_outlineScope hq'
    cases hsc.symm.trans hsc'
    cases hpath.symm.trans hpath'
    obtain ⟨rest, hcode⟩ := exists_split hall hbefore hp
    have hline : line + q'.frame.opening.length = line + 1 + sc.declared.length := by
      rw [q'.frame.length_opening, hdeclared, Nat.add_assoc]
    rw [hbody, hcode, hline] at hcontainsAt hnoJumpInto
    exact hnoJumpInto.member hcontainsAt
  | @inPlace s t id only n m line name test onTrue onFalse hlowered _ _ _ _ _ _ ih =>
    obtain ⟨hcontainsAt, -⟩ := hlowered.containsAt hg hl hq hc
    have hnoJumpInto := Plan.noJumpInto_onFalse hcontainsAt ih
    simp only [List.length_append, length_passUnless, List.length_singleton] at hnoJumpInto
    have hline : line + (test.code.length + 3 + onTrue.code.length + 1) =
        line + test.code.length + onTrue.code.length + 4 := by omega
    rwa [hline] at hnoJumpInto

theorem Decides.testAt {onTrue : Plan} {beyond : Nat} (h : g.Decides c id line onTrue beyond)
    (hn : g.nodeAt? id = some n) (hb : n.branch = some b) :
    ∃ start test, line = start + test.code.length + 2 ∧ TestAt g c n b start test onTrue beyond := by
  obtain @⟨s, line, start, beyond, p, test, onTrue, hlowered, hbranches⟩ := h
  obtain ⟨hcontainsAt, -⟩ := hlowered.containsAt hg hl hq hc
  have houtline := hlowered.outlined hl
  obtain ⟨k, hk⟩ : ∃ k, g.depthBound = k + 1 := ⟨_, rfl⟩
  rw [hk] at houtline
  obtain ⟨b', start', test', onTrue', beyond', hb', hbranches', htest, htrue⟩ :=
    branches_of_outlineWithin hl hn (isConditional_of_branches hn houtline hbranches) houtline
  cases hb.symm.trans hb'
  obtain ⟨rfl, rfl, rfl, rfl⟩ := hbranches.unique hbranches'
  obtain ⟨hsheltered, -⟩ := hbranches.noJumpInto hcontainsAt (hlowered.noJumpInto hg hl hq hc)
  obtain ⟨l, name, length, r, hcode, rfl, hbeyond, hle, -⟩ := hbranches.parts
  have hlevel := outlineWithin_le (g := g) (show k ≤ g.depthBound by omega)
  refine ⟨line + l.length, test', rfl, outlineCondition_entails hlevel n b test' htest,
    outlineTrueSide_entails hlevel n onTrue' htrue,
    straightLine_of_outlineCondition hg hl hn hb htest, hsheltered, name,
    length, ?_, by omega, hle⟩
  rw [hcode, List.append_assoc l] at hcontainsAt
  exact hcontainsAt.left.right

end Program

end Graph

end FlowGraph
