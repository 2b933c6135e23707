import FlowGraph.Proofs.Sites

/-!
# Variables where they are read

Wherever a backbone is lowered to, a variable that its scope can see is pushed if and only if the scope that
declares it is not passed over. So a variable that is declared on a false side, beside a single `if`, can be seen by
that `if`, but not read.
-/

namespace FlowGraph

/-- The plan of a node on the backbone of a scope becomes the code at a line. -/
inductive Graph.Lowered (g : Graph) (c : Code) : ScopeId → NodeId → Nat → Plan → Prop
  /-- The nodes of a backbone come one after the other, behind the variables that are pushed with the frame. -/
  | inFrame {s : ScopeId} {sc : Scope} {line : Nat} {before after : List NodeId} {id : NodeId} {plans : List Plan}
      {p : Plan} : c.op? line = some (.pushFrame s) → g.scope s = .ok sc →
      g.backbone s = .ok (before ++ id :: after) → before.mapM (g.outlineWithin g.depthBound) = .ok plans →
      g.outlineWithin g.depthBound id = .ok p →
      Lowered g c s id (line + 1 + sc.declared.length + (Plan.sequence plans).code.length) p
  /-- A single `if` on a false side comes right behind the jump past it. -/
  | inPlace {s t : ScopeId} {id only : NodeId} {n m : Node} {line : Nat} {name : String}
      {test onTrue onFalse : Plan} : Lowered g c s id line (.choiceElse name test onTrue onFalse) →
      g.node id = .ok n → n.kind = .ifElse → g.side? n .onFalse = .ok (some t) → g.backbone t = .ok [only] →
      g.node only = .ok m → m.kind = .ifElse →
      Lowered g c t only (line + test.code.length + onTrue.code.length + 4) onFalse

open FlowGraph.Graph

theorem Plan.code_sequence_append (ps qs : List Plan) :
    (sequence (ps ++ qs)).code = (sequence ps).code ++ (sequence qs).code := by
  induction ps with
  | nil => rfl
  | cons p ps ih =>
    show p.code ++ (sequence (ps ++ qs)).code = _
    rw [ih, ← List.append_assoc]
    rfl

theorem Code.ContainsAt.within {c : Code} {line : Nat} {f : Frame} {before p after : Plan}
    (h : c.ContainsAt line (f.opening ++ (before.code ++ p.code ++ after.code))) :
    c.ContainsAt (line + 1 + f.declarations.length + before.code.length) p.code ∧
      c.stackAt (line + 1 + f.declarations.length + before.code.length) = f.entries ++ c.stackAt line := by
  rw [List.append_assoc, ← List.append_assoc] at h
  have hstack := h.left.stackAt
  have hrest := h.right.left
  have hlength : line + (f.opening ++ before.code).length =
      line + 1 + f.declarations.length + before.code.length := by
    rw [List.length_append, f.length_opening]
    omega
  rw [effect_append, effect_opening, Plan.effect_code, hlength] at hstack
  rw [hlength] at hrest
  exact ⟨hrest, hstack⟩

namespace Graph

variable {g : Graph} {c : Code} {s t : ScopeId} {id v : NodeId} {line : Nat} {p : Plan} {insertReturn : Bool}

theorem of_outlineScope {planNode : NodeId → Except Fault Plan} {q : Program} (h : g.outlineScope planNode s = .ok q) :
    ∃ sc path plans, g.scope s = .ok sc ∧ g.backbone s = .ok path ∧ path.mapM planNode = .ok plans ∧
      q.body = .sequence plans ∧ q.frame.scope = s ∧ q.frame.declarations.length = sc.declared.length := by
  simp only [outlineScope, bind_eq_ok, pure_eq_ok] at h
  obtain ⟨sc, hsc, owner, -, ds, hds, path, hpath, plans, hplans, rfl⟩ := h
  refine ⟨sc, path, plans, hsc, hpath, hplans, rfl, rfl, ?_⟩
  rw [← (nodes_of_declarations hds).1, List.length_map]

theorem exists_split {planNode : NodeId → Except Fault Plan} {before after : List NodeId} {plans all : List Plan}
    (hall : (before ++ id :: after).mapM planNode = .ok all) (hbefore : before.mapM planNode = .ok plans)
    (hp : planNode id = .ok p) : ∃ rest, (Plan.sequence all).code =
      (Plan.sequence plans).code ++ p.code ++ (Plan.sequence rest).code := by
  simp only [List.mapM_append, List.mapM_cons, bind_eq_ok, pure_eq_ok] at hall
  obtain ⟨plans', hplans', _, ⟨p', hp', rest, -, rfl⟩, rfl⟩ := hall
  cases hbefore.symm.trans hplans'
  cases hp.symm.trans hp'
  refine ⟨rest, ?_⟩
  rw [Plan.code_sequence_append, List.append_assoc]
  rfl

/-- What a lowered node finds on the stack is what its scope can see. -/
theorem Lowered.containsAt {q : Program} (hg : WellFormed g) (hl : HasLayouts g) (hq : g.outline = .ok q)
    (hc : c = .ofList (q.code insertReturn)) (h : Lowered g c s id line p) :
    c.ContainsAt line p.code ∧ p.Lexical g (c.stackAt line) ∧ VisiblePushed g s (c.stackAt line) ∧
      ∃ n, g.nodeAt? id = some n ∧ n.scope = some s := by
  induction h with
  | @inFrame s sc line before after id plans p hop hsc hpath hbefore hp =>
    obtain ⟨i, rest, hi, hcontainsAt, hrefers⟩ := q.refersOnStack hg hl hq hc hop
    simp only [Instruction.Refers, hi] at hrefers
    obtain ⟨f, body, rfl, hopensScope, hprefix⟩ := hrefers
    obtain ⟨sc', path, all, hsc', hpath', hall, rfl, -, hlength⟩ := of_outlineScope hopensScope.plan
    cases hsc.symm.trans hsc'
    cases hpath.symm.trans hpath'
    obtain ⟨rest, hcode⟩ := exists_split hall hbefore hp
    obtain ⟨hnode, hstack⟩ := (hcode ▸ hcontainsAt.of_prefix hprefix).within
    rw [hlength] at hnode hstack
    obtain ⟨n, hn, hs⟩ := backbone_scope hg.scopesMatchNodes hpath id (by simp)
    refine ⟨hnode, ?_, hstack ▸ hopensScope.visiblePushed, n, hn, hs⟩
    rw [hstack]
    exact outlineWithin_lexical hg hl (Nat.le_refl _) hp (seesPushed_of_scope hn hs hopensScope.visiblePushed)
  | @inPlace s t id only n m line name test onTrue onFalse _ hn hkind hside hpath hm hnested ih =>
    obtain ⟨hcontainsAt, ⟨htest, htrue, hfalse⟩, hshown, n', hn', hs⟩ := ih
    cases hn'.symm.trans (node_eq_ok_iff.1 hn)
    have hst : SeesPushed g id (c.stackAt line) := seesPushed_of_scope hn' hs hshown
    have hnested := visiblePushed_elseIf hg.scopesOwned hn' hkind hside hpath (node_eq_ok_iff.1 hm) hnested hst
    have hstack := hcontainsAt.left.stackAt
    have hnode := hcontainsAt.right
    simp only [effect_append, Plan.effect_code, effect_passUnless, effect_cons, effect_nil, Plan.jumpPast, Op.act,
      List.length_append, length_passUnless, List.length_singleton] at hstack hnode
    have hline : line + (test.code.length + 3 + onTrue.code.length + 1) =
        line + test.code.length + onTrue.code.length + 4 := by omega
    rw [hline] at hstack hnode
    refine ⟨hnode, hstack ▸ hfalse, hstack ▸ hnested, ?_⟩
    exact backbone_scope hg.scopesMatchNodes hpath only (List.mem_singleton_self only)

end Graph

theorem Op.mem_or_eq_of_mem_act {op : Op} {st : Stack} {v : NodeId} (h : .var v ∈ op.act st) :
    .var v ∈ st ∨ op = .pushVar v := by
  cases op with
  | pushVar w =>
    rcases List.mem_cons.1 h with heq | h
    · cases heq
      exact .inr rfl
    · exact .inl h
  | pushFrame s => exact .inl ((List.mem_cons.1 h).resolve_left nofun)
  | popVar | popFrame => exact .inl (List.mem_of_mem_tail h)
  | _ => exact .inl h

theorem pushed_of_mem_effect {is : List Instruction} {st : Stack} {v : NodeId} (h : .var v ∈ effect is st) :
    .var v ∈ st ∨ ∃ i ∈ is, i.op = .pushVar v := by
  induction is generalizing st with
  | nil => exact .inl h
  | cons i is ih =>
    rcases ih h with h | ⟨j, hj, hop⟩
    · exact (Op.mem_or_eq_of_mem_act h).imp_right fun hop => ⟨i, List.mem_cons_self, hop⟩
    · exact .inr ⟨j, List.mem_cons_of_mem i hj, hop⟩

namespace Graph

variable {g : Graph} {c : Code} {s t : ScopeId} {id v : NodeId} {line line' : Nat} {p : Plan} {insertReturn : Bool}
  {sc : Scope} {st : Stack}

theorem not_passedOver_of_mem {q : Program} (hg : WellFormed g) (hl : HasLayouts g) (hq : g.outline = .ok q)
    (hc : c = .ofList (q.code insertReturn)) (hsc : g.scopeAt? t = some sc) (hv : v ∈ sc.declared)
    (hmem : .var v ∈ c.stackAt line) : ¬PassedOver g t := by
  obtain hnil | ⟨i, hi, hop⟩ := pushed_of_mem_effect hmem
  · cases hnil
  obtain ⟨j, hj⟩ := List.getElem?_of_mem (List.mem_of_mem_take hi)
  have hpush : c.op? j = some (.pushVar v) := by
    rw [Array.getElem?_toList] at hj
    rw [← hop]
    exact congrArg (Option.map Instruction.op) hj
  obtain ⟨i', rest, hi', -, hrefers⟩ := q.refersOnStack hg hl hq hc hpush
  simp only [Instruction.Refers, hi'] at hrefers
  obtain ⟨u, su, hsu, hvu, hentered⟩ := hrefers
  have hscopeMatches := hg.scopesMatchNodes.scopeMatchesNodes hsc
  have hscopeMatches' := hg.scopesMatchNodes.scopeMatchesNodes hsu
  obtain ⟨n, hn, ht⟩ := hscopeMatches.child v (hscopeMatches.declared v hv).1
  obtain ⟨n', hn', hu⟩ := hscopeMatches'.child v (hscopeMatches'.declared v hvu).1
  cases hn.symm.trans hn'
  cases ht.symm.trans hu
  exact hentered

/-- On every path to an instruction of a lowered node, a variable that the node's scope can see is pushed, unless
the scope that declares it is passed over. -/
theorem pushed_iff_not_passedOver (hr : Reachable g) (hcompile : g.compile insertReturn = .ok (.ok c))
    (hlowered : Lowered g c s id line p) (hle : line ≤ line') (hlt : line' < line + p.code.length)
    (hwalk : c.Walk line' st) (hencloses : Encloses g t s) (hsc : g.scope t = .ok sc) (hv : v ∈ sc.declared) :
    .var v ∈ st ↔ ¬PassedOver g t := by
  have hg := hr.wellFormed
  have hl := hr.hasLayouts
  obtain ⟨q, hq, hc, -⟩ := outline_of_compile hcompile
  obtain ⟨hpushesFresh, -⟩ := outline_pushesFresh hg hq
  rw [hwalk.stack_eq (q.lineKeepsStack hc hpushesFresh)]
  rw [scope_eq_ok_iff] at hsc
  constructor
  · exact not_passedOver_of_mem hg hl hq hc hsc hv
  · intro hentered
    obtain ⟨hcontainsAt, hlexical, hshown, -⟩ := hlowered.containsAt hg hl hq hc
    obtain ⟨i, rest, -, hbase, -⟩ := hcontainsAt.refersOnStack (hlexical.refersOnStack List.suffix_rfl) hle hlt
    exact hbase.subset (hshown t sc v hencloses hsc hv hentered)

/-- Node 4 is an `if`. Its false side, scope 6, declares the variable 12 and has one instruction, node 8, which is an
`if` on that variable. Node 3 is a variable of the root scope. -/
def elseIf : Except Fault Graph := do
  let g ← create {} {} default {}
  let s ← g.rootScope
  [.declaration .bool "outer" s, .conditional .ifElse s, .conditional .ifElse ⟨6⟩, .declaration .bool "inner" ⟨6⟩,
    .connect ⟨⟨1⟩, ⟨0⟩⟩ ⟨⟨4⟩, ⟨0⟩⟩ true, .connect ⟨⟨4⟩, ⟨2⟩⟩ ⟨⟨8⟩, ⟨0⟩⟩ true,
    .connect ⟨⟨12⟩, ⟨3⟩⟩ ⟨⟨8⟩, ⟨4⟩⟩ true].foldlM perform g

/-- The plan of node 8. -/
def elseIfInner : Plan := .choice "if" (.load ⟨12⟩ "inner") (.frame ⟨⟨11⟩, "if", []⟩ .skip)

def elseIfProgram : Program :=
  ⟨⟨⟨2⟩, "entry point", [⟨⟨3⟩, "outer"⟩]⟩,
    .sequence [.choiceElse "if" (.constant 0) (.frame ⟨⟨7⟩, "if", []⟩ .skip) elseIfInner]⟩

def elseIfCode : Code := .ofList (elseIfProgram.code false)

theorem elseIf_reachable (h : elseIf = .ok g) : Reachable g := by
  simp only [elseIf, bind_eq_ok] at h
  obtain ⟨g₀, hcreate, s, -, h⟩ := h
  exact (Reachable.create hcreate).edits h

theorem elseIf_compiles : ∃ g, elseIf = .ok g ∧ g.compile false = .ok (.ok elseIfCode) := by
  obtain ⟨g, hg⟩ := exists_of_isOk (x := elseIf) (by decide +kernel)
  exact ⟨g, hg, eq_ok_of_toOption_bind (·.compile false) hg (by decide +kernel)⟩

theorem elseIf_lowered (hg : elseIf = .ok g) : Lowered g elseIfCode ⟨6⟩ ⟨8⟩ 9 elseIfInner := by
  have hpath := eq_ok_of_toOption_bind (·.backbone ⟨2⟩) hg (b := [] ++ [⟨4⟩]) (by decide +kernel)
  have hinner := eq_ok_of_toOption_bind (·.backbone ⟨6⟩) hg (b := [⟨8⟩]) (by decide +kernel)
  have hplan := eq_ok_of_toOption_bind (fun g => g.outlineWithin g.depthBound ⟨4⟩) hg
    (b := .choiceElse "if" (.constant 0) (.frame ⟨⟨7⟩, "if", []⟩ .skip) elseIfInner) (by decide +kernel)
  have houter := eq_ok_of_toOption_bind (fun g => do
    let n ← g.node ⟨4⟩
    return ((← g.scope ⟨2⟩).declared, n.kind, ← g.side? n .onFalse)) hg
    (b := ([⟨3⟩], .ifElse, some ⟨6⟩)) (by decide +kernel)
  have hnested := eq_ok_of_toOption_bind (fun g => Node.kind <$> g.node ⟨8⟩) hg (b := .ifElse) (by decide +kernel)
  simp only [bind_eq_ok, map_eq_ok, pure_eq_ok, Prod.mk.injEq] at houter hnested
  obtain ⟨n, hn, sc, hsc, side, hside, hdeclared, hkind, rfl⟩ := houter
  obtain ⟨m, hm, hkind'⟩ := hnested
  have hframe := Lowered.inFrame (show elseIfCode.op? 0 = _ from rfl) hsc hpath
    (show _ = Except.ok [] from rfl) hplan
  rw [hdeclared] at hframe
  exact .inPlace hframe hn hkind hside hinner hm hkind'

theorem elseIf_walk : elseIfCode.Walk 9 [.var ⟨3⟩, .frame ⟨2⟩] := by
  have hframe := @Code.Walk.step elseIfCode 0 1 _ (.pushFrame ⟨2⟩) .start rfl (by decide)
  have hpushed := @Code.Walk.step elseIfCode 1 2 _ (.pushVar ⟨3⟩) hframe rfl (by decide)
  have hcondition := @Code.Walk.step elseIfCode 2 3 _ (.mov .rax 0) hpushed rfl (by decide)
  have hloaded := @Code.Walk.step elseIfCode 3 4 _ (.mov .rdx (Word.ofBool true)) hcondition rfl (by decide)
  have htested := @Code.Walk.step elseIfCode 4 5 _ (.cmp .rax .rdx) hloaded rfl (by decide)
  exact @Code.Walk.step elseIfCode 5 9 _ (.jne 4) htested rfl (by decide)

def missed : Option (Machine × Except Trap Unit) → Except Fault NodeId
  | some (_, .error (.error (.variableNotPushed v))) => .ok v
  | _ => .error .endless

theorem elseIf_fails (hg : elseIf = .ok g) : ∃ m,
    (({} : Machine).load elseIfCode).1.run g 20 = some (m, .error (.error (.variableNotPushed ⟨12⟩))) := by
  have hrun := eq_ok_of_toOption_bind (fun g => missed ((({} : Machine).load elseIfCode).1.run g 20)) hg (b := ⟨12⟩)
    (by decide +kernel)
  unfold missed at hrun
  split at hrun
  next m v hm =>
    cases hrun
    exact ⟨m, hm⟩
  next => cases hrun

/-- The variable of the root scope is pushed when node 8 reads. -/
theorem pushed_elseIf_outer : ∃ g c sc, elseIf = .ok g ∧ Reachable g ∧ g.compile false = .ok (.ok c) ∧
    Lowered g c ⟨6⟩ ⟨8⟩ 9 elseIfInner ∧ Encloses g ⟨2⟩ ⟨6⟩ ∧ g.scope ⟨2⟩ = .ok sc ∧ ⟨3⟩ ∈ sc.declared ∧
    c.Walk 9 [.var ⟨3⟩, .frame ⟨2⟩] ∧ ¬PassedOver g ⟨2⟩ := by
  obtain ⟨g, hg, hcompile⟩ := elseIf_compiles
  have hscopes := eq_ok_of_toOption_bind (fun g => do
    return ((← g.scope ⟨2⟩).declared, ← g.rootScope, ← g.parentScope? ⟨6⟩, ← g.parentScope? ⟨5⟩)) hg
    (b := ([⟨3⟩], ⟨2⟩, some ⟨5⟩, some ⟨2⟩)) (by decide +kernel)
  simp only [bind_eq_ok, pure_eq_ok, Prod.mk.injEq] at hscopes
  obtain ⟨sc, hsc, root, hroot, p, hp, q, hq, hdeclared, rfl, rfl, rfl⟩ := hscopes
  have hencloses : Encloses g ⟨2⟩ ⟨6⟩ := by
    refine .up ?_ hp (.up ?_ hq .self)
    · simp [hroot]
    · simp [hroot]
  have hv : ⟨3⟩ ∈ sc.declared := by simp [hdeclared]
  refine ⟨g, _, sc, hg, elseIf_reachable hg, hcompile, elseIf_lowered hg, hencloses, hsc, hv, elseIf_walk, ?_⟩
  exact (pushed_iff_not_passedOver (elseIf_reachable hg) hcompile (elseIf_lowered hg) (Nat.le_refl 9) (by decide)
    elseIf_walk hencloses hsc hv).1 List.mem_cons_self

/-- The variable of the false side can be seen from node 8, and is not pushed when node 8 reads it. -/
theorem not_pushed_elseIf_inner : ∃ g c sc m, elseIf = .ok g ∧ Reachable g ∧ g.compile false = .ok (.ok c) ∧
    Lowered g c ⟨6⟩ ⟨8⟩ 9 elseIfInner ∧ c.op? 9 = some (.deref ⟨12⟩) ∧ g.scope ⟨6⟩ = .ok sc ∧ ⟨12⟩ ∈ sc.declared ∧
    g.findVariable ⟨6⟩ "inner" true = .ok (some ⟨12⟩) ∧ c.Walk 9 [.var ⟨3⟩, .frame ⟨2⟩] ∧
    .var ⟨12⟩ ∉ ([.var ⟨3⟩, .frame ⟨2⟩] : Stack) ∧
    (({} : Machine).load c).1.run g 20 = some (m, .error (.error (.variableNotPushed ⟨12⟩))) := by
  obtain ⟨g, hg, hcompile⟩ := elseIf_compiles
  have hscope := eq_ok_of_toOption_bind (fun g => Scope.declared <$> g.scope ⟨6⟩) hg (b := [⟨12⟩]) (by decide +kernel)
  have hfound := eq_ok_of_toOption_bind (fun g => g.findVariable ⟨6⟩ "inner" true) hg (b := some ⟨12⟩)
    (by decide +kernel)
  obtain ⟨sc, hsc, hdeclared⟩ := map_eq_ok.1 hscope
  obtain ⟨m, hm⟩ := elseIf_fails hg
  exact ⟨g, elseIfCode, sc, m, hg, elseIf_reachable hg, hcompile, elseIf_lowered hg, rfl, hsc,
    by simp [hdeclared], hfound, elseIf_walk, by decide, hm⟩

end Graph

end FlowGraph
