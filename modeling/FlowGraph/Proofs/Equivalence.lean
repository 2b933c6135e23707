import FlowGraph.Library.Standard
import FlowGraph.Proofs.Presets
import FlowGraph.Proofs.Tallies

/-!
# Linking and merging compared

To merge a literal is to do without a node and to leave the program what it is: it is compiled as before, and its runs
end as before. This has three exceptions. A variable that the literal was the initializer of may be read before it is
initialized; a reference that the literal was linked to may be written to; and a loop may go by what the literal has
left in the accumulator.
-/

namespace FlowGraph

open FlowGraph.Graph Relation

namespace Machine

def report (r : Machine × Except Trap Unit) : Except Trap Unit × (NodeId → Option Value) := (r.2, r.1.readVariable)

end Machine

/-- Without a step limit the two programs end with the same result and the same variables, or neither ends. -/
def Graph.RunsAlike (g : Graph) (c : Code) (h : Graph) (c' : Code) : Prop :=
  ∀ m m' m₁ m₁' : Machine, m.stepLimit = none → m'.stepLimit = none → m.load c = (m₁, .ok ()) →
    m'.load c' = (m₁', .ok ()) →
      (∀ y, (∃ n, (m₁.run g n).map Machine.report = some y) ↔ ∃ n, (m₁'.run h n).map Machine.report = some y) ∧
      ((∀ n, m₁.run g n = none) ↔ ∀ n, m₁'.run h n = none)

def visible (y : Except Trap Unit × State) : Except Trap Unit × (NodeId → Option Value) :=
  (y.1, fun id => (y.2.memory.pushed? id).join)

theorem ResultAgrees.visible_eq {h : Graph} {literal : NodeId} {v : Value} {b : Bool} {r r' : Except Trap Unit × State}
    (hr : ResultAgrees h literal v b r r') : visible (ending r) = visible (ending r') :=
  Prod.ext hr.result (funext fun id => congrArg Option.join (hr.memory.pushed id))

theorem exists_report_iff {g : Graph} {c : Code} {m m₁ : Machine} (hlimit : m.stepLimit = none)
    (hsize : c.size ≤ Code.limit) (hload : m.load c = (m₁, .ok ())) (y : Except Trap Unit × (NodeId → Option Value)) :
    (∃ n, (m₁.run g n).map Machine.report = some y) ↔ ∃ n, (c.finish g n {}).map visible = some y := by
  have hreport : Machine.report = visible ∘ Machine.observe := rfl
  have hends := Machine.exists_run_iff (g := g) hlimit hsize hload
  constructor
  · rintro ⟨n, hn⟩
    rw [hreport, ← Option.map_map, Option.map_eq_some_iff] at hn
    obtain ⟨z, hz, rfl⟩ := hn
    obtain ⟨n', hn'⟩ := (hends z).1 ⟨n, hz⟩
    exact ⟨n', by rw [hn']; rfl⟩
  · rintro ⟨n, hn⟩
    obtain ⟨z, hz, rfl⟩ := Option.map_eq_some_iff.1 hn
    obtain ⟨n', hn'⟩ := (hends z).2 ⟨n, hz⟩
    exact ⟨n', by rw [hreport, ← Option.map_map, hn']; rfl⟩

theorem report_unique {g : Graph} {c : Code} {m m₁ : Machine} (hlimit : m.stepLimit = none)
    (hsize : c.size ≤ Code.limit) (hload : m.load c = (m₁, .ok ())) {n n' : Nat} {r r' : Machine × Except Trap Unit}
    (hr : m₁.run g n = some r) (hr' : m₁.run g n' = some r') : Machine.report r = Machine.report r' := by
  have hends := exists_report_iff (g := g) hlimit hsize hload
  obtain ⟨k, hk⟩ := (hends _).1 ⟨n, congrArg (Option.map Machine.report) hr⟩
  obtain ⟨k', hk'⟩ := (hends _).1 ⟨n', congrArg (Option.map Machine.report) hr'⟩
  obtain ⟨z, hz, hreport⟩ := Option.map_eq_some_iff.1 hk
  obtain ⟨z', hz', hreport'⟩ := Option.map_eq_some_iff.1 hk'
  have hmax := Code.finish_mono hz (Nat.le_max_left k k')
  rw [Code.finish_mono hz' (Nat.le_max_right k k')] at hmax
  rw [← hreport, ← hreport', Option.some.inj hmax]

theorem runsAlike_of_finish {g h : Graph} {c c' : Code} (hsize : c.size ≤ Code.limit) (hsize' : c'.size ≤ Code.limit)
    (hends : ∀ y, (∃ n, (c.finish g n {}).map visible = some y) ↔ ∃ n, (c'.finish h n {}).map visible = some y) :
    RunsAlike g c h c' := by
  intro m m' m₁ m₁' hlimit hlimit' hload hload'
  have hreports (y) : (∃ n, (m₁.run g n).map Machine.report = some y) ↔
      ∃ n, (m₁'.run h n).map Machine.report = some y :=
    (exists_report_iff hlimit hsize hload y).trans ((hends y).trans (exists_report_iff hlimit' hsize' hload' y).symm)
  refine ⟨hreports, ⟨fun hnone n => ?_, fun hnone n => ?_⟩⟩
  · by_contra hsome
    obtain ⟨r, hr⟩ := Option.ne_none_iff_exists'.1 hsome
    obtain ⟨n', hn'⟩ := (hreports (Machine.report r)).2 ⟨n, congrArg (Option.map Machine.report) hr⟩
    rw [hnone n'] at hn'
    cases hn'
  · by_contra hsome
    obtain ⟨r, hr⟩ := Option.ne_none_iff_exists'.1 hsome
    obtain ⟨n', hn'⟩ := (hreports (Machine.report r)).1 ⟨n, congrArg (Option.map Machine.report) hr⟩
    rw [hnone n'] at hn'
    cases hn'

namespace Graph

variable {g own h : Graph} {l : Link} {x : NodeId} {v : Value} {c c' : Code} {insertReturn : Bool}

theorem finish_visible_iff {p : Program} (hc : c = .ofList (p.code insertReturn)) (hsize : c.size ≤ Code.limit)
    (y : Except Trap Unit × (NodeId → Option Value)) : (∃ n, (c.finish g n {}).map visible = some y) ↔
      ∃ rounds, ((p.run g rounds insertReturn).outcome {}).map (visible ∘ ending) = some y := by
  obtain ⟨exit, hfollows, hexit⟩ := p.followsCourse (g := g) hsize insertReturn hc
  have hends := hfollows.ends hexit {}
  constructor
  · rintro ⟨n, hn⟩
    obtain ⟨z, hz, rfl⟩ := Option.map_eq_some_iff.1 hn
    obtain ⟨rounds, hrounds⟩ := (hends z).1 ⟨n, hz⟩
    exact ⟨rounds, by rw [← Option.map_map, hrounds]; rfl⟩
  · rintro ⟨rounds, hrounds⟩
    rw [← Option.map_map, Option.map_eq_some_iff] at hrounds
    obtain ⟨z, hz, rfl⟩ := hrounds
    obtain ⟨n, hn⟩ := (hends z).2 ⟨rounds, hz⟩
    exact ⟨n, congrArg (Option.map visible) hn⟩

/-- The program of the graph where the literal is linked ends over the graph where the reader has its value, too, as the
program without the literal does. -/
theorem finish_visible_of_withoutLiteral (ha : own.FoldedLiteral h l v) (hsameValues : own.SameValues h)
    (hown : Reachable own) (hr : Reachable h) (hdirect : ¬Redirects own l) {p p' : Program}
    (ht : p.WithoutLiteral h l.tail.node v True p') (hc : c = .ofList (p.code insertReturn))
    (hsize : c.size ≤ Code.limit) (hc' : c' = .ofList (p'.code insertReturn)) (hsize' : c'.size ≤ Code.limit)
    (y : Except Trap Unit × (NodeId → Option Value)) : (∃ n, (c.finish own n {}).map visible = some y) ↔
      ∃ n, (c'.finish h n {}).map visible = some y := by
  rw [finish_visible_iff hc hsize, finish_visible_iff hc' hsize']
  refine exists_congr fun rounds => ?_
  have hresultAgrees : Option.Rel (ResultAgrees h l.tail.node v true) ((p.run own rounds insertReturn).outcome {})
      ((p'.run h rounds insertReturn).outcome {}) :=
    ht.resultsAgree ha hsameValues hown hr trivial hdirect insertReturn {} {} .start
  generalize (p.run own rounds insertReturn).outcome {} = r at hresultAgrees
  generalize (p'.run h rounds insertReturn).outcome {} = r' at hresultAgrees
  cases hresultAgrees with
  | none => exact .rfl
  | some hresultAgrees =>
    rw [Option.map_some, Option.map_some, Function.comp_apply, Function.comp_apply, hresultAgrees.visible_eq]

theorem ownValueSet_of_preset {n : Node} (hn : g.nodeAt? x = some n) (h : g.preset x v = .ok own) :
    OwnValueSet g own x v ∨ own = g := by
  rw [preset, node_eq_ok_iff.2 hn, ok_bind] at h
  split at h
  next hvariable =>
    have hset : g.setValue x v = .ok (g.modifyNode x (·.modifyProperty 0 (·.setValue v))) :=
      bind_eq_ok.2 ⟨n, node_eq_ok_iff.2 hn, rfl⟩
    cases h.symm.trans hset
    refine .inl ⟨rfl, fun y hy => ?_, n, hn, beq_iff_eq.1 hvariable, ?_⟩
    · rw [nodeAt?_modifyNode, if_neg hy]
    · rw [nodeAt?_modifyNode, if_pos rfl, hn]
      rfl
  next => exact .inr (pure_eq_ok.1 h).symm

theorem OwnValueSet.redirects (hp : OwnValueSet g own x v) (h : Redirects own l) : Redirects g l := by
  obtain ⟨y, n, slot, r, m, hn, hinvokable, hslot, hr, hisRef, hhead, hm, hkind⟩ := h
  obtain ⟨reader, hreader, hvariable, hown⟩ := hp.reader
  have hsame {z : NodeId} {n : Node} (hn : own.node z = .ok n) (hother : n.kind ≠ .variable) : g.node z = .ok n := by
    rw [node_eq_ok_iff] at hn ⊢
    rw [← hp.other z, hn]
    rintro rfl
    cases hown.symm.trans hn
    exact hother hvariable
  refine ⟨y, n, slot, r, m, hsame hn fun hnot => ?_, hinvokable, hslot, hr, hisRef, hhead,
    hsame hm (by rw [hkind]; exact nofun), hkind⟩
  rw [Node.isInvokable, hnot] at hinvokable
  cases hinvokable

/-- Where a literal is merged instead of linked, which can be done if it is in a scope that is there, the program is
compiled if it was, as far as that fits into a program. Its runs are alike, unless the reader is read before it is
initialized, the literal is written to, or a loop goes by what the literal has left. -/
theorem runsAlike_of_merge {source : Node} {output input : SlotRef} {linked : Graph} (hr : Reachable g)
    (hmerge : g.config.mergeLiterals = true) (hsource : g.node output.node = .ok source)
    (hkind : source.kind = .literal) (hfree : source.outputs = [])
    (hconnect : g.connect output input true = .ok (linked, .ok l)) :
    ((∀ s ∈ source.scope, ∃ sc, g.scopeAt? s = some sc) →
      ∃ merged, g.connectOrMerge output input = .ok (merged, .ok none)) ∧
    ∀ merged r insertReturn, g.connectOrMerge output input = .ok (merged, r) →
      ((∃ c, linked.compile insertReturn = .ok (.ok c)) ↔
        (∃ c, merged.compile insertReturn = .ok (.ok c)) ∧ linked.compile insertReturn ≠ .error .codeOverflow) ∧
      ∀ c c', linked.compile insertReturn = .ok (.ok c) → merged.compile insertReturn = .ok (.ok c') →
        ¬ReadsEarly linked c input.node source.value → ¬Redirects linked l → ¬LeavesLiteral linked l →
          RunsAlike linked c merged c' := by
  refine ⟨fun hlive => exists_connectOrMerge hr hmerge hsource hkind hfree hlive hconnect,
    fun merged r insertReturn hmerged => ?_⟩
  obtain ⟨-, rfl, hlinked, hreachable, hfolded, own, hpreset, hown, hfolded', hsameValues⟩ :=
    foldedLiteral_of_merge hr hmerge hsource hkind hfree hconnect hmerged
  refine ⟨hfolded.compile_iff hlinked hreachable insertReturn, fun c c' hc hc' hreadsEarly hredirects hleavesLiteral =>
    ?_⟩
  obtain ⟨p, hp, hcode, hsize⟩ := outline_of_compile hc
  obtain ⟨p', hp', hcode', hsize'⟩ := outline_of_compile hc'
  obtain ⟨q, hq, hwithoutLiteral⟩ :=
      withoutLiteral_outline hfolded hlinked hreachable (fun _ : True => hleavesLiteral) hp'
  cases hp.symm.trans hq
  obtain ⟨n, -, hn, -⟩ := hfolded.reader
  have hfinish (k : Nat) : c.finish own k {} = c.finish linked k {} := by
    rcases ownValueSet_of_preset hn hpreset with hp | rfl
    · exact Code.finish_eq hp (validCode_of_compile hlinked hc) hreadsEarly .start k
    · rfl
  have hdirect : ¬Redirects own ⟨output, input, .value⟩ := by
    rcases ownValueSet_of_preset hn hpreset with hp | rfl
    · exact fun h => hredirects (hp.redirects h)
    · exact hredirects
  refine runsAlike_of_finish hsize hsize' fun y => ?_
  have hends :=
    finish_visible_of_withoutLiteral hfolded' hsameValues hown hreachable hdirect hwithoutLiteral
      hcode hsize hcode' hsize' y
  simp only [hfinish] at hends
  exact hends

/-- The program declares node 3, a variable, and node 4 is a literal. -/
def declared : Except Fault Graph := do
  let g ← create {} {} .standard { mergeLiterals := true }
  let s ← g.rootScope
  [.declaration .int "x" s, .literal (.int 5) s, .connect ⟨⟨1⟩, ⟨0⟩⟩ ⟨⟨3⟩, ⟨0⟩⟩ true].foldlM perform g

def declaredCode : Code := .ofList (Program.code ⟨⟨⟨2⟩, "entry point", [⟨⟨3⟩, "x"⟩]⟩,
  .sequence [.seq (.sequence [.seq .skip (.evaluate ⟨4⟩ "5")]) (.evaluate ⟨3⟩ "x")]⟩ true)

theorem declared_reachable (h : declared = .ok g) : Reachable g := by
  simp only [declared, bind_eq_ok] at h
  obtain ⟨g₀, hcreate, s, -, h⟩ := h
  exact (Reachable.create hcreate).edits h

/-- The variable is read by nothing but its own declaration, and that is fed. -/
theorem not_readsEarly_declared {n literal : Node} {r : SlotRef} (hn : g.node ⟨3⟩ = .ok n) (hkind : n.kind = .variable)
    (hr : n.valueIn?.bind Slot.first? = some r) (hfed : r.node = ⟨4⟩) (hliteral : g.node ⟨4⟩ = .ok literal)
    (hliteralKind : literal.kind = .literal) : ¬ReadsEarly g declaredCode ⟨3⟩ v := by
  rintro ⟨s, op, y, -, hop, hreads, haffected⟩
  refine haffected fun hreach => ?_
  have hfailsAtOp {z : NodeId} (hreach : ReflTransGen (RefersTo g) ⟨4⟩ z) : z = ⟨4⟩ := by
    rcases hreach.cases_head with hsame | ⟨w, hpoints, -⟩
    · exact hsame.symm
    · obtain ⟨m, hm, hsource⟩ := bind_eq_ok.1 hpoints
      cases hliteral.symm.trans hm
      rw [if_neg (by rw [hliteralKind]; exact nofun)] at hsource
      cases hsource
  have hops : op ∈ [.pushFrame ⟨2⟩, .pushVar ⟨3⟩, .eval ⟨4⟩, .eval ⟨3⟩, .ret, .popVar ⟨3⟩, .popFrame ⟨2⟩] := by
    rw [declaredCode, Code.op?_ofList, Option.map_eq_some_iff] at hop
    obtain ⟨i, hi, rfl⟩ := hop
    exact List.mem_map_of_mem (f := Instruction.op) (List.mem_of_getElem? hi)
  simp only [List.mem_cons, List.not_mem_nil, or_false] at hops
  have hy : y = ⟨4⟩ := by
    rcases hops with rfl | rfl | rfl | rfl | rfl | rfl | rfl
    case inr.inr.inl =>
      cases hreads with
      | self => rfl
      | own hm hvariable | initializer hm hvariable =>
        cases hliteral.symm.trans hm
        cases hliteralKind.symm.trans hvariable
      | argument hm hinvokable =>
        cases hliteral.symm.trans hm
        rw [Node.isInvokable, hliteralKind] at hinvokable
        cases hinvokable
    case inr.inr.inr.inl =>
      cases hreads with
      | self hm _ hnot =>
        cases hn.symm.trans hm
        exact (hnot hkind).elim
      | own hm _ _ hnone =>
        cases hn.symm.trans hm
        cases hr.symm.trans hnone
      | initializer hm _ _ hr' =>
        cases hn.symm.trans hm
        cases hr.symm.trans hr'
        exact hfed
      | argument hm hinvokable =>
        cases hn.symm.trans hm
        rw [Node.isInvokable, hkind] at hinvokable
        cases hinvokable
    all_goals cases hreads
  subst hy
  cases hfailsAtOp hreach

/-- Without the literal the program is two instructions shorter, and does the same. -/
theorem runsAlike_declared : ∃ g linked merged l c, declared = .ok g ∧ Reachable g ∧
    g.connect ⟨⟨4⟩, ⟨0⟩⟩ ⟨⟨3⟩, ⟨2⟩⟩ true = .ok (linked, .ok l) ∧
    g.connectOrMerge ⟨⟨4⟩, ⟨0⟩⟩ ⟨⟨3⟩, ⟨2⟩⟩ = .ok (merged, .ok none) ∧ linked.compile true = .ok (.ok declaredCode) ∧
    merged.compile true = .ok (.ok c) ∧ RunsAlike linked declaredCode merged c := by
  obtain ⟨g, hg⟩ := exists_of_isOk (x := declared) (by decide +kernel)
  have hsource := eq_ok_of_toOption_bind (fun g => do
    let n ← g.node ⟨4⟩
    return (g.config.mergeLiterals, n.kind, n.outputs, n.scope)) hg (b := (true, .literal, [], some ⟨2⟩))
    (by decide +kernel)
  have hscope := eq_ok_of_toOption_bind rootScope hg (b := ⟨2⟩) (by decide +kernel)
  have hlinking := eq_ok_of_toOption_bind (fun g => do
    let r ← g.connect ⟨⟨4⟩, ⟨0⟩⟩ ⟨⟨3⟩, ⟨2⟩⟩ true
    return (r.2, ← r.1.compile true, (← r.1.node ⟨4⟩).kind)) hg
    (b := (.ok ⟨⟨⟨4⟩, ⟨0⟩⟩, ⟨⟨3⟩, ⟨2⟩⟩, .value⟩, .ok declaredCode, .literal)) (by decide +kernel)
  have hreading := eq_ok_of_toOption_bind (fun g => do
    let r ← g.connect ⟨⟨4⟩, ⟨0⟩⟩ ⟨⟨3⟩, ⟨2⟩⟩ true
    let n ← r.1.node ⟨3⟩
    return (n.kind, n.valueIn?.bind Slot.first?, ← r.1.nodes.mapM fun x => do return (← r.1.node x).kind)) hg
    (b := (.variable, some ⟨⟨4⟩, ⟨0⟩⟩, [.entryPoint, .variable, .literal])) (by decide +kernel)
  simp only [bind_eq_ok, pure_eq_ok, Prod.mk.injEq] at hsource hlinking
  obtain ⟨source, hsource, hmerge, hkind, hfree, hhome⟩ := hsource
  obtain ⟨⟨linked, _⟩, hlinked, _, hcompile, literal, hliteral, rfl, rfl, hliteralKind⟩ := hlinking
  rw [hlinked] at hreading
  simp only [bind_eq_ok, ok_bind, pure_eq_ok, Prod.mk.injEq] at hreading
  obtain ⟨n, hn, kinds, hkinds, hvariable, hfirst, rfl⟩ := hreading
  have hr := declared_reachable hg
  have hr' : Reachable linked := .edit (.connect _ _ true) hr (bind_eq_ok.2 ⟨_, hlinked, rfl⟩)
  have hlive : ∀ s ∈ source.scope, ∃ sc, g.scopeAt? s = some sc := by
    intro s hs
    cases hhome.symm.trans hs
    obtain ⟨entry, hentry, hi⟩ := rootScope_eq_ok_iff.1 hscope
    obtain ⟨sc, hsc, -⟩ := hr.wellFormed.scopesOwned.internal hentry hi
    exact ⟨sc, hsc⟩
  have hdirect : ¬Redirects linked ⟨⟨⟨4⟩, ⟨0⟩⟩, ⟨⟨3⟩, ⟨2⟩⟩, .value⟩ := by
    rintro ⟨-, -, -, r, m, -, -, -, -, -, hhead, hm, hreference⟩
    rw [hhead, hn] at hm
    cases hm
    cases hvariable.symm.trans hreference
  have hquiet : ¬LeavesLiteral linked ⟨⟨⟨4⟩, ⟨0⟩⟩, ⟨⟨3⟩, ⟨2⟩⟩, .value⟩ := by
    rintro ⟨hx, hloop, -⟩
    have hlisted := hr'.wellFormed.nodesListed.mem_nodes_iff.2 (Option.isSome_of_mem (node_eq_ok_iff.1 hx))
    obtain ⟨kind, hmem, hfound⟩ := exists_of_mem_mapM hkinds hlisted
    rw [hx, ok_bind, pure_eq_ok, hloop] at hfound
    subst hfound
    exact absurd hmem (by decide)
  obtain ⟨hexists, hrest⟩ := runsAlike_of_merge hr hmerge hsource hkind hfree hlinked
  obtain ⟨merged, hmerged⟩ := hexists hlive
  obtain ⟨hcompiles, hsameFrames⟩ := hrest merged _ true hmerged
  obtain ⟨⟨c, hc⟩, -⟩ := hcompiles.1 ⟨_, hcompile⟩
  have hnot := not_readsEarly_declared (v := source.value) hn hvariable hfirst rfl hliteral hliteralKind
  exact ⟨g, linked, merged, _, c, hg, hr, hlinked, hmerged, hcompile, hc,
    hsameFrames _ c hcompile hc hnot hdirect hquiet⟩

/-- Node 3 is a variable that the program does not come to, and node 4 one that takes its value from it. -/
def bypassed : Except Fault Graph := do
  let g ← create {} {} .standard { mergeLiterals := true }
  let s ← g.rootScope
  [.declaration .int "x" s, .declaration .int "y" s, .literal (.int 5) s, .connect ⟨⟨1⟩, ⟨0⟩⟩ ⟨⟨4⟩, ⟨0⟩⟩ true,
    .connect ⟨⟨3⟩, ⟨3⟩⟩ ⟨⟨4⟩, ⟨2⟩⟩ true].foldlM perform g

def bypassedCode : Code :=
  .ofList (Program.code ⟨⟨⟨2⟩, "entry point", [⟨⟨3⟩, "x"⟩, ⟨⟨4⟩, "y"⟩]⟩, .sequence [.evaluate ⟨4⟩ "y"]⟩ true)

theorem bypassed_reachable (h : bypassed = .ok g) : Reachable g := by
  simp only [bypassed, bind_eq_ok] at h
  obtain ⟨g₀, hcreate, s, -, h⟩ := h
  exact (Reachable.create hcreate).edits h

/-- What a node of a graph is read as when the code has run over it. -/
def outcomeOf (g : Graph) (c : Code) (x : NodeId) : Except Fault (Option Value) :=
  match (({} : Machine).load c).1.run g 20 with
  | some (m, .ok ()) => .ok (m.readVariable x)
  | _ => .error .endless

theorem run_of_outcomeOf {w : Option Value} (h : outcomeOf g c x = .ok w) :
    ∃ m, (({} : Machine).load c).1.run g 20 = some (m, .ok ()) ∧ m.readVariable x = w := by
  unfold outcomeOf at h
  split at h
  next m hm => exact ⟨m, hm, Except.ok.inj h⟩
  next => cases h

/-- Node 4 is read as 0 where the literal is linked, and as 5 where it is merged. -/
theorem not_runsAlike_bypassed : ∃ g linked merged l, bypassed = .ok g ∧ Reachable g ∧ g.config.mergeLiterals = true ∧
    (∃ n, g.node ⟨5⟩ = .ok n ∧ n.kind = .literal ∧ n.outputs = []) ∧
    g.connect ⟨⟨5⟩, ⟨0⟩⟩ ⟨⟨3⟩, ⟨2⟩⟩ true = .ok (linked, .ok l) ∧
    g.connectOrMerge ⟨⟨5⟩, ⟨0⟩⟩ ⟨⟨3⟩, ⟨2⟩⟩ = .ok (merged, .ok none) ∧
    linked.compile true = .ok (.ok bypassedCode) ∧ merged.compile true = .ok (.ok bypassedCode) ∧
    outcomeOf linked bypassedCode ⟨4⟩ = .ok (some (.int 0)) ∧ outcomeOf merged bypassedCode ⟨4⟩ = .ok (some (.int 5)) ∧
    ¬RunsAlike linked bypassedCode merged bypassedCode := by
  obtain ⟨g, hg⟩ := exists_of_isOk (x := bypassed) (by decide +kernel)
  have hsource := eq_ok_of_toOption_bind (fun g => do
    let n ← g.node ⟨5⟩
    return (g.config.mergeLiterals, n.kind, n.outputs)) hg (b := (true, .literal, [])) (by decide +kernel)
  have hedits := eq_ok_of_toOption_bind (fun g => do
    let linked ← g.connect ⟨⟨5⟩, ⟨0⟩⟩ ⟨⟨3⟩, ⟨2⟩⟩ true
    let merged ← g.connectOrMerge ⟨⟨5⟩, ⟨0⟩⟩ ⟨⟨3⟩, ⟨2⟩⟩
    return (linked.2, merged.2)) hg (b := (.ok ⟨⟨⟨5⟩, ⟨0⟩⟩, ⟨⟨3⟩, ⟨2⟩⟩, .value⟩, .ok none)) (by decide +kernel)
  simp only [bind_eq_ok, pure_eq_ok, Prod.mk.injEq] at hsource hedits
  obtain ⟨n, hn, hmerge, hkind, hfree⟩ := hsource
  obtain ⟨⟨linked, _⟩, hlinked, ⟨merged, _⟩, hmerged, rfl, rfl⟩ := hedits
  have hlinking := eq_ok_of_toOption_bind (fun g => do
    let r ← g.connect ⟨⟨5⟩, ⟨0⟩⟩ ⟨⟨3⟩, ⟨2⟩⟩ true
    return (← r.1.compile true, ← outcomeOf r.1 bypassedCode ⟨4⟩)) hg
    (b := (.ok bypassedCode, some (.int 0))) (by decide +kernel)
  have hmerging := eq_ok_of_toOption_bind (fun g => do
    let r ← g.connectOrMerge ⟨⟨5⟩, ⟨0⟩⟩ ⟨⟨3⟩, ⟨2⟩⟩
    return (← r.1.compile true, ← outcomeOf r.1 bypassedCode ⟨4⟩)) hg
    (b := (.ok bypassedCode, some (.int 5))) (by decide +kernel)
  rw [hlinked] at hlinking
  rw [hmerged] at hmerging
  simp only [bind_eq_ok, ok_bind, pure_eq_ok, Prod.mk.injEq] at hlinking hmerging
  obtain ⟨_, hcompile, _, hread, rfl, rfl⟩ := hlinking
  obtain ⟨_, hcompile', _, hread', rfl, rfl⟩ := hmerging
  refine ⟨g, linked, merged, _, hg, bypassed_reachable hg, hmerge, ⟨n, hn, hkind, hfree⟩, hlinked, hmerged, hcompile,
    hcompile', hread, hread', fun hsameFrames => ?_⟩
  obtain ⟨m, hrun, hvalue⟩ := run_of_outcomeOf hread
  obtain ⟨m', hrun', hvalue'⟩ := run_of_outcomeOf hread'
  obtain ⟨k, hk⟩ := ((hsameFrames {} {} _ _ rfl rfl rfl rfl).1 (Machine.report (m, .ok ()))).1
    ⟨20, congrArg (Option.map Machine.report) hrun⟩
  obtain ⟨r, hr, hreport⟩ := Option.map_eq_some_iff.1 hk
  have hsame := hreport.symm.trans (report_unique (m := {}) rfl (by decide) rfl hr hrun')
  have hread : m.readVariable ⟨4⟩ = m'.readVariable ⟨4⟩ := congrFun (congrArg Prod.snd hsame) ⟨4⟩
  rw [hvalue, hvalue'] at hread
  cases hread

end Graph

end FlowGraph
