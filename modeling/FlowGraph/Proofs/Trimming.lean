import FlowGraph.Proofs.Absorption
import FlowGraph.Proofs.Circles
import FlowGraph.Proofs.Evaluations
import FlowGraph.Proofs.Execution
import FlowGraph.Proofs.Paths

/-!
# Plans without a literal

The outline of a graph where a literal is linked evaluates the literal before its reader, and where the literal is
merged it does not. That is all there is between the two outlines, and so one graph is compiled if the other is.
-/

namespace FlowGraph

inductive Plan.WithoutLiteral (h : Graph) (literal : NodeId) (v : Value) (strict : Prop) : Bool →
    Bool → Plan → Plan → Prop
  | skip {a : Bool} : WithoutLiteral h literal v strict a a .skip .skip
  | seq {a b c : Bool} {p p' q q' : Plan} : WithoutLiteral h literal v strict a b p p' →
      WithoutLiteral h literal v strict b c q q' →
      WithoutLiteral h literal v strict a c (.seq p q) (.seq p' q')
  | load {a : Bool} {x : NodeId} {name : String} : h.contains x = true →
      WithoutLiteral h literal v strict a true (.load x name) (.load x name)
  | evaluate {a : Bool} {x : NodeId} {m : Node} {name : String} : h.nodeAt? x = some m → m.kind ≠ .variableRef →
      WithoutLiteral h literal v strict a true (.evaluate x name) (.evaluate x name)
  | constant {a : Bool} {word : Word} : WithoutLiteral h literal v strict a true (.constant word) (.constant word)
  | frame {a b : Bool} {f : Frame} {p p' : Plan} : (∀ d ∈ f.declarations, h.contains d.node = true) →
      WithoutLiteral h literal v strict a b p p' → WithoutLiteral h literal v strict a b (.frame f p) (.frame f p')
  | loop {a b c : Bool} {name : String} {locals : List Declaration}
      {start start' test test' body body' step step' : Plan} :
      (∀ d ∈ locals, h.contains d.node = true) → WithoutLiteral h literal v strict a b start start' →
      WithoutLiteral h literal v strict b true test test' → WithoutLiteral h literal v strict true c body body' →
      WithoutLiteral h literal v strict c b step step' →
      WithoutLiteral h literal v strict a true (.loop name locals start test body step)
        (.loop name locals start' test' body' step')
  | choice {a : Bool} {name : String} {test test' onTrue onTrue' : Plan} :
      WithoutLiteral h literal v strict a true test test' →
      WithoutLiteral h literal v strict true true onTrue onTrue' →
      WithoutLiteral h literal v strict a true (.choice name test onTrue) (.choice name test' onTrue')
  | choiceElse {a : Bool} {name : String} {test test' onTrue onTrue' onFalse onFalse' : Plan} :
      WithoutLiteral h literal v strict a true test test' → WithoutLiteral h literal v strict true true onTrue onTrue' →
      WithoutLiteral h literal v strict true true onFalse onFalse' →
      WithoutLiteral h literal v strict a true (.choiceElse name test onTrue onFalse)
        (.choiceElse name test' onTrue' onFalse')
  | operand {a : Bool} {name : String} :
      WithoutLiteral h literal v strict a false (.seq .skip (.evaluate literal name)) .skip
  | condition {a : Bool} {name : String} :
      WithoutLiteral h literal v strict a true (.seq .skip (.evaluate literal name)) (.constant v.toWord)
  | weaken {a a' b b' : Bool} {p p' : Plan} : (strict → a ≤ a' ∧ b' ≤ b) → WithoutLiteral h literal v strict a b p p' →
      WithoutLiteral h literal v strict a' b' p p'

structure Program.WithoutLiteral (h : Graph) (literal : NodeId) (v : Value) (strict : Prop) (p p' : Program) :
    Prop where
  frame : p.frame = p'.frame
  live : ∀ d ∈ p'.frame.declarations, h.contains d.node = true
  body : p.body.WithoutLiteral h literal v strict true true p'.body

namespace Plan.WithoutLiteral

variable {h : Graph} {literal : NodeId} {v : Value} {strict : Prop} {a b : Bool} {p p' : Plan}

theorem loose (ht : p.WithoutLiteral h literal v strict a b p') : p.WithoutLiteral h literal v strict a false p' :=
  .weaken (fun _ => ⟨Bool.le_refl a, Bool.false_le b⟩) ht

theorem sure (ht : p.WithoutLiteral h literal v strict a b p') : p.WithoutLiteral h literal v strict true b p' :=
  .weaken (fun _ => ⟨Bool.le_true a, Bool.le_refl b⟩) ht

theorem sequence {ps ps' : List Plan} (ht : List.Forall₂ (Plan.WithoutLiteral h literal v strict a a) ps ps') :
    (Plan.sequence ps).WithoutLiteral h literal v strict a a (Plan.sequence ps') := by
  induction ht with
  | nil => exact .skip
  | cons hp _ ih => exact .seq hp ih

theorem length_code_le (ht : p.WithoutLiteral h literal v strict a b p') : p'.code.length ≤ p.code.length := by
  induction ht with
  | skip | load | evaluate | constant => exact Nat.le_refl _
  | operand => exact Nat.zero_le _
  | condition => exact Nat.le_refl _
  | weaken _ _ ih => exact ih
  | seq _ _ ihp ihq =>
    simp only [Plan.code, List.length_append]
    exact Nat.add_le_add ihp ihq
  | frame _ _ ih =>
    simp only [Plan.code, List.length_append]
    omega
  | loop _ _ _ _ _ ihstart ihtest ihbody ihstep =>
    simp only [Plan.code, List.length_append, Plan.passUnless, List.length_cons, List.length_nil]
    omega
  | choice _ _ ihtest ihtrue =>
    simp only [Plan.code, List.length_append, Plan.passUnless, List.length_cons, List.length_nil]
    omega
  | choiceElse _ _ _ ihtest ihtrue ihfalse =>
    simp only [Plan.code, List.length_append, Plan.passUnless, List.length_cons, List.length_nil]
    omega

end Plan.WithoutLiteral

theorem Program.WithoutLiteral.length_code_le {h : Graph} {literal : NodeId} {v : Value} {strict : Prop}
    {p p' : Program} (ht : p.WithoutLiteral h literal v strict p') (insertReturn : Bool) :
    (p'.code insertReturn).length ≤ (p.code insertReturn).length := by
  have hle := ht.body.length_code_le
  simp only [Program.code, ht.frame, List.length_append]
  omega

namespace Graph

variable {g h : Graph} {l : Link} {v : Value} {x y : NodeId} {s : ScopeId}

namespace FoldedLiteral

theorem node (ha : g.FoldedLiteral h l v) {m : Node} (hm : h.nodeAt? x = some m) :
    ∃ n, g.nodeAt? x = some n ∧ n.FoldedInput l.tail v m := by
  have hx : x ≠ l.tail.node := by
    rintro rfl
    cases ha.gone.symm.trans hm
  by_cases hreader : x = l.head.node
  · subst hreader
    obtain ⟨n, m', hn, hm', hfolded⟩ := ha.reader
    cases hm.symm.trans hm'
    exact ⟨n, hn, hfolded⟩
  · exact ⟨m, (ha.other x hx hreader).trans hm, .refl m⟩

theorem node_of_ne (ha : g.FoldedLiteral h l v) (hx : x ≠ l.tail.node) {n : Node} (hn : g.nodeAt? x = some n) :
    ∃ m, h.nodeAt? x = some m ∧ n.FoldedInput l.tail v m := by
  by_cases hreader : x = l.head.node
  · subst hreader
    obtain ⟨n', m, hn', hm, hfolded⟩ := ha.reader
    cases hn.symm.trans hn'
    exact ⟨m, hm, hfolded⟩
  · exact ⟨n, (ha.other x hx hreader).symm.trans hn, .refl n⟩

theorem scope_of (ha : g.FoldedLiteral h l v) {sc : Scope} (hsc : h.scopeAt? s = some sc) :
    ∃ sc', g.scopeAt? s = some sc' ∧ sc'.bare = sc.bare := by
  have hs := ha.scope s
  rw [hsc, Option.map_some, Option.map_eq_some_iff] at hs
  exact hs

theorem depthBound_lt (ha : g.FoldedLiteral h l v) : h.depthBound < g.depthBound := by
  have hlive : AllLive g (l.tail.node :: h.arena.handles .node) := by
    intro x hx
    rcases List.mem_cons.1 hx with rfl | hx
    · obtain ⟨n, hn, -⟩ := ha.literal
      exact ⟨n, hn⟩
    · obtain ⟨m, hm⟩ := Arena.exists_of_mem_handles hx
      obtain ⟨n, hn, -⟩ := ha.node hm
      exact ⟨n, hn⟩
  have hnodup : (l.tail.node :: h.arena.handles .node).Nodup := by
    refine List.nodup_cons.2 ⟨fun hmem => ?_, Arena.nodup_handles _ _⟩
    obtain ⟨m, hm⟩ := Arena.exists_of_mem_handles hmem
    cases ha.gone.symm.trans hm
  have hlt := length_lt_depthBound hnodup hlive
  rwa [List.length_cons, Arena.handles, List.length_map] at hlt

theorem samePathData (ha : g.FoldedLiteral h l v) : g.SamePathData h := by
  constructor
  · intro x m hm
    obtain ⟨n, hn, hfoldedLiteral⟩ := ha.node hm
    exact ⟨n, hn, hfoldedLiteral.flowOutputs, hfoldedLiteral.scope, hfoldedLiteral.internalScope⟩
  · intro s sc hsc
    obtain ⟨sc', hsc', hbare⟩ := ha.scope_of hsc
    exact ⟨sc', hsc', (Scope.of_bare hbare).2.1, (Scope.of_bare hbare).2.2.2⟩

theorem side? (ha : g.FoldedLiteral h l v) {n m : Node} (hnm : n.FoldedInput l.tail v m) (side : Side) :
    Entails (h.side? m side) (g.side? n side) := by
  intro found hfound
  unfold Graph.side? at hfound ⊢
  rw [hnm.internalScope]
  cases hi : m.internalScope with
  | none => rwa [hi] at hfound
  | some i =>
    simp only [hi, bind_eq_ok, scope_eq_ok_iff, pure_eq_ok] at hfound ⊢
    obtain ⟨sc, hsc, rfl⟩ := hfound
    obtain ⟨sc', hsc', hbare⟩ := ha.scope_of hsc
    exact ⟨sc', hsc', by rw [Scope.partition?, (Scope.of_bare hbare).2.1, Scope.partition?]⟩

theorem declarations (ha : g.FoldedLiteral h l v) (vs : List NodeId) :
    Entails (h.declarations vs) (g.declarations vs) := by
  refine .mapM (fun x d hd => ?_) vs
  simp only [bind_eq_ok, node_eq_ok_iff, pure_eq_ok] at hd ⊢
  obtain ⟨m, hm, rfl⟩ := hd
  obtain ⟨n, hn, hnm⟩ := ha.node hm
  exact ⟨n, hn, by rw [hnm.name]⟩

theorem localsOf (ha : g.FoldedLiteral h l v) {n m : Node} (hnm : n.FoldedInput l.tail v m) {locals : List Declaration}
    (hlocals : h.LocalsOf m locals) : g.LocalsOf n locals ∧ ∀ d ∈ locals, h.contains d.node = true := by
  rcases hlocals with ⟨hnone, rfl⟩ | ⟨i, sc, hi, hsc, hds⟩
  · exact ⟨.inl ⟨hnm.internalScope.trans hnone, rfl⟩, fun _ hd => absurd hd List.not_mem_nil⟩
  · obtain ⟨sc', hsc', hbare⟩ := ha.scope_of hsc
    obtain ⟨hnodes, hlive⟩ := nodes_of_declarations hds
    refine ⟨.inr ⟨i, sc', hnm.internalScope.trans hi, hsc', ?_⟩, fun d hd => ?_⟩
    · rw [(Scope.of_bare hbare).2.2.1]
      exact ha.declarations _ _ hds
    · exact hlive d.node (hnodes ▸ List.mem_map_of_mem hd)

end FoldedLiteral

def RunsLiteralOnly (g : Graph) (l : Link) (x : NodeId) : Prop :=
  x = l.tail.node ∨ x = l.head.node ∧ ∃ n, g.node x = .ok n ∧ n.kind = .variableRef

/-- The initialization or the iteration of a `for` leaves the literal in the accumulator, and its condition goes by what
is there, because the node that feeds it is neither read nor evaluated. -/
inductive LeavesLiteral (g : Graph) (l : Link) : Prop
  | intro {x : NodeId} {n m : Node} {b : Branch} {i : SlotId} {r c : SlotRef} : g.node x = .ok n → n.kind = .forLoop →
      n.branch = some b → b.initialization = some i ∨ b.iteration = some i → (n.slot? i).bind Slot.first? = some r →
      RunsLiteralOnly g l r.node → (n.slot? b.condition).bind Slot.first? = some c → g.node c.node = .ok m →
      m.isVariableLike = false → m.isEvaluated = false → LeavesLiteral g l

structure OutlinesMatch (h : Graph) (l : Link) (v : Value) (strict : Prop) (x : NodeId) (m : Node) (p p' : Plan) :
    Prop where
  evaluated : m.isEvaluated = true → p.WithoutLiteral h l.tail.node v strict false true p'
  idle : m.isEvaluated = false → m.isVariableLike = false → m.kind.isConditional = false →
    ∀ a, p.WithoutLiteral h l.tail.node v strict a a p'
  steady : (x = l.head.node → m.kind ≠ .variableRef) → p.WithoutLiteral h l.tail.node v strict true true p'
  loose : p.WithoutLiteral h l.tail.node v strict true false p'

theorem isVariableLike_of_kind {n m : Node} (h : n.kind = m.kind) : n.isVariableLike = m.isVariableLike := by
  rw [Node.isVariableLike, h, Node.isVariableLike]

section Level

variable {planNode planNode' : NodeId → Except Fault Plan} {n m : Node} {strict : Prop} {name : String}
variable (ha : g.FoldedLiteral h l v) (hr : Reachable h)
variable (hlevel : ∀ x p', planNode' x = .ok p' → ∃ p m, planNode x = .ok p ∧ h.nodeAt? x = some m ∧
  OutlinesMatch h l v strict x m p p')
variable (hliteral : planNode l.tail.node = .ok (.seq .skip (.evaluate l.tail.node name)))

include ha hr hlevel

omit ha in
theorem plan_of_backbone {path : List NodeId} (hpath : h.backbone s = .ok path) (hx : x ∈ path) {p' : Plan}
    (hp' : planNode' x = .ok p') : ∃ p, planNode x = .ok p ∧ p.WithoutLiteral h l.tail.node v strict true true p' := by
  obtain ⟨p, m, hp, hm, houtlinesMatch⟩ := hlevel x p' hp'
  refine ⟨p, hp, houtlinesMatch.steady fun _ hkind => ?_⟩
  obtain ⟨m', hm', slot, hslot, hflow, -⟩ := hr.headsHaveFlowIn.backbone hr.wellFormed.linksMatch hpath x hx
  cases hm.symm.trans hm'
  cases hflow.symm.trans (hr.hasLayouts.value_of_reference hm hkind slot hslot)

theorem withoutLiteral_outlineScope {p' : Program} (hp' : h.outlineScope planNode' s = .ok p') :
    ∃ p, g.outlineScope planNode s = .ok p ∧ p.WithoutLiteral h l.tail.node v strict p' := by
  simp only [outlineScope, bind_eq_ok, scope_eq_ok_iff, node_eq_ok_iff, pure_eq_ok] at hp'
  obtain ⟨sc, hsc, owner, howner, ds, hds, path, hpath, plans', hplans', rfl⟩ := hp'
  obtain ⟨sc', hsc', hbare⟩ := ha.scope_of hsc
  obtain ⟨hownerId, -, hdeclared, -⟩ := Scope.of_bare hbare
  obtain ⟨owner', howner', hfolded⟩ := ha.node howner
  obtain ⟨plans, hplans, hwithoutLiteral⟩ :=
      exists_mapM_of_rel (S := Plan.WithoutLiteral h l.tail.node v strict true true)
    (f := planNode) (List.forall₂_same.2 fun x (_ : x ∈ path) => rfl) (fun x _ p' hxy hx hp' => by
      subst hxy
      exact plan_of_backbone hr hlevel hpath hx hp') hplans'
  refine ⟨⟨⟨s, owner.name, ds⟩, .sequence plans⟩, ?_, rfl, fun d hd => ?_, .sequence hwithoutLiteral⟩
  · simp only [outlineScope, bind_eq_ok, scope_eq_ok_iff, node_eq_ok_iff, pure_eq_ok]
    refine ⟨sc', hsc', owner', hownerId ▸ howner', ds, ?_, path,
      ha.samePathData.backbone s path hpath, plans, hplans, ?_⟩
    · rw [hdeclared]
      exact ha.declarations _ _ hds
    · rw [hfolded.name]
  · exact (nodes_of_declarations hds).2 d.node ((nodes_of_declarations hds).1 ▸ List.mem_map_of_mem hd)

theorem withoutLiteral_outlineBlock {p' : Plan} (hp' : h.outlineBlock planNode' s = .ok p') :
    ∃ p, g.outlineBlock planNode s = .ok p ∧ p.WithoutLiteral h l.tail.node v strict true true p' := by
  simp only [outlineBlock, bind_eq_ok, pure_eq_ok] at hp' ⊢
  obtain ⟨q', hq', rfl⟩ := hp'
  obtain ⟨q, hq, hwithoutLiteral⟩ := withoutLiteral_outlineScope ha hr hlevel hq'
  refine ⟨_, ⟨q, hq, rfl⟩, ?_⟩
  rw [hwithoutLiteral.frame]
  exact .frame hwithoutLiteral.live hwithoutLiteral.body

theorem withoutLiteral_outlineTrueSide (hnm : n.FoldedInput l.tail v m) {p' : Plan}
    (hp' : h.outlineTrueSide planNode' m = .ok p') :
    ∃ p, g.outlineTrueSide planNode n = .ok p ∧ p.WithoutLiteral h l.tail.node v strict true true p' := by
  simp only [outlineTrueSide, bind_eq_ok] at hp' ⊢
  obtain ⟨side, hside, hp'⟩ := hp'
  cases side with
  | none =>
    obtain rfl := pure_eq_ok.1 hp'
    exact ⟨.skip, ⟨none, ha.side? hnm _ _ hside, rfl⟩, .skip⟩
  | some s =>
    obtain ⟨p, hp, hwithoutLiteral⟩ := withoutLiteral_outlineBlock ha hr hlevel hp'
    exact ⟨p, ⟨some s, ha.side? hnm _ _ hside, hp⟩, hwithoutLiteral⟩

include hliteral

theorem withoutLiteral_outlineInput (hm : h.nodeAt? x = some m) (hnm : n.FoldedInput l.tail v m) {b : Branch}
    (hb : m.branch = some b) {slot : Option SlotId} (hslot : slot = b.initialization ∨ slot = b.iteration) {p' : Plan}
    (hp' : outlineInput planNode' m slot = .ok p') : ∃ p, outlineInput planNode n slot = .ok p ∧
      p.WithoutLiteral h l.tail.node v strict true false p' ∧
      ((∀ i r, slot = some i → (n.slot? i).bind Slot.first? = some r → ¬RunsLiteralOnly g l r.node) →
        p.WithoutLiteral h l.tail.node v strict true true p') := by
  cases slot with
  | none =>
    cases hp'
    exact ⟨.skip, rfl, .loose .skip, fun _ => .skip⟩
  | some i =>
    simp only [outlineInput, Option.bind_some] at hp' ⊢
    have hbranch : b.initialization = some i ∨ b.iteration = some i := hslot.imp Eq.symm Eq.symm
    cases hr' : (m.slot? i).bind Slot.first? with
    | some r =>
      simp only [hr'] at hp'
      obtain ⟨p, m', hp, hm', houtlinesMatch⟩ := hlevel _ _ hp'
      have hfirst := hnm.first?_of_slot? hr'
      simp only [hfirst]
      refine ⟨p, hp, houtlinesMatch.loose, fun hnot => houtlinesMatch.steady fun hhead hkind => ?_⟩
      obtain ⟨n', hn', hfoldedInput⟩ := ha.node hm'
      exact hnot i r rfl hfirst (.inr ⟨hhead, n', node_eq_ok_iff.2 hn', hfoldedInput.kind.trans hkind⟩)
    | none =>
      simp only [hr'] at hp'
      cases hp'
      obtain ⟨hfirst, -⟩ | ⟨hfirst, -⟩ :=
        hnm.unlinked_slot (fun _ => hr.hasLayouts.input_of_branch hm hb (.inr hbranch)) hr'
      · simp only [hfirst]
        exact ⟨_, hliteral, .operand, fun hnot => (hnot i l.tail rfl hfirst (.inl rfl)).elim⟩
      · simp only [hfirst]
        exact ⟨.skip, rfl, .loose .skip, fun _ => .skip⟩

/-- A condition leaves the same in both accumulators, whatever was there, unless it is left to what was there. -/
theorem withoutLiteral_outlineCondition (hm : h.nodeAt? x = some m) (hnm : n.FoldedInput l.tail v m) {b : Branch}
    (hb : m.branch = some b) {p' : Plan} (hp' : h.outlineCondition planNode' m b = .ok p') :
    ∃ p, g.outlineCondition planNode n b = .ok p ∧ p.WithoutLiteral h l.tail.node v strict true true p' ∧
      ((∀ c k, (n.slot? b.condition).bind Slot.first? = some c → g.node c.node = .ok k → k.isVariableLike = false →
        k.isEvaluated = true) → p.WithoutLiteral h l.tail.node v strict false true p') := by
  simp only [outlineCondition] at hp' ⊢
  cases hc : (m.slot? b.condition).bind Slot.first? with
  | some c =>
    simp only [hc] at hp'
    obtain ⟨reads, hreads, hp'⟩ := bind_eq_ok.1 hp'
    have hfirst := hnm.first?_of_slot? hc
    obtain ⟨reads', hreads', hfoldedInput⟩ := ha.node (node_eq_ok_iff.1 hreads)
    have hlike := isVariableLike_of_kind hfoldedInput.kind
    simp only [hfirst, node_eq_ok_iff.2 hreads', ok_bind]
    split at hp'
    next hreadsLike =>
      cases hp'
      have hload {a : Bool} : (Plan.load c.node reads.name).WithoutLiteral h l.tail.node v strict a true
          (.load c.node reads.name) :=
        .load (contains_of_node hreads)
      rw [if_pos (hlike.trans hreadsLike), hfoldedInput.name]
      exact ⟨_, rfl, hload, fun _ => hload⟩
    next hreadsNot =>
      obtain ⟨p, m', hp, hm', houtlinesMatch⟩ := hlevel _ _ hp'
      cases (node_eq_ok_iff.1 hreads).symm.trans hm'
      have hnot : reads.isVariableLike = false := Bool.eq_false_iff.2 hreadsNot
      rw [if_neg (by rw [hlike]; exact hreadsNot)]
      refine ⟨p, hp, houtlinesMatch.steady fun _ hkind => ?_, fun hevaluated => houtlinesMatch.evaluated ?_⟩
      · rw [Node.isVariableLike, hkind] at hnot
        cases hnot
      · have := hevaluated c reads' rfl (node_eq_ok_iff.2 hreads') (hlike.trans hnot)
        rwa [Node.isEvaluated, Node.isInvokable, hfoldedInput.kind] at this
  | none =>
    simp only [hc] at hp'
    obtain rfl := pure_eq_ok.1 hp'
    obtain ⟨hfirst, hvalue⟩ | ⟨hfirst, hvalue⟩ :=
        hnm.unlinked_slot (fun _ => hr.hasLayouts.input_of_branch hm hb (.inl rfl)) hc
    · obtain ⟨source, hsource, hkind, -⟩ := ha.literal
      have hlike : source.isVariableLike = false := by rw [Node.isVariableLike, hkind]; rfl
      simp only [hfirst, node_eq_ok_iff.2 hsource, ok_bind, hlike]
      rw [hvalue]
      exact ⟨_, hliteral, .condition, fun _ => .condition⟩
    · simp only [hfirst]
      rw [hvalue]
      exact ⟨_, rfl, .constant, fun _ => .constant⟩

theorem withoutLiteral_outlineWhile (hm : h.nodeAt? x = some m) (hnm : n.FoldedInput l.tail v m) {b : Branch}
    (hb : m.branch = some b) {p' : Plan} (hp' : h.outlineWhile planNode' m b = .ok p') :
    ∃ p, g.outlineWhile planNode n b = .ok p ∧ p.WithoutLiteral h l.tail.node v strict true true p' := by
  simp only [outlineWhile, bind_eq_ok, pure_eq_ok] at hp' ⊢
  obtain ⟨test', htest', body', hbody', rfl⟩ := hp'
  obtain ⟨test, htest, hwithoutLiteral, -⟩ := withoutLiteral_outlineCondition ha hr hlevel hliteral hm hnm hb htest'
  obtain ⟨body, hbody, hwithoutLiteral'⟩ := withoutLiteral_outlineTrueSide ha hr hlevel hnm hbody'
  refine ⟨_, ⟨test, htest, body, hbody, rfl⟩, ?_⟩
  rw [hnm.name]
  exact .loop (fun _ hd => absurd hd List.not_mem_nil) .skip hwithoutLiteral hwithoutLiteral' .skip

/-- A condition that goes by what is in the accumulator is none that follows the literal. -/
theorem withoutLiteral_outlineFor (hleavesLiteral : strict → ¬LeavesLiteral g l) (hm : h.nodeAt? x = some m)
    (hn : g.nodeAt? x = some n) (hnm : n.FoldedInput l.tail v m) (hkind : m.kind = .forLoop) {b : Branch}
    (hb : m.branch = some b) {p' : Plan} (hp' : h.outlineFor planNode' m b = .ok p') :
    ∃ p, g.outlineFor planNode n b = .ok p ∧ p.WithoutLiteral h l.tail.node v strict true true p' := by
  obtain ⟨locals, start', test', body', step', hlocals, hstart', htest', hbody', hstep', rfl⟩ :=
    outlineFor_eq_ok_iff.1 hp'
  obtain ⟨start, hstart, hwithoutLiteral₁, hquiet₁⟩ :=
      withoutLiteral_outlineInput ha hr hlevel hliteral hm hnm hb (.inl rfl) hstart'
  obtain ⟨test, htest, hwithoutLiteral₂, hquiet₂⟩ :=
      withoutLiteral_outlineCondition ha hr hlevel hliteral hm hnm hb htest'
  obtain ⟨body, hbody, hwithoutLiteral₃⟩ := withoutLiteral_outlineTrueSide ha hr hlevel hnm hbody'
  obtain ⟨step, hstep, hwithoutLiteral₄, hquiet₄⟩ :=
      withoutLiteral_outlineInput ha hr hlevel hliteral hm hnm hb (.inr rfl) hstep'
  obtain ⟨hlocalsOf, hthere⟩ := ha.localsOf hnm hlocals
  refine ⟨_, outlineFor_eq_ok_iff.2 ⟨locals, start, test, body, step, hlocalsOf, hstart, htest, hbody, hstep, rfl⟩, ?_⟩
  rw [hnm.name]
  by_cases hrunsLiteralOnly : ∃ i r, (b.initialization = some i ∨ b.iteration = some i) ∧
      (n.slot? i).bind Slot.first? = some r ∧ RunsLiteralOnly g l r.node
  · obtain ⟨i, r, hbranch, hr, hrepeated⟩ := hrunsLiteralOnly
    refine .loop hthere hwithoutLiteral₁ ?_ hwithoutLiteral₃ hwithoutLiteral₄
    by_cases hquiet : ∀ c k, (n.slot? b.condition).bind Slot.first? = some c → g.node c.node = .ok k →
        k.isVariableLike = false → k.isEvaluated = true
    · exact hquiet₂ hquiet
    · refine .weaken (fun hstrict => (hleavesLiteral hstrict ?_).elim) hwithoutLiteral₂
      push Not at hquiet
      obtain ⟨c, k, hc, hk, hlike, hevaluated⟩ := hquiet
      exact ⟨node_eq_ok_iff.2 hn, hnm.kind.trans hkind, hnm.branch.trans hb, hbranch, hr, hrepeated, hc, hk, hlike,
        Bool.eq_false_iff.2 hevaluated⟩
  · refine .loop hthere (hquiet₁ fun i r hi hr hrepeated => hrunsLiteralOnly ⟨i, r, .inl hi, hr, hrepeated⟩)
      hwithoutLiteral₂ hwithoutLiteral₃
      (hquiet₄ fun i r hi hr hrepeated => hrunsLiteralOnly ⟨i, r, .inr hi, hr, hrepeated⟩)

theorem withoutLiteral_outlineIf (hm : h.nodeAt? x = some m) (hnm : n.FoldedInput l.tail v m) {b : Branch}
    (hb : m.branch = some b) {p' : Plan} (hp' : h.outlineIf planNode' m b = .ok p') :
    ∃ p, g.outlineIf planNode n b = .ok p ∧ p.WithoutLiteral h l.tail.node v strict true true p' := by
  simp only [outlineIf, bind_eq_ok] at hp' ⊢
  obtain ⟨test', htest', onTrue', htrue', side, hside, hp'⟩ := hp'
  obtain ⟨test, htest, hwithoutLiteral, -⟩ := withoutLiteral_outlineCondition ha hr hlevel hliteral hm hnm hb htest'
  obtain ⟨onTrue, htrue, hwithoutLiteral'⟩ := withoutLiteral_outlineTrueSide ha hr hlevel hnm htrue'
  have hside' := ha.side? hnm _ _ hside
  rw [hnm.name]
  have hchoice : (Plan.choice m.name test onTrue).WithoutLiteral h l.tail.node v strict true true
      (.choice m.name test' onTrue') :=
    .choice hwithoutLiteral hwithoutLiteral'
  have hblock {s : ScopeId} {onFalse' : Plan} (hfalse' : h.outlineBlock planNode' s = .ok onFalse') :
      ∃ onFalse, g.outlineBlock planNode s = .ok onFalse ∧ (Plan.choiceElse m.name test onTrue onFalse).WithoutLiteral h
        l.tail.node v strict true true (.choiceElse m.name test' onTrue' onFalse') := by
    obtain ⟨onFalse, hfalse, hwithoutLiteral''⟩ := withoutLiteral_outlineBlock ha hr hlevel hfalse'
    exact ⟨onFalse, hfalse, .choiceElse hwithoutLiteral hwithoutLiteral' hwithoutLiteral''⟩
  cases side with
  | none =>
    obtain rfl := pure_eq_ok.1 hp'
    exact ⟨_, ⟨test, htest, onTrue, htrue, none, hside', rfl⟩, hchoice⟩
  | some s =>
    obtain ⟨path, hpath, hp'⟩ := bind_eq_ok.1 hp'
    have hpath' := ha.samePathData.backbone s path hpath
    match path, hpath, hpath', hp' with
    | [], _, hpath', hp' =>
      obtain rfl := pure_eq_ok.1 hp'
      exact ⟨_, ⟨test, htest, onTrue, htrue, some s, hside', bind_eq_ok.2 ⟨[], hpath', rfl⟩⟩, hchoice⟩
    | [only], hpath, hpath', hp' =>
      obtain ⟨inner, hinner, hp'⟩ := bind_eq_ok.1 hp'
      obtain ⟨inner', hinner', hfoldedInput⟩ := ha.node (node_eq_ok_iff.1 hinner)
      split at hp'
      next hkind =>
        obtain ⟨onFalse', hfalse', hp'⟩ := bind_eq_ok.1 hp'
        obtain rfl := pure_eq_ok.1 hp'
        obtain ⟨onFalse, hfalse, hwithoutLiteral''⟩ :=
            plan_of_backbone hr hlevel hpath (List.mem_singleton_self only) hfalse'
        refine ⟨_, ⟨test, htest, onTrue, htrue, some s, hside', bind_eq_ok.2 ⟨[only], hpath', bind_eq_ok.2
          ⟨inner', node_eq_ok_iff.2 hinner', (if_pos (hfoldedInput.kind.trans hkind)).trans ?_⟩⟩⟩,
          .choiceElse hwithoutLiteral hwithoutLiteral' hwithoutLiteral''⟩
        exact bind_eq_ok.2 ⟨onFalse, hfalse, rfl⟩
      next hkind =>
        obtain ⟨onFalse', hfalse', hp'⟩ := bind_eq_ok.1 hp'
        obtain rfl := pure_eq_ok.1 hp'
        obtain ⟨onFalse, hfalse, hchoice⟩ := hblock hfalse'
        refine ⟨_, ⟨test, htest, onTrue, htrue, some s, hside', bind_eq_ok.2 ⟨[only], hpath', bind_eq_ok.2
          ⟨inner', node_eq_ok_iff.2 hinner', (if_neg (by rwa [hfoldedInput.kind])).trans ?_⟩⟩⟩, hchoice⟩
        exact bind_eq_ok.2 ⟨onFalse, hfalse, rfl⟩
    | first :: second :: rest, _, hpath', hp' =>
      obtain ⟨onFalse', hfalse', hp'⟩ := bind_eq_ok.1 hp'
      obtain rfl := pure_eq_ok.1 hp'
      obtain ⟨onFalse, hfalse, hchoice⟩ := hblock hfalse'
      exact ⟨_, ⟨test, htest, onTrue, htrue, some s, hside', bind_eq_ok.2 ⟨_, hpath',
        bind_eq_ok.2 ⟨onFalse, hfalse, rfl⟩⟩⟩, hchoice⟩

/-- What feeds an input of an expression is evaluated, or leaves the accumulator as it is; the literal does neither. -/
theorem withoutLiteral_outlineOperand (hm : h.nodeAt? x = some m) {a b : Slot} (hother : x ≠ l.head.node → a = b)
    (hfoldedSlot : Node.FoldedSlot l.tail v n m a b) (hb : b ∈ m.filterSlots .input) {p' : Plan}
    (hp' : h.outlineOperand planNode' b = .ok p') : ∃ p, g.outlineOperand planNode a = .ok p ∧
      p.WithoutLiteral h l.tail.node v strict false false p' ∧
      (x ≠ l.head.node → p.WithoutLiteral h l.tail.node v strict true true p') := by
  obtain ⟨hmem, hkind, hprimary⟩ := Node.mem_filterSlots_input.1 hb
  simp only [outlineOperand] at hp' ⊢
  cases hr' : b.first? with
  | some r =>
    obtain rfl := hfoldedSlot.of_first? hr'
    simp only [hr'] at hp' ⊢
    obtain ⟨reads, hreads, hp'⟩ := bind_eq_ok.1 hp'
    obtain ⟨reads', hreads', hfolded⟩ := ha.node (node_eq_ok_iff.1 hreads)
    have hlike := isVariableLike_of_kind hfolded.kind
    simp only [node_eq_ok_iff.2 hreads', ok_bind, hlike]
    split at hp'
    next hreadsLike =>
      cases hp'
      rw [if_pos hreadsLike]
      exact ⟨.skip, rfl, .skip, fun _ => .skip⟩
    next hreadsNot =>
      obtain ⟨p, m', hp, hm', houtlinesMatch⟩ := hlevel _ _ hp'
      cases (node_eq_ok_iff.1 hreads).symm.trans hm'
      rw [if_neg hreadsNot]
      obtain ⟨m', hm', -, hplain⟩ :=
          hr.hasLayouts.plain_of_input hr.wellFormed.linksMatch hm (Node.mem_inputs_of_first hb hr')
      cases (node_eq_ok_iff.1 hreads).symm.trans hm'
      refine ⟨p, hp, ?_, fun _ => houtlinesMatch.steady fun _ hreference => ?_⟩
      · cases hevaluated : reads.isEvaluated with
        | true => exact (houtlinesMatch.evaluated hevaluated).loose
        | false => exact houtlinesMatch.idle hevaluated (Bool.eq_false_iff.2 hreadsNot) hplain false
      · rw [Node.isVariableLike, hreference] at hreadsNot
        exact hreadsNot rfl
  | none =>
    simp only [hr'] at hp'
    obtain rfl := pure_eq_ok.1 hp'
    obtain ⟨hfirst, -⟩ | ⟨hfirst, -⟩ := hfoldedSlot.of_first?_eq_none hkind hprimary hr'
    · obtain ⟨source, hsource, hliteralKind, -⟩ := ha.literal
      have hlike : source.isVariableLike = false := by rw [Node.isVariableLike, hliteralKind]; rfl
      simp only [hfirst, node_eq_ok_iff.2 hsource, ok_bind, hlike]
      refine ⟨_, hliteral, .operand, fun hx => ?_⟩
      rw [hother hx, hr'] at hfirst
      cases hfirst
    · simp only [hfirst]
      exact ⟨.skip, rfl, .skip, fun _ => .skip⟩

omit ha hlevel hliteral in
theorem filterSlots_of_idle (hm : h.nodeAt? x = some m) (hevaluated : m.isEvaluated = false)
    (hlike : m.isVariableLike = false) (hkind : m.kind.isConditional = false) : m.filterSlots .input = [] := by
  refine List.filter_eq_nil_iff.2 fun slot hslot hflags => ?_
  obtain ⟨hvalue, hprimary⟩ := slot.hasFlags_input_iff.1 hflags
  obtain ⟨-, ⟨-, hlike'⟩ | ⟨-, hinvokable | hkind'⟩⟩ := hr.hasLayouts.input_traits hm hslot hvalue hprimary
  · cases hlike.symm.trans hlike'
  · rw [Node.isEvaluated, hinvokable] at hevaluated
    cases hevaluated
  · cases hkind.symm.trans hkind'

theorem withoutLiteral_outlineSimple (hm : h.nodeAt? x = some m) (hnm : n.FoldedInput l.tail v m)
    (hx : x ≠ l.head.node → n = m) (hconditional : m.kind.isConditional = false) {p' : Plan}
    (hp' : h.outlineSimple planNode' x m = .ok p') :
    ∃ p, g.outlineSimple planNode x n = .ok p ∧ OutlinesMatch h l v strict x m p p' := by
  have hslots : List.Forall₂ (fun a b => Node.FoldedSlot l.tail v n m a b ∧ (x ≠ l.head.node → a = b))
      (n.filterSlots .input) (m.filterSlots .input) := by
    by_cases hreader : x = l.head.node
    · exact (hnm.filterSlots rfl).imp fun _ _ hfoldedSlot => ⟨hfoldedSlot, fun hx => (hx hreader).elim⟩
    · obtain rfl := hx hreader
      exact List.forall₂_same.2 fun _ _ => ⟨.same fun _ _ => rfl, fun _ => rfl⟩
  obtain ⟨operands', hoperands', hp'⟩ := bind_eq_ok.1 hp'
  obtain rfl := pure_eq_ok.1 hp'
  obtain ⟨operands, hoperands, hwithoutLiteral⟩ := exists_mapM_of_rel hslots (fun a b p' hab hb hp' =>
    withoutLiteral_outlineOperand ha hr hlevel hliteral hm hab.2 hab.1 hb hp') hoperands'
  have hsequence := Plan.WithoutLiteral.sequence (hwithoutLiteral.imp fun _ _ h => h.1)
  refine ⟨_, bind_eq_ok.2 ⟨operands, hoperands, rfl⟩, ?_⟩
  have hsame : n.isEvaluated = m.isEvaluated := by
    rw [Node.isEvaluated, Node.isInvokable, hnm.kind, Node.isEvaluated, Node.isInvokable]
  change OutlinesMatch h l v strict x m
      (.seq (.sequence operands) (if n.isEvaluated then .evaluate x n.name else .skip))
    (.seq (.sequence operands') (if m.isEvaluated then .evaluate x m.name else .skip))
  rw [hsame, hnm.name]
  cases hevaluated : m.isEvaluated with
  | true =>
    have hkind : m.kind ≠ .variableRef := by
      intro hkind
      rw [Node.isEvaluated, Node.isInvokable, hkind] at hevaluated
      cases hevaluated
    have hrun : (Plan.seq (.sequence operands) (.evaluate x m.name)).WithoutLiteral h l.tail.node v strict false true
        (.seq (.sequence operands') (.evaluate x m.name)) := .seq hsequence (.evaluate hm hkind)
    exact ⟨fun _ => hrun, fun hnot => (Bool.false_ne_true (hnot.symm.trans hevaluated)).elim, fun _ => hrun.sure,
      hrun.sure.loose⟩
  | false =>
    have hidle (hlike : m.isVariableLike = false) (a : Bool) :
        (Plan.seq (.sequence operands) .skip).WithoutLiteral h l.tail.node v strict a a
          (.seq (.sequence operands') .skip) := by
      rw [filterSlots_of_idle hr hm hevaluated hlike hconditional] at hoperands'
      cases hoperands'
      cases hwithoutLiteral
      exact .seq .skip .skip
    refine ⟨fun hnot => (Bool.false_ne_true (hevaluated.symm.trans hnot)).elim, fun _ hlike _ => hidle hlike,
      fun hother => ?_, .seq hsequence.sure .skip⟩
    by_cases hreader : x = l.head.node
    · refine hidle (Bool.eq_false_iff.2 fun hlike => ?_) true
      rw [Node.isVariableLike, Bool.or_eq_true, beq_iff_eq, beq_iff_eq] at hlike
      rw [Node.isEvaluated, hlike.resolve_right (hother hreader)] at hevaluated
      simp at hevaluated
    · exact .seq (.sequence (hwithoutLiteral.imp fun _ _ h => h.2 hreader)) .skip

end Level

section

variable {k : Nat} {m : Node} {strict : Prop} (ha : g.FoldedLiteral h l v) (hg : Reachable g) (hr : Reachable h)

include ha hg

omit hr in
/-- A literal has no inputs. -/
theorem outlineWithin_of_foldedLiteral (k : Nat) : ∃ name,
    g.outlineWithin (k + 1) l.tail.node = .ok (.seq .skip (.evaluate l.tail.node name)) := by
  obtain ⟨n, hn, hkind, -⟩ := ha.literal
  have hnone : n.filterSlots .input = [] := (hg.hasLayouts.onlyOutput_of_literal hn hkind).filterSlots_eq_nil rfl rfl
  refine ⟨n.name, ?_⟩
  rw [outlineWithin_simple hn (by rw [hkind]; rfl), outlineSimple, hnone, hkind, List.mapM_nil]
  simp only [pure_bind, beq_self_eq_true, Bool.or_true, if_true]
  rfl

include hr

/-- The outline of a node takes one level more where the literal is linked. -/
theorem outlinesMatch_outlineWithin (hleavesLiteral : strict → ¬LeavesLiteral g l) {p' : Plan}
    (hp' : h.outlineWithin k x = .ok p') :
    ∃ p m, g.outlineWithin (k + 1) x = .ok p ∧ h.nodeAt? x = some m ∧ OutlinesMatch h l v strict x m p p' := by
  induction k generalizing x p' with
  | zero => cases hp'
  | succ k ih =>
    obtain ⟨m, hm, -⟩ := bind_eq_ok.1 hp'
    rw [node_eq_ok_iff] at hm
    obtain ⟨n, hn, hnm⟩ := ha.node hm
    obtain ⟨name, hliteral⟩ := outlineWithin_of_foldedLiteral ha hg k
    have hlevel (x : NodeId) (p' : Plan) (hp' : h.outlineWithin k x = .ok p') := ih hp'
    have hallKept {p : Plan} (hkind : m.kind.isConditional = true)
        (hwithoutLiteral : p.WithoutLiteral h l.tail.node v strict true true p') :
        OutlinesMatch h l v strict x m p p' := by
      refine ⟨fun hevaluated => ?_, fun _ _ hnot => ?_, fun _ => hwithoutLiteral, hwithoutLiteral.loose⟩
      · rcases NodeKind.of_isConditional hkind with hkind | hkind | hkind <;>
          rw [Node.isEvaluated, Node.isInvokable, hkind] at hevaluated <;> cases hevaluated
      · cases hnot.symm.trans hkind
    by_cases hkind : m.kind.isConditional = true
    · obtain ⟨b, hb⟩ := hr.hasLayouts.branch_of_conditional hm hkind
      have hb' := hnm.branch.trans hb
      rcases NodeKind.of_isConditional hkind with hif | hwhile | hfor
      · rw [outlineWithin_ifElse hm hif hb] at hp'
        rw [outlineWithin_ifElse hn (hnm.kind.trans hif) hb']
        obtain ⟨p, hp, hwithoutLiteral⟩ := withoutLiteral_outlineIf ha hr hlevel hliteral hm hnm hb hp'
        exact ⟨p, m, hp, hm, hallKept hkind hwithoutLiteral⟩
      · rw [outlineWithin_whileLoop hm hwhile hb] at hp'
        rw [outlineWithin_whileLoop hn (hnm.kind.trans hwhile) hb']
        obtain ⟨p, hp, hwithoutLiteral⟩ := withoutLiteral_outlineWhile ha hr hlevel hliteral hm hnm hb hp'
        exact ⟨p, m, hp, hm, hallKept hkind hwithoutLiteral⟩
      · rw [outlineWithin_forLoop hm hfor hb] at hp'
        rw [outlineWithin_forLoop hn (hnm.kind.trans hfor) hb']
        obtain ⟨p, hp, hwithoutLiteral⟩ :=
            withoutLiteral_outlineFor ha hr hlevel hliteral hleavesLiteral hm hn hnm hfor hb hp'
        exact ⟨p, m, hp, hm, hallKept hkind hwithoutLiteral⟩
    · rw [Bool.not_eq_true] at hkind
      rw [outlineWithin_simple hm hkind] at hp'
      rw [outlineWithin_simple hn (by rw [hnm.kind, hkind])]
      have hx (hother : x ≠ l.head.node) : n = m := by
        have hne : x ≠ l.tail.node := by
          rintro rfl
          cases ha.gone.symm.trans hm
        exact Option.some.inj (hn.symm.trans ((ha.other x hne hother).trans hm))
      obtain ⟨p, hp, houtlinesMatch⟩ := withoutLiteral_outlineSimple ha hr hlevel hliteral hm hnm hx hkind hp'
      exact ⟨p, m, hp, hm, houtlinesMatch⟩

omit hg hr in
theorem FoldedLiteral.rootScope : Entails h.rootScope g.rootScope := by
  intro s hs
  obtain ⟨m, hm, hi⟩ := rootScope_eq_ok_iff.1 hs
  obtain ⟨n, hn, hnm⟩ := ha.node hm
  exact rootScope_eq_ok_iff.2 ⟨n, ha.root ▸ hn, hnm.internalScope.trans hi⟩

theorem withoutLiteral_outline (hleavesLiteral : strict → ¬LeavesLiteral g l) {p' : Program}
    (hp' : h.outline = .ok p') :
    ∃ p, g.outline = .ok p ∧ p.WithoutLiteral h l.tail.node v strict p' := by
  obtain ⟨s, hs, hp'⟩ := bind_eq_ok.1 hp'
  obtain ⟨p, hp, hwithoutLiteral⟩ :=
      withoutLiteral_outlineScope ha hr (fun _ _ => outlinesMatch_outlineWithin ha hg hr hleavesLiteral) hp'
  have hlevel := outlineScope_entails (outlineWithin_le (g := g) (Nat.succ_le_of_lt ha.depthBound_lt)) s p hp
  exact ⟨p, bind_eq_ok.2 ⟨s, ha.rootScope s hs, hlevel⟩, hwithoutLiteral⟩

end

namespace FoldedLiteral

theorem feeds (ha : g.FoldedLiteral h l v) (hfeeds : Feeds h y x) : Feeds g y x := by
  obtain ⟨m, source, slot, r, hm, hkind, hslot, hr, rfl, hsource, hlike⟩ := hfeeds
  obtain ⟨n, hn, hnm⟩ := ha.node (node_eq_ok_iff.1 hm)
  obtain ⟨source', hsource', hfoldedLiteral⟩ := ha.node (node_eq_ok_iff.1 hsource)
  exact ⟨n, source', slot, r, node_eq_ok_iff.2 hn, by rw [hnm.kind, hkind], hnm.mem_filterSlots rfl hslot hr, hr, rfl,
    node_eq_ok_iff.2 hsource', (isVariableLike_of_kind hfoldedLiteral.kind).trans hlike⟩

theorem outlineUses (ha : g.FoldedLiteral h l v) (houtlineUses : OutlineUses h x y) : OutlineUses g x y := by
  cases houtlineUses with
  | operand hfeeds => exact .operand (ha.feeds hfeeds)
  | condition hm hkind hb hr hsource hlike =>
    obtain ⟨n, hn, hnm⟩ := ha.node (node_eq_ok_iff.1 hm)
    obtain ⟨source, hsource', hfoldedLiteral⟩ := ha.node (node_eq_ok_iff.1 hsource)
    exact .condition (node_eq_ok_iff.2 hn) (by rw [hnm.kind, hkind]) (hnm.branch.trans hb) (hnm.first?_of_slot? hr)
      (node_eq_ok_iff.2 hsource') ((isVariableLike_of_kind hfoldedLiteral.kind).trans hlike)
  | bracket hm hkind hb hi hr =>
    obtain ⟨n, hn, hnm⟩ := ha.node (node_eq_ok_iff.1 hm)
    exact .bracket (node_eq_ok_iff.2 hn) (hnm.kind.trans hkind) (hnm.branch.trans hb) hi (hnm.first?_of_slot? hr)
  | inside hm hkind hside hs hpath hy =>
    obtain ⟨n, hn, hnm⟩ := ha.node (node_eq_ok_iff.1 hm)
    exact .inside (node_eq_ok_iff.2 hn) (by rw [hnm.kind, hkind]) (hside.imp_right hnm.kind.trans)
      (ha.side? hnm _ _ hs) (ha.samePathData.backbone _ _ hpath) hy

theorem outlineFeedsItself (ha : g.FoldedLiteral h l v) (houtlineFeedsItself : OutlineFeedsItself h) :
    OutlineFeedsItself g := by
  obtain ⟨x, hx, hcircle⟩ := houtlineFeedsItself
  refine ⟨x, ?_, Relation.TransGen.mono (fun _ _ => ha.feeds) _ _ hcircle⟩
  clear hcircle
  induction hx with
  | start hs hpath hx => exact .start (ha.rootScope _ hs) (ha.samePathData.backbone _ _ hpath) hx
  | step _ houtlineUses ih => exact .step ih (ha.outlineUses houtlineUses)

theorem nodeErrors_iff (ha : g.FoldedLiteral h l v) {m : Node} (hm : h.nodeAt? x = some m) :
    g.nodeErrors x = .ok [] ↔ h.nodeErrors x = .ok [] := by
  obtain ⟨n, hn, hnm⟩ := ha.node hm
  rw [nodeErrors_eq_ok_nil_iff hn, nodeErrors_eq_ok_nil_iff hm, Node.isVariable, hnm.kind, hnm.scope, hnm.signature,
    ha.library, ← Node.isVariable]
  refine and_congr_left fun _ => imp_congr_right fun _ => exists_congr fun s => ?_
  have hs := ha.scope s
  constructor
  · rintro ⟨sc, hscope, hsc, hdeclared⟩
    rw [hsc, Option.map_some, eq_comm, Option.map_eq_some_iff] at hs
    obtain ⟨sc', hsc', hbare⟩ := hs
    exact ⟨sc', hscope, hsc', (Scope.of_bare hbare).2.2.1 ▸ hdeclared⟩
  · rintro ⟨sc, hscope, hsc, hdeclared⟩
    obtain ⟨sc', hsc', hbare⟩ := ha.scope_of hsc
    exact ⟨sc', hscope, hsc', (Scope.of_bare hbare).2.2.1 ▸ hdeclared⟩

theorem isEmpty_eq_false (ha : g.FoldedLiteral h l v) (hg : Reachable g) (hr : Reachable h) :
    g.isEmpty = false ∧ h.isEmpty = false := by
  have htwo {g : Graph} (he : NodesListed g) {x y : NodeId} (hx : (g.nodeAt? x).isSome) (hy : (g.nodeAt? y).isSome)
      (hne : x ≠ y) : g.isEmpty = false := by
    have hsubset : [x, y] ⊆ g.nodes :=
      List.cons_subset.2 ⟨he.mem_nodes_iff.2 hx, List.cons_subset.2 ⟨he.mem_nodes_iff.2 hy, List.nil_subset _⟩⟩
    have hle := (List.subperm_of_subset (by simpa using hne) hsubset).length_le
    rw [isEmpty, beq_eq_false_iff_ne]
    exact Nat.ne_of_gt hle
  obtain ⟨n, m, hn, hm, -⟩ := ha.reader
  obtain ⟨entry, hentry, -⟩ := hr.wellFormed.rootIsEntryPoint
  obtain ⟨entry', hentry', -⟩ := hg.wellFormed.rootIsEntryPoint
  exact ⟨htwo hg.wellFormed.nodesListed (Option.isSome_of_mem hn) (Option.isSome_of_mem hentry') (ha.root ▸ ha.inner),
    htwo hr.wellFormed.nodesListed (Option.isSome_of_mem hm) (Option.isSome_of_mem hentry) ha.inner⟩

theorem validate_iff (ha : g.FoldedLiteral h l v) (hg : Reachable g) (hr : Reachable h) :
    g.validate = .ok [] ↔ h.validate = .ok [] := by
  obtain ⟨hfull, hfull'⟩ := ha.isEmpty_eq_false hg hr
  rw [validate_eq_ok_nil_iff hg.wellFormed.nodesListed, validate_eq_ok_nil_iff hr.wellFormed.nodesListed]
  refine and_congr (iff_of_true hfull hfull') ⟨fun hvalid x m hm => ?_, fun hvalid x n hn => ?_⟩
  · obtain ⟨n, hn, -⟩ := ha.node hm
    exact (ha.nodeErrors_iff hm).1 (hvalid x n hn)
  · by_cases hx : x = l.tail.node
    · obtain ⟨literal, hliteral, hkind, -⟩ := ha.literal
      rw [← hx] at hliteral
      refine (nodeErrors_eq_ok_nil_iff hliteral).2 ⟨fun hvar => ?_, fun s hs => ?_⟩
      · cases (isVariable_of_literal hkind).symm.trans hvar
      · cases (hg.hasLayouts.signature_of_literal hliteral hkind).symm.trans hs
    · obtain ⟨m, hm, -⟩ := ha.node_of_ne hx hn
      exact (ha.nodeErrors_iff hm).2 (hvalid x m hm)

end FoldedLiteral

/-- The two graphs are compiled alike, but for what does not fit into a program. -/
theorem FoldedLiteral.compile_iff (ha : g.FoldedLiteral h l v) (hg : Reachable g) (hr : Reachable h)
    (insertReturn : Bool) :
    (∃ c, g.compile insertReturn = .ok (.ok c)) ↔
      (∃ c, h.compile insertReturn = .ok (.ok c)) ∧ g.compile insertReturn ≠ .error .codeOverflow := by
  have hquiet : False → ¬LeavesLiteral g l := False.elim
  constructor
  · rintro ⟨c, hc⟩
    refine ⟨?_, hc ▸ nofun⟩
    obtain ⟨p, hp, rfl, hsize⟩ := outline_of_compile hc
    obtain ⟨s, hs, hscope⟩ := bind_eq_ok.1 hp
    obtain ⟨p', hp'⟩ :=
        (resultOrEndless_outline hr.wellFormed hr.hasLayouts hr.rootFinitelyNested).resolve_right fun hendless =>
      not_outlineFeedsItself hg.hasLayouts hs hscope (ha.outlineFeedsItself hendless.2)
    obtain ⟨q, hq, hwithoutLiteral⟩ := withoutLiteral_outline ha hg hr hquiet hp'
    cases hp.symm.trans hq
    rw [Code.size_ofList] at hsize
    rw [compile_of_outline ((ha.validate_iff hg hr).1 (validate_of_compile hc)) hp',
      if_pos ((hwithoutLiteral.length_code_le insertReturn).trans hsize)]
    exact ⟨_, rfl⟩
  · rintro ⟨⟨c, hc⟩, hfits⟩
    obtain ⟨p', hp', -⟩ := outline_of_compile hc
    obtain ⟨p, hp, -⟩ := withoutLiteral_outline ha hg hr hquiet hp'
    rw [compile_of_outline ((ha.validate_iff hg hr).2 (validate_of_compile hc)) hp] at hfits ⊢
    split at hfits
    next hsize => exact ⟨_, if_pos hsize⟩
    next => exact (hfits rfl).elim

end Graph

end FlowGraph
