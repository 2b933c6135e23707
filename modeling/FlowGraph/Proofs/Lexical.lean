import FlowGraph.Proofs.Ascent
import FlowGraph.Proofs.Layouts
import FlowGraph.Proofs.Threads
import FlowGraph.Proofs.Tidiness

/-!
# Variables in sight

Which variables are pushed where a node runs can be read off the scopes around it. A block pushes the variables
of its scope, and a `for` those of its internal scope. Two kinds of scopes are entered without a push: the internal
scope of an `if` or `while`, and a false side that is run as the single `if` it consists of.
-/

namespace FlowGraph

namespace Graph

/-- The variables of the scope are not pushed where control enters it. -/
inductive PassedOver (g : Graph) (t : ScopeId) : Prop
  | divided {sc : Scope} {n : Node} : g.scope t = .ok sc → sc.kind = .internal → g.node sc.owner = .ok n →
      n.kind = .ifElse ∨ n.kind = .whileLoop → PassedOver g t
  | elseIf {sc : Scope} {n m : Node} {only : NodeId} : g.scope t = .ok sc → g.node sc.owner = .ok n →
      n.kind = .ifElse → g.side? n .onFalse = .ok (some t) → g.backbone t = .ok [only] → g.node only = .ok m →
      m.kind = .ifElse → PassedOver g t

/-- The scope is `s` or one around it, up to the root scope. -/
inductive Encloses (g : Graph) (t : ScopeId) : ScopeId → Prop
  | self : Encloses g t t
  | up {s parent : ScopeId} : g.rootScope ≠ .ok s → g.parentScope? s = .ok (some parent) → Encloses g t parent →
      Encloses g t s

def VisiblePushed (g : Graph) (s : ScopeId) (st : Stack) : Prop :=
  ∀ t sc v, Encloses g t s → g.scopeAt? t = some sc → v ∈ sc.declared → ¬PassedOver g t → .var v ∈ st

def DeclaredOnEntry (g : Graph) (v : NodeId) : Prop :=
  ∃ s sc, g.scopeAt? s = some sc ∧ v ∈ sc.declared ∧ ¬PassedOver g s

structure OpensScope (g : Graph) (f : Frame) (body : Plan) (st : Stack) : Prop where
  plan : g.outlineScope (g.outlineWithin g.depthBound) f.scope = .ok ⟨f, body⟩
  visiblePushed : VisiblePushed g f.scope (f.entries ++ st)
  declaredOnEntry : ∀ d ∈ f.declarations, DeclaredOnEntry g d.node

def SeesPushed (g : Graph) (id : NodeId) (st : Stack) : Prop :=
  ∀ n s, g.nodeAt? id = some n → n.kind.isConditional = true → n.scope = some s → VisiblePushed g s st

end Graph

open FlowGraph.Graph in
def Plan.Lexical (g : Graph) : Plan → Stack → Prop
  | skip, _ | constant _, _ => True
  | load node _, _ | evaluate node _, _ => g.contains node = true
  | seq first second, st => first.Lexical g st ∧ second.Lexical g st
  | frame f body, st => OpensScope g f body st ∧ body.Lexical g (f.entries ++ st)
  | loop _ locals start test body step, st =>
    (∀ d ∈ locals, DeclaredOnEntry g d.node) ∧ start.Lexical g (held locals ++ st) ∧
    test.Lexical g (held locals ++ st) ∧
      body.Lexical g (held locals ++ st) ∧ step.Lexical g (held locals ++ st)
  | choice _ test onTrue, st => test.Lexical g st ∧ onTrue.Lexical g st
  | choiceElse _ test onTrue onFalse, st => test.Lexical g st ∧ onTrue.Lexical g st ∧ onFalse.Lexical g st

namespace Graph

variable {g : Graph} {s t i : ScopeId} {sc : Scope} {id : NodeId} {n : Node} {st st' : Stack} {k : Nat}

/-- What a scope can see, besides its own variables, is what its parent can see. -/
theorem VisiblePushed.below {parent : Option ScopeId} (hparent : g.parentScope? s = .ok parent)
    (houter : ∀ t, parent = some t → VisiblePushed g t st) (hmore : ∀ e ∈ st, e ∈ st')
    (hown : ∀ sc v, g.scopeAt? s = some sc → v ∈ sc.declared → ¬PassedOver g s → .var v ∈ st') :
    VisiblePushed g s st' := by
  intro t sc v hencloses hsc hv hentered
  cases hencloses with
  | self => exact hown sc v hsc hv hentered
  | up _ hparent' hencloses =>
    cases hparent.symm.trans hparent'
    exact hmore _ (houter _ rfl t sc v hencloses hsc hv hentered)

theorem visiblePushed_root (hroot : g.rootScope = .ok s) (hsc : g.scopeAt? s = some sc)
    (hown : ∀ v ∈ sc.declared, .var v ∈ st) : VisiblePushed g s st := by
  intro t sc' v hencloses hsc' hv _
  cases hencloses with
  | self =>
    cases hsc.symm.trans hsc'
    exact hown v hv
  | up hinner => exact (hinner hroot).elim

theorem seesPushed_of_scope (hn : g.nodeAt? id = some n) (hs : n.scope = some s) (hshown : VisiblePushed g s st) :
    SeesPushed g id st := by
  intro m t hm _ ht
  cases hn.symm.trans hm
  cases hs.symm.trans ht
  exact hshown

theorem seesPushed_of_plain (h : ∃ m, g.nodeAt? id = some m ∧ m.internalScope = none ∧ m.kind.isConditional = false) :
    SeesPushed g id st := by
  obtain ⟨m, hm, -, hplain⟩ := h
  intro m' _ hm' hconditional
  cases hm.symm.trans hm'
  cases hplain.symm.trans hconditional

theorem not_passedOver_of_owner (hsc : g.scopeAt? s = some sc)
    (hn : g.nodeAt? sc.owner = some n) (hif : n.kind ≠ .ifElse) (hwhile : n.kind ≠ .whileLoop) : ¬PassedOver g s := by
  rintro (@⟨sc', n', hsc', -, hn', hkind'⟩ | @⟨sc', n', m, only, hsc', hn', hkind', -⟩)
  · cases hsc.symm.trans (scope_eq_ok_iff.1 hsc')
    cases hn.symm.trans (node_eq_ok_iff.1 hn')
    exact hkind'.elim hif hwhile
  · cases hsc.symm.trans (scope_eq_ok_iff.1 hsc')
    cases hn.symm.trans (node_eq_ok_iff.1 hn')
    exact hif hkind'

theorem not_passedOver_of_trueSide (ho : ScopesOwned g) (hsc : g.scopeAt? s = some sc)
    (hkind : sc.kind = .partition i Side.onTrue.index) : ¬PassedOver g s := by
  rintro (@⟨sc', n', hsc', hkind', -⟩ | @⟨sc', n', m, only, hsc', hn', -, hside, -⟩)
  · cases hsc.symm.trans (scope_eq_ok_iff.1 hsc')
    cases hkind.symm.trans hkind'
  · obtain ⟨i', sp, -, hsp, -, hkind'⟩ := scope_of_side ho (node_eq_ok_iff.1 hn') hside
    cases hsc.symm.trans hsp
    cases hkind.symm.trans hkind'

theorem not_passedOver_of_backbone {path : List NodeId} (hsc : g.scopeAt? s = some sc) {j : Nat}
    (hkind : sc.kind = .partition i j) (hpath : g.backbone s = .ok path)
    (hmore : ∀ only m, path = [only] → g.nodeAt? only = some m → m.kind ≠ .ifElse) : ¬PassedOver g s := by
  rintro (@⟨sc', n', hsc', hkind', -⟩ | @⟨sc', n', m, only, -, -, -, -, hpath', hm, hkind'⟩)
  · cases hsc.symm.trans (scope_eq_ok_iff.1 hsc')
    cases hkind.symm.trans hkind'
  · cases hpath.symm.trans hpath'
    exact hmore only m rfl (node_eq_ok_iff.1 hm) hkind'

theorem lexical_sequence {α : Type} {plan : α → Except Fault Plan} {as : List α} {plans : List Plan}
    (hlexical : ∀ a ∈ as, ∀ p, plan a = .ok p → p.Lexical g st) (h : as.mapM plan = .ok plans) :
    (Plan.sequence plans).Lexical g st := by
  rw [mapM_eq_ok_iff] at h
  induction h with
  | nil => trivial
  | cons hp _ ih =>
    refine ⟨hlexical _ List.mem_cons_self _ hp, ih fun a ha => ?_⟩
    exact hlexical a (List.mem_cons_of_mem _ ha)

section Level

variable {planNode : NodeId → Except Fault Plan} (hg : WellFormed g) (hl : HasLayouts g)
variable (hlexical : ∀ x p st, planNode x = .ok p → SeesPushed g x st → p.Lexical g st)
variable (hlevel : ∀ x, Entails (planNode x) (g.outlineWithin g.depthBound x))

include hg hl hlexical in
theorem outlineInput_lexical {b : Branch} {slot : Option SlotId} {p : Plan} (hn : g.nodeAt? id = some n)
    (hb : n.branch = some b) (hslot : slot = b.initialization ∨ slot = b.iteration)
    (h : outlineInput planNode n slot = .ok p) : p.Lexical g st := by
  unfold outlineInput at h
  split at h
  next =>
    cases h
    trivial
  next source hsource =>
    rw [Option.bind_assoc, Option.bind_eq_some_iff] at hsource
    obtain ⟨i, rfl, hsource⟩ := hsource
    have hbranch : b.initialization = some i ∨ b.iteration = some i := hslot.imp Eq.symm Eq.symm
    exact hlexical _ _ _ h (seesPushed_of_plain (hl.plain_of_branch hg.linksMatch hn hb (.inr hbranch) hsource))

include hg hl hlexical in
theorem outlineCondition_lexical {b : Branch} {p : Plan} (hn : g.nodeAt? id = some n) (hb : n.branch = some b)
    (h : g.outlineCondition planNode n b = .ok p) : p.Lexical g st := by
  simp only [outlineCondition] at h
  split at h
  next =>
    cases h
    trivial
  next source hsource =>
    obtain ⟨reads, hreads, h⟩ := bind_eq_ok.1 h
    split at h
    next =>
      cases h
      exact contains_of_node hreads
    next => exact hlexical _ _ _ h (seesPushed_of_plain (hl.plain_of_branch hg.linksMatch hn hb (.inl rfl) hsource))

include hg hlexical hlevel in
theorem outlineScope_lexical {p : Program} (h : g.outlineScope planNode s = .ok p) (hentered : ¬PassedOver g s)
    (hshown : ∀ sc ds, g.scopeAt? s = some sc → g.declarations sc.declared = .ok ds →
      VisiblePushed g s (held ds ++ .frame s :: st)) :
    OpensScope g p.frame p.body st ∧ p.body.Lexical g (p.frame.entries ++ st) := by
  have hplan := outlineScope_entails hlevel s p h
  simp only [outlineScope, bind_eq_ok, pure_eq_ok, scope_eq_ok_iff] at h
  obtain ⟨sc, hsc, owner, -, ds, hds, path, hpath, plans, hplans, rfl⟩ := h
  have hshown : VisiblePushed g s ((⟨s, owner.name, ds⟩ : Frame).entries ++ st) := by
    rw [Frame.entries, List.append_assoc]
    exact hshown sc ds hsc hds
  refine ⟨⟨hplan, hshown, ?_⟩, lexical_sequence ?_ hplans⟩
  · intro d hd
    exact ⟨s, sc, hsc, (nodes_of_declarations hds).1 ▸ List.mem_map_of_mem hd, hentered⟩
  · intro x hx q hq
    obtain ⟨m, hm, hs⟩ := backbone_scope hg.scopesMatchNodes hpath x hx
    exact hlexical x q _ hq (seesPushed_of_scope hm hs hshown)

include hg hlexical hlevel in
theorem outlineBlock_lexical {p : Plan} {j : Nat} (hsc : g.scopeAt? s = some sc) (hkind : sc.kind = .partition i j)
    (hentered : ¬PassedOver g s) (hinner : VisiblePushed g i st) (h : g.outlineBlock planNode s = .ok p) :
    p.Lexical g st := by
  simp only [outlineBlock, bind_eq_ok, pure_eq_ok] at h
  obtain ⟨q, hq, rfl⟩ := h
  refine outlineScope_lexical hg hlexical hlevel hq hentered fun sc' ds hsc' hds => ?_
  cases hsc.symm.trans hsc'
  have hparent : g.parentScope? s = .ok (some i) := parentScope?_eq_ok_iff.2 ⟨sc, hsc, .inl ⟨i, j, hkind, rfl⟩⟩
  refine VisiblePushed.below hparent ?_ (fun e he => List.mem_append_right _ (List.mem_cons_of_mem _ he))
    fun sc' v hsc' hv _ => ?_
  · rintro _ ⟨⟩
    exact hinner
  · cases hsc.symm.trans hsc'
    exact List.mem_append_left _ (var_mem_held.2 ((nodes_of_declarations hds).1 ▸ hv))

include hg hlexical hlevel in
theorem outlineTrueSide_lexical {p : Plan} (hn : g.nodeAt? id = some n)
    (hinner : ∀ i, n.internalScope = some i → VisiblePushed g i st) (h : g.outlineTrueSide planNode n = .ok p) :
    p.Lexical g st := by
  simp only [outlineTrueSide, bind_eq_ok] at h
  obtain ⟨side, hside, h⟩ := h
  cases side with
  | none =>
    cases h
    trivial
  | some s =>
    obtain ⟨i, sp, hi, hsp, -, hkind⟩ := scope_of_side hg.scopesOwned hn hside
    exact outlineBlock_lexical hg hlexical hlevel hsp hkind (not_passedOver_of_trueSide hg.scopesOwned hsp hkind)
      (hinner i hi) h

omit hlexical hlevel in
theorem visiblePushed_internal (ho : ScopesOwned g) (hn : g.nodeAt? id = some n) (hkind : n.kind.isConditional = true)
    (hi : n.internalScope = some i) (hst : SeesPushed g id st) (hmore : ∀ e ∈ st, e ∈ st')
    (hown : ∀ sc v, g.scopeAt? i = some sc → v ∈ sc.declared → ¬PassedOver g i → .var v ∈ st') :
    VisiblePushed g i st' := by
  obtain ⟨si, hsi, rfl, hinternal, -⟩ := ho.internal hn hi
  have hparent : g.parentScope? i = .ok n.scope := parentScope?_eq_ok_iff.2 ⟨si, hsi, .inr ⟨hinternal, n, hn, rfl⟩⟩
  exact VisiblePushed.below hparent (fun t ht => hst n t hn hkind ht) hmore hown

theorem visiblePushed_divided (ho : ScopesOwned g) (hn : g.nodeAt? id = some n)
    (hkind : n.kind = .ifElse ∨ n.kind = .whileLoop) (hi : n.internalScope = some i) (hst : SeesPushed g id st) :
    VisiblePushed g i st := by
  have hconditional : n.kind.isConditional = true := by rcases hkind with hkind | hkind <;> rw [hkind] <;> rfl
  refine visiblePushed_internal ho hn hconditional hi hst (fun _ he => he) fun sc v hsc _ hentered => ?_
  obtain ⟨si, hsi, rfl, hinternal, -⟩ := ho.internal hn hi
  exact (hentered (.divided (scope_eq_ok_iff.2 hsi) hinternal (node_eq_ok_iff.2 hn) hkind)).elim

/-- A false side that is passed over sees what the `if` sees, so the nested one stands where the outer one does. -/
theorem visiblePushed_elseIf {m : Node} {only : NodeId} (ho : ScopesOwned g) (hn : g.nodeAt? id = some n)
    (hkind : n.kind = .ifElse) (hside : g.side? n .onFalse = .ok (some s)) (hpath : g.backbone s = .ok [only])
    (hm : g.nodeAt? only = some m) (hnested : m.kind = .ifElse) (hst : SeesPushed g id st) : VisiblePushed g s st := by
  obtain ⟨i, sp, hi, hsp, rfl, hpartition⟩ := scope_of_side ho hn hside
  have hpassed : PassedOver g s := .elseIf (scope_eq_ok_iff.2 hsp) (node_eq_ok_iff.2 hn) hkind hside hpath
    (node_eq_ok_iff.2 hm) hnested
  have hparent : g.parentScope? s = .ok (some i) := parentScope?_eq_ok_iff.2 ⟨sp, hsp, .inl ⟨i, _, hpartition, rfl⟩⟩
  refine VisiblePushed.below hparent ?_ (fun _ he => he) fun _ _ _ _ hentered => (hentered hpassed).elim
  rintro _ ⟨⟩
  exact visiblePushed_divided ho hn (.inl hkind) hi hst

include hg hl hlexical hlevel in
theorem outlineWhile_lexical {b : Branch} {p : Plan} (hn : g.nodeAt? id = some n) (hb : n.branch = some b)
    (hkind : n.kind = .whileLoop) (hst : SeesPushed g id st) (h : g.outlineWhile planNode n b = .ok p) :
    p.Lexical g st := by
  simp only [outlineWhile, bind_eq_ok, pure_eq_ok] at h
  obtain ⟨test, htest, body, hbody, rfl⟩ := h
  refine ⟨fun _ hd => absurd hd List.not_mem_nil, trivial, outlineCondition_lexical hg hl hlexical hn hb htest,
    outlineTrueSide_lexical hg hlexical hlevel hn (fun i hi => ?_) hbody, trivial⟩
  exact visiblePushed_divided hg.scopesOwned hn (.inr hkind) hi hst

include hg hl hlexical hlevel in
theorem outlineFor_lexical {b : Branch} {p : Plan} (hn : g.nodeAt? id = some n) (hb : n.branch = some b)
    (hkind : n.kind = .forLoop) (hst : SeesPushed g id st) (h : g.outlineFor planNode n b = .ok p) :
    p.Lexical g st := by
  obtain ⟨locals, start, test, body, step, hlocals, hstart, htest, hbody, hstep, rfl⟩ := outlineFor_eq_ok_iff.1 h
  obtain ⟨hdeclaredOnEntry, hinner⟩ : (∀ d ∈ locals, DeclaredOnEntry g d.node) ∧
      ∀ i, n.internalScope = some i → VisiblePushed g i (held locals ++ st) := by
    rcases hlocals with ⟨hnone, rfl⟩ | ⟨i, si, hi, hsi, hds⟩
    · refine ⟨fun _ hd => absurd hd List.not_mem_nil, fun i hi => ?_⟩
      cases hnone.symm.trans hi
    · have hdeclared := (nodes_of_declarations hds).1
      obtain ⟨si', hsi', rfl, hinternal, -⟩ := hg.scopesOwned.internal hn hi
      cases hsi.symm.trans hsi'
      have hentered : ¬PassedOver g i := not_passedOver_of_owner hsi hn (by simp [hkind]) (by simp [hkind])
      refine ⟨fun d hd => ⟨i, si, hsi, hdeclared ▸ List.mem_map_of_mem hd, hentered⟩, fun i' hi' => ?_⟩
      cases hi.symm.trans hi'
      refine visiblePushed_internal hg.scopesOwned hn (by rw [hkind]; rfl) hi hst
        (fun e he => List.mem_append_right _ he) ?_
      intro sc v hsc hv _
      cases hsi.symm.trans hsc
      exact List.mem_append_left _ (var_mem_held.2 (hdeclared ▸ hv))
  exact ⟨hdeclaredOnEntry, outlineInput_lexical hg hl hlexical hn hb (.inl rfl) hstart,
    outlineCondition_lexical hg hl hlexical hn hb htest, outlineTrueSide_lexical hg hlexical hlevel hn hinner hbody,
    outlineInput_lexical hg hl hlexical hn hb (.inr rfl) hstep⟩

include hg hl hlexical hlevel in
theorem outlineIf_lexical {b : Branch} {p : Plan} (hn : g.nodeAt? id = some n) (hb : n.branch = some b)
    (hkind : n.kind = .ifElse) (hst : SeesPushed g id st) (h : g.outlineIf planNode n b = .ok p) : p.Lexical g st := by
  simp only [outlineIf, bind_eq_ok] at h
  obtain ⟨test, htest, onTrue, htrue, side, hside, h⟩ := h
  have hinner (i : ScopeId) (hi : n.internalScope = some i) : VisiblePushed g i st :=
    visiblePushed_divided hg.scopesOwned hn (.inl hkind) hi hst
  have htest : test.Lexical g st := outlineCondition_lexical hg hl hlexical hn hb htest
  have htrue := outlineTrueSide_lexical hg hlexical hlevel hn hinner htrue
  cases side with
  | none =>
    cases h
    exact ⟨htest, htrue⟩
  | some s =>
    obtain ⟨i, sp, hi, hsp, -, hpartition⟩ := scope_of_side hg.scopesOwned hn hside
    obtain ⟨path, hpath, h⟩ := bind_eq_ok.1 h
    have hblock (q : Plan) (hmore : ∀ only m, path = [only] → g.nodeAt? only = some m → m.kind ≠ .ifElse)
        (hq : g.outlineBlock planNode s = .ok q) : q.Lexical g st :=
      outlineBlock_lexical hg hlexical hlevel hsp hpartition
        (not_passedOver_of_backbone hsp hpartition hpath hmore) (hinner i hi) hq
    match path, h with
    | [], h =>
      cases h
      exact ⟨htest, htrue⟩
    | [only], h =>
      obtain ⟨m, hm, h⟩ := bind_eq_ok.1 h
      rw [node_eq_ok_iff] at hm
      split at h
      next hnested =>
        obtain ⟨onFalse, hfalse, ⟨⟩⟩ := bind_eq_ok.1 h
        have hshown := visiblePushed_elseIf hg.scopesOwned hn hkind hside hpath hm hnested hst
        obtain ⟨m', hm', hscope⟩ := backbone_scope hg.scopesMatchNodes hpath only (List.mem_singleton_self only)
        exact ⟨htest, htrue, hlexical only _ _ hfalse (seesPushed_of_scope hm' hscope hshown)⟩
      next hother =>
        obtain ⟨onFalse, hfalse, ⟨⟩⟩ := bind_eq_ok.1 h
        refine ⟨htest, htrue, hblock _ ?_ hfalse⟩
        rintro _ m' ⟨⟩ hm'
        cases hm.symm.trans hm'
        exact hother
    | _ :: _ :: _, h =>
      obtain ⟨onFalse, hfalse, ⟨⟩⟩ := bind_eq_ok.1 h
      exact ⟨htest, htrue, hblock _ (fun _ _ he => by cases he) hfalse⟩

include hg hl hlexical in
theorem outlineSimple_lexical {p : Plan} (hn : g.nodeAt? id = some n) (h : g.outlineSimple planNode id n = .ok p) :
    p.Lexical g st := by
  simp only [outlineSimple, bind_eq_ok, pure_eq_ok] at h
  obtain ⟨operands, hoperands, rfl⟩ := h
  refine ⟨lexical_sequence (fun slot hslot q hq => ?_) hoperands, ?_⟩
  · simp only [outlineOperand] at hq
    split at hq
    next =>
      cases hq
      trivial
    next source hsource =>
      obtain ⟨reads, -, hq⟩ := bind_eq_ok.1 hq
      split at hq
      next =>
        cases hq
        trivial
      next =>
        have hinput : source.node ∈ n.inputs := Node.mem_inputs_of_first hslot hsource
        exact hlexical _ q _ hq (seesPushed_of_plain (hl.plain_of_input hg.linksMatch hn hinput))
  · split
    · exact contains_iff.2 (by rw [hn]; rfl)
    · trivial

end Level

theorem outlineWithin_le {k' : Nat} (h : k ≤ k') (x : NodeId) :
    Entails (g.outlineWithin k x) (g.outlineWithin k' x) := by
  induction h with
  | refl => exact .refl _
  | step _ ih => exact fun p hp => outlineWithin_succ _ x p (ih p hp)

theorem outlineWithin_lexical (hg : WellFormed g) (hl : HasLayouts g) {p : Plan} (hk : k ≤ g.depthBound)
    (h : g.outlineWithin k id = .ok p) (hst : SeesPushed g id st) : p.Lexical g st := by
  induction k generalizing id p st with
  | zero => cases h
  | succ k ih =>
    simp only [outlineWithin, bind_eq_ok, node_eq_ok_iff] at h
    obtain ⟨n, hn, h⟩ := h
    have hlexical (x : NodeId) (p : Plan) (st : Stack) (hp : g.outlineWithin k x = .ok p) (hst : SeesPushed g x st) :
        p.Lexical g st := ih (Nat.le_of_succ_le hk) hp hst
    have hlevel := outlineWithin_le (g := g) (Nat.le_of_succ_le hk)
    split at h
    next b hkind hb => exact outlineIf_lexical hg hl hlexical hlevel hn hb hkind hst h
    next b hkind hb => exact outlineWhile_lexical hg hl hlexical hlevel hn hb hkind hst h
    next b hkind hb => exact outlineFor_lexical hg hl hlexical hlevel hn hb hkind hst h
    next => exact outlineSimple_lexical hg hl hlexical hn h

theorem outline_lexical (hg : WellFormed g) (hl : HasLayouts g) {p : Program} (h : g.outline = .ok p) :
    OpensScope g p.frame p.body [] ∧ p.body.Lexical g p.frame.entries := by
  simp only [outline, bind_eq_ok] at h
  obtain ⟨s, hs, h⟩ := h
  have hroot := hs
  simp only [rootScope, bind_eq_ok, node_eq_ok_iff] at hroot
  obtain ⟨n, hn, hi⟩ := hroot
  split at hi
  next i hi' =>
    cases hi
    obtain ⟨sc, hsc, howner, hinternal, -⟩ := hg.scopesOwned.internal hn hi'
    obtain ⟨n', hn', hkind⟩ := hg.rootIsEntryPoint
    cases hn.symm.trans hn'
    have hentered : ¬PassedOver g s :=
      not_passedOver_of_owner hsc (howner ▸ hn) (by rw [hkind]; nofun) (by rw [hkind]; nofun)
    have hlexical (x : NodeId) (p : Plan) (st : Stack) (hp : g.outlineWithin g.depthBound x = .ok p)
        (hst : SeesPushed g x st) : p.Lexical g st := outlineWithin_lexical hg hl (Nat.le_refl _) hp hst
    have hshown (sc' : Scope) (ds : List Declaration) (hsc' : g.scopeAt? s = some sc')
        (hds : g.declarations sc'.declared = .ok ds) : VisiblePushed g s (held ds ++ [.frame s]) :=
      visiblePushed_root hs hsc' fun v hv =>
        List.mem_append_left _ (var_mem_held.2 ((nodes_of_declarations hds).1 ▸ hv))
    obtain ⟨hopensScope, hbody⟩ := outlineScope_lexical hg hlexical (fun _ => .refl _) h hentered hshown
    exact ⟨hopensScope, by rwa [List.append_nil] at hbody⟩
  next => cases hi

end Graph

end FlowGraph
