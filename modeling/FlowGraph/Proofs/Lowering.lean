import FlowGraph.Proofs.Lexical
import FlowGraph.Proofs.Threads

/-!
# What an outline calls for

The outline of a node calls for the outlines of what feeds it and of what its sides consist of. It is there
if those are, one level further down; and the only way for it not to be there is that a level is missing.
-/

namespace FlowGraph.Graph

def Feeds (g : Graph) (y x : NodeId) : Prop :=
  ∃ n m slot r, g.node x = .ok n ∧ n.kind.isConditional = false ∧ slot ∈ n.filterSlots .input ∧
    slot.first? = some r ∧ r.node = y ∧ g.node y = .ok m ∧ m.isVariableLike = false

inductive OutlineUses (g : Graph) (x : NodeId) : NodeId → Prop
  | operand {y : NodeId} : Feeds g y x → OutlineUses g x y
  | condition {n m : Node} {b : Branch} {r : SlotRef} : g.node x = .ok n → n.kind.isConditional = true →
      n.branch = some b → (n.slot? b.condition).bind Slot.first? = some r → g.node r.node = .ok m →
      m.isVariableLike = false → OutlineUses g x r.node
  | bracket {n : Node} {b : Branch} {i : SlotId} {r : SlotRef} : g.node x = .ok n → n.kind = .forLoop →
      n.branch = some b → b.initialization = some i ∨ b.iteration = some i →
      (n.slot? i).bind Slot.first? = some r → OutlineUses g x r.node
  | inside {n : Node} {side : Side} {s : ScopeId} {path : List NodeId} {y : NodeId} : g.node x = .ok n →
      n.kind.isConditional = true → side = .onTrue ∨ n.kind = .ifElse → g.side? n side = .ok (some s) →
      g.backbone s = .ok path → y ∈ path → OutlineUses g x y

inductive InOutline (g : Graph) : NodeId → Prop
  | start {s : ScopeId} {path : List NodeId} {x : NodeId} : g.rootScope = .ok s →
      g.backbone s = .ok path → x ∈ path → InOutline g x
  | step {x y : NodeId} : InOutline g x → OutlineUses g x y → InOutline g y

def ConditionalNested (g : Graph) (x : NodeId) : Prop :=
  ∃ n, g.nodeAt? x = some n ∧ (n.kind.isConditional = true → ∃ s, n.scope = some s ∧ FinitelyNested g s)

def ResultOrEndless {α : Type} (why : Prop) (x : Except Fault α) : Prop := (∃ a, x = .ok a) ∨ x = .error .endless ∧ why

namespace ResultOrEndless

variable {α β : Type} {why : Prop}

theorem ok (a : α) : ResultOrEndless why (.ok a) := .inl ⟨a, rfl⟩

theorem mono {why' : Prop} {x : Except Fault α} (h : ResultOrEndless why x) (himp : why → why') :
    ResultOrEndless why' x :=
  h.imp_right (And.imp_right himp)

theorem bind {x : Except Fault α} {f : α → Except Fault β} (h : ResultOrEndless why x)
    (hf : ∀ a, x = .ok a → ResultOrEndless why (f a)) : ResultOrEndless why (x >>= f) := by
  rcases h with ⟨a, rfl⟩ | ⟨rfl, hwhy⟩
  · exact hf a rfl
  · exact .inr ⟨rfl, hwhy⟩

theorem bind_ok {x : Except Fault α} {f : α → Except Fault β} (h : ∃ a, x = .ok a)
    (hf : ∀ a, x = .ok a → ResultOrEndless why (f a)) : ResultOrEndless why (x >>= f) :=
  bind (.inl h) hf

theorem mapM {f : α → Except Fault β} {as : List α} (h : ∀ a ∈ as, ResultOrEndless why (f a)) :
    ResultOrEndless why (as.mapM f) := by
  induction as with
  | nil => exact .ok []
  | cons a as ih =>
    rw [List.mapM_cons]
    refine bind (h a List.mem_cons_self) fun b _ => ?_
    exact bind (ih fun a ha => h a (List.mem_cons_of_mem _ ha)) fun bs _ => .ok _

end ResultOrEndless

variable {g : Graph} {id x y : NodeId} {s i : ScopeId} {sc : Scope} {n : Node} {side : Side} {k : Nat}

theorem HasLayouts.branch_of_conditional (h : HasLayouts g) (hn : g.nodeAt? id = some n)
    (hkind : n.kind.isConditional = true) :
    ∃ b, n.branch = some b := by
  obtain ⟨l, hshape⟩ := h.shaped hn
  obtain ⟨-, hkind', hbranch, -⟩ := Node.of_shape hshape
  rw [hkind', l.kind_build] at hkind
  rw [hbranch]
  cases l with
  | conditional c => cases c <;> exact ⟨_, rfl⟩
  | invokable kind signature callable => cases kind <;> cases callable <;> cases hkind
  | _ => cases hkind

theorem exists_side (ho : ScopesOwned g) (hn : g.nodeAt? id = some n) (side : Side) : ∃ t, g.side? n side = .ok t := by
  unfold side?
  cases hi : n.internalScope with
  | none => exact ⟨none, rfl⟩
  | some i =>
    obtain ⟨si, hsi, -⟩ := ho.internal hn hi
    exact ⟨_, bind_eq_ok.2 ⟨si, scope_eq_ok_iff.2 hsi, rfl⟩⟩

theorem finitelyNested_of_side (ho : ScopesOwned g) (hn : g.nodeAt? id = some n) (hid : ConditionalNested g id)
    (hkind : n.kind.isConditional = true) (hside : g.side? n side = .ok (some s)) :
    ∃ i, n.internalScope = some i ∧ g.parentScope? s = .ok (some i) ∧ (∃ sc, g.scopeAt? s = some sc) ∧
    FinitelyNested g s := by
  obtain ⟨n', hn', hconditionalNested⟩ := hid
  cases hn.symm.trans hn'
  obtain ⟨t, ht, hfinitelyNested⟩ := hconditionalNested hkind
  obtain ⟨i, sp, hi, hsp, -, hpartition⟩ := scope_of_side ho hn hside
  obtain ⟨si, -, hup⟩ := ho.parent_of_internal hn hi
  have hparent : g.parentScope? s = .ok (some i) := parentScope?_eq_ok_iff.2 ⟨sp, hsp, .inl ⟨i, _, hpartition, rfl⟩⟩
  exact ⟨i, hi, hparent, ⟨sp, hsp⟩, (hfinitelyNested.below (hup.trans (congrArg _ ht))).below hparent⟩

theorem conditionalNested_of_plain
    (h : ∃ m, g.nodeAt? x = some m ∧ m.internalScope = none ∧ m.kind.isConditional = false) :
    ConditionalNested g x := by
  obtain ⟨m, hm, -, hkind⟩ := h
  refine ⟨m, hm, fun hconditional => ?_⟩
  rw [hkind] at hconditional
  cases hconditional

theorem conditionalNested_of_backbone {path : List NodeId} (hh : ScopesMatchNodes g)
    (hfinitelyNested : FinitelyNested g s) (hpath : g.backbone s = .ok path) (hx : x ∈ path) :
    ConditionalNested g x := by
  obtain ⟨m, hm, hscope⟩ := backbone_scope hh hpath x hx
  exact ⟨m, hm, fun _ => ⟨s, hscope, hfinitelyNested⟩⟩

theorem Feeds.plain (h : Feeds g y x) (hg : WellFormed g) (hl : HasLayouts g) :
    ∃ m, g.nodeAt? y = some m ∧ m.internalScope = none ∧ m.kind.isConditional = false := by
  obtain ⟨n, -, slot, r, hn, -, hslot, hr, rfl, -⟩ := h
  exact hl.plain_of_input hg.linksMatch (node_eq_ok_iff.1 hn) (Node.mem_inputs_of_first hslot hr)

theorem ConditionalNested.outlineUses (h : ConditionalNested g x) (hg : WellFormed g) (hl : HasLayouts g)
    (houtlineUses : OutlineUses g x y) : ConditionalNested g y := by
  cases houtlineUses with
  | operand hfeeds => exact conditionalNested_of_plain (hfeeds.plain hg hl)
  | condition hn _ hb hr _ _ =>
    exact conditionalNested_of_plain (hl.plain_of_branch hg.linksMatch (node_eq_ok_iff.1 hn) hb (.inl rfl) hr)
  | bracket hn _ hb hi hr =>
    exact conditionalNested_of_plain (hl.plain_of_branch hg.linksMatch (node_eq_ok_iff.1 hn) hb (.inr hi) hr)
  | inside hn hkind _ hside hpath hy =>
    obtain ⟨-, -, -, -, hfinitelyNested⟩ := finitelyNested_of_side hg.scopesOwned (node_eq_ok_iff.1 hn) h hkind hside
    exact conditionalNested_of_backbone hg.scopesMatchNodes hfinitelyNested hpath hy

theorem InOutline.conditionalNested (hg : WellFormed g) (hl : HasLayouts g) (ht : RootFinitelyNested g)
    (h : InOutline g x) : ConditionalNested g x := by
  induction h with
  | start hs hpath hx =>
    obtain ⟨s, hs', hfinitelyNested⟩ := ht.root
    cases hs.symm.trans hs'
    exact conditionalNested_of_backbone hg.scopesMatchNodes hfinitelyNested hpath hx
  | step _ houtlineUses ih => exact ih.outlineUses hg hl houtlineUses

section Level

variable {why : Prop} {planNode : NodeId → Except Fault Plan} (hg : WellFormed g) (hl : HasLayouts g)
  (ht : RootFinitelyNested g)
variable (hn : g.nodeAt? id = some n) (hid : ConditionalNested g id)
  (hplan : ∀ y, OutlineUses g id y → ResultOrEndless why (planNode y))

theorem exists_declarations (hh : ScopesMatchNodes g) (hsc : g.scopeAt? s = some sc) :
    ∃ ds, g.declarations sc.declared = .ok ds :=
  exists_mapM fun v hv => by
    obtain ⟨m, hm, -⟩ := (hh.scopeMatchesNodes hsc).child v ((hh.scopeMatchesNodes hsc).declared v hv).1
    exact ⟨_, bind_eq_ok.2 ⟨m, node_eq_ok_iff.2 hm, rfl⟩⟩

include hg ht in
theorem resultOrEndless_outlineScope (hfinitelyNested : FinitelyNested g s) (hsc : g.scopeAt? s = some sc)
    (hbody : ∀ path, g.backbone s = .ok path → ∀ y ∈ path, ResultOrEndless why (planNode y)) :
    ResultOrEndless why (g.outlineScope planNode s) := by
  obtain ⟨owner, -, -, howner, -⟩ := hg.scopesOwned.home hsc
  refine .bind_ok ⟨sc, scope_eq_ok_iff.2 hsc⟩ fun sc' hsc' => ?_
  cases hsc.symm.trans (scope_eq_ok_iff.1 hsc')
  refine .bind_ok ⟨owner, node_eq_ok_iff.2 howner⟩ fun _ _ => ?_
  refine .bind_ok (exists_declarations hg.scopesMatchNodes hsc) fun _ _ => ?_
  refine .bind_ok (exists_backbone hg ht hfinitelyNested hsc) fun path hpath => ?_
  exact .bind (.mapM (hbody path hpath)) fun _ _ => .ok _

include hg ht hn hid hplan in
theorem resultOrEndless_outlineBlock (hkind : n.kind.isConditional = true) (hside : g.side? n side = .ok (some s))
    (hruns : side = .onTrue ∨ n.kind = .ifElse) : ResultOrEndless why (g.outlineBlock planNode s) := by
  obtain ⟨-, -, -, ⟨sc, hsc⟩, hfinitelyNested⟩ := finitelyNested_of_side hg.scopesOwned hn hid hkind hside
  refine .bind (resultOrEndless_outlineScope hg ht hfinitelyNested hsc fun path hpath y hy => ?_) fun _ _ => .ok _
  exact hplan y (.inside (node_eq_ok_iff.2 hn) hkind hruns hside hpath hy)

include hg ht hn hid hplan in
theorem resultOrEndless_outlineTrueSide (hkind : n.kind.isConditional = true) :
    ResultOrEndless why (g.outlineTrueSide planNode n) := by
  refine .bind_ok (exists_side hg.scopesOwned hn .onTrue) fun side hside => ?_
  cases side with
  | none => exact .ok _
  | some s => exact resultOrEndless_outlineBlock hg ht hn hid hplan hkind hside (.inl rfl)

include hg hl hn hplan in
theorem resultOrEndless_outlineCondition {b : Branch} (hkind : n.kind.isConditional = true) (hb : n.branch = some b) :
    ResultOrEndless why (g.outlineCondition planNode n b) := by
  unfold outlineCondition
  dsimp only
  split
  next => exact .ok _
  next r hr =>
    obtain ⟨m, hm, -⟩ := hl.plain_of_branch hg.linksMatch hn hb (.inl rfl) hr
    refine .bind_ok ⟨m, node_eq_ok_iff.2 hm⟩ fun m hm => ?_
    split
    next => exact .ok _
    next hreads => exact hplan _ (.condition (node_eq_ok_iff.2 hn) hkind hb hr hm (Bool.eq_false_iff.2 hreads))

include hn hplan in
theorem resultOrEndless_outlineInput {b : Branch} {slot : Option SlotId} (hkind : n.kind = .forLoop)
    (hb : n.branch = some b) (hslot : slot = b.initialization ∨ slot = b.iteration) :
    ResultOrEndless why (outlineInput planNode n slot) := by
  unfold outlineInput
  split
  next => exact .ok _
  next r hr =>
    rw [Option.bind_assoc, Option.bind_eq_some_iff] at hr
    obtain ⟨i, rfl, hr⟩ := hr
    exact hplan _ (.bracket (node_eq_ok_iff.2 hn) hkind hb (hslot.imp Eq.symm Eq.symm) hr)

include hg hl hn hplan in
theorem resultOrEndless_outlineSimple (hkind : n.kind.isConditional = false) :
    ResultOrEndless why (g.outlineSimple planNode id n) := by
  refine .bind (.mapM fun slot hslot => ?_) fun _ _ => .ok _
  unfold outlineOperand
  split
  next => exact .ok _
  next r hr =>
    obtain ⟨m, hm, -⟩ := hl.plain_of_input hg.linksMatch hn (Node.mem_inputs_of_first hslot hr)
    refine .bind_ok ⟨m, node_eq_ok_iff.2 hm⟩ fun m hm => ?_
    split
    next => exact .ok _
    next hreads =>
      exact hplan _ (.operand ⟨n, m, slot, r, node_eq_ok_iff.2 hn, hkind, hslot, hr, rfl, hm,
        Bool.eq_false_iff.2 hreads⟩)

include hg hl ht hn hid hplan

theorem resultOrEndless_outlineWhile {b : Branch} (hkind : n.kind = .whileLoop) (hb : n.branch = some b) :
    ResultOrEndless why (g.outlineWhile planNode n b) := by
  have hconditional : n.kind.isConditional = true := by rw [hkind]; rfl
  refine .bind (resultOrEndless_outlineCondition hg hl hn hplan hconditional hb) fun _ _ => ?_
  exact .bind (resultOrEndless_outlineTrueSide hg ht hn hid hplan hconditional) fun _ _ => .ok _

theorem resultOrEndless_outlineFor {b : Branch} (hkind : n.kind = .forLoop) (hb : n.branch = some b) :
    ResultOrEndless why (g.outlineFor planNode n b) := by
  have hconditional : n.kind.isConditional = true := by rw [hkind]; rfl
  have hrest (locals : List Declaration) : ResultOrEndless why (do
      let start ← outlineInput planNode n b.initialization
      let test ← g.outlineCondition planNode n b
      let body ← g.outlineTrueSide planNode n
      let step ← outlineInput planNode n b.iteration
      return Plan.loop n.name locals start test body step) := by
    refine .bind (resultOrEndless_outlineInput hn hplan hkind hb (.inl rfl)) fun _ _ => ?_
    refine .bind (resultOrEndless_outlineCondition hg hl hn hplan hconditional hb) fun _ _ => ?_
    refine .bind (resultOrEndless_outlineTrueSide hg ht hn hid hplan hconditional) fun _ _ => ?_
    exact .bind (resultOrEndless_outlineInput hn hplan hkind hb (.inr rfl)) fun _ _ => .ok _
  unfold outlineFor
  split
  next => exact hrest []
  next i hi =>
    obtain ⟨si, hsi, -⟩ := hg.scopesOwned.internal hn hi
    refine .bind_ok ⟨si, scope_eq_ok_iff.2 hsi⟩ fun si' hsi' => ?_
    cases hsi.symm.trans (scope_eq_ok_iff.1 hsi')
    exact .bind_ok (exists_declarations hg.scopesMatchNodes hsi) fun ds _ => hrest ds

theorem resultOrEndless_outlineIf {b : Branch} (hkind : n.kind = .ifElse) (hb : n.branch = some b) :
    ResultOrEndless why (g.outlineIf planNode n b) := by
  have hconditional : n.kind.isConditional = true := by rw [hkind]; rfl
  refine .bind (resultOrEndless_outlineCondition hg hl hn hplan hconditional hb) fun test _ => ?_
  refine .bind (resultOrEndless_outlineTrueSide hg ht hn hid hplan hconditional) fun onTrue _ => ?_
  refine .bind_ok (exists_side hg.scopesOwned hn .onFalse) fun side hside => ?_
  cases side with
  | none => exact .ok _
  | some s =>
    obtain ⟨-, -, -, ⟨sc, hsc⟩, hfinitelyNested⟩ := finitelyNested_of_side hg.scopesOwned hn hid hconditional hside
    have hblock : ResultOrEndless why (g.outlineBlock planNode s) :=
      resultOrEndless_outlineBlock hg ht hn hid hplan hconditional hside (.inr hkind)
    refine .bind_ok (exists_backbone hg ht hfinitelyNested hsc) fun path hpath => ?_
    match path, hpath with
    | [], _ => exact .ok _
    | [only], hpath =>
      obtain ⟨m, hm, -⟩ := backbone_scope hg.scopesMatchNodes hpath only (List.mem_singleton_self only)
      refine .bind_ok ⟨m, node_eq_ok_iff.2 hm⟩ fun _ _ => ?_
      split
      next =>
        refine .bind (hplan only ?_) fun _ _ => .ok _
        exact .inside (node_eq_ok_iff.2 hn) hconditional (.inr hkind) hside hpath (List.mem_singleton_self only)
      next => exact .bind hblock fun _ _ => .ok _
    | _ :: _ :: _, _ => exact .bind hblock fun _ _ => .ok _

end Level

theorem NodeKind.of_isConditional {kind : NodeKind} (h : kind.isConditional = true) :
    kind = .ifElse ∨ kind = .whileLoop ∨ kind = .forLoop := by
  cases kind with
  | ifElse => exact .inl rfl
  | whileLoop => exact .inr (.inl rfl)
  | forLoop => exact .inr (.inr rfl)
  | _ => cases h

section

variable {b : Branch} (hn : g.nodeAt? id = some n)

include hn

theorem outlineWithin_ifElse (hkind : n.kind = .ifElse) (hb : n.branch = some b) :
    g.outlineWithin (k + 1) id = g.outlineIf (g.outlineWithin k) n b := by
  simp only [outlineWithin, node_eq_ok_iff.2 hn, ok_bind, hkind, hb]

theorem outlineWithin_whileLoop (hkind : n.kind = .whileLoop) (hb : n.branch = some b) :
    g.outlineWithin (k + 1) id = g.outlineWhile (g.outlineWithin k) n b := by
  simp only [outlineWithin, node_eq_ok_iff.2 hn, ok_bind, hkind, hb]

theorem outlineWithin_forLoop (hkind : n.kind = .forLoop) (hb : n.branch = some b) :
    g.outlineWithin (k + 1) id = g.outlineFor (g.outlineWithin k) n b := by
  simp only [outlineWithin, node_eq_ok_iff.2 hn, ok_bind, hkind, hb]

theorem outlineWithin_simple (hkind : n.kind.isConditional = false) :
    g.outlineWithin (k + 1) id = g.outlineSimple (g.outlineWithin k) id n := by
  simp only [outlineWithin, node_eq_ok_iff.2 hn, ok_bind]
  split
  next hif _ => cases (congrArg NodeKind.isConditional hif).symm.trans hkind
  next hwhile _ => cases (congrArg NodeKind.isConditional hwhile).symm.trans hkind
  next hfor _ => cases (congrArg NodeKind.isConditional hfor).symm.trans hkind
  next => rfl

end

theorem HasLayouts.outlineWithin_conditional (hl : HasLayouts g) (hn : g.nodeAt? id = some n)
    (hkind : n.kind.isConditional = true) (k : Nat) : ∃ b, n.branch = some b ∧
      (n.kind = .ifElse ∧ g.outlineWithin (k + 1) id = g.outlineIf (g.outlineWithin k) n b ∨
        n.kind = .whileLoop ∧ g.outlineWithin (k + 1) id = g.outlineWhile (g.outlineWithin k) n b ∨
        n.kind = .forLoop ∧ g.outlineWithin (k + 1) id = g.outlineFor (g.outlineWithin k) n b) := by
  obtain ⟨b, hb⟩ := hl.branch_of_conditional hn hkind
  refine ⟨b, hb, ?_⟩
  rcases NodeKind.of_isConditional hkind with hif | hwhile | hfor
  · exact .inl ⟨hif, outlineWithin_ifElse hn hif hb⟩
  · exact .inr (.inl ⟨hwhile, outlineWithin_whileLoop hn hwhile hb⟩)
  · exact .inr (.inr ⟨hfor, outlineWithin_forLoop hn hfor hb⟩)

theorem resultOrEndless_outlineWithin {why : Prop} (hg : WellFormed g) (hl : HasLayouts g) (ht : RootFinitelyNested g)
    (hid : ConditionalNested g id) (hplan : ∀ y, OutlineUses g id y → ResultOrEndless why (g.outlineWithin k y)) :
    ResultOrEndless why (g.outlineWithin (k + 1) id) := by
  have ⟨n, hn, _⟩ := hid
  by_cases hkind : n.kind.isConditional = true
  · obtain ⟨b, hb, ⟨hif, heq⟩ | ⟨hwhile, heq⟩ | ⟨hfor, heq⟩⟩ := hl.outlineWithin_conditional hn hkind k
    · rw [heq]
      exact resultOrEndless_outlineIf hg hl ht hn hid hplan hif hb
    · rw [heq]
      exact resultOrEndless_outlineWhile hg hl ht hn hid hplan hwhile hb
    · rw [heq]
      exact resultOrEndless_outlineFor hg hl ht hn hid hplan hfor hb
  · rw [outlineWithin_simple hn (Bool.eq_false_iff.2 hkind)]
    exact resultOrEndless_outlineSimple hg hl hn hplan (Bool.eq_false_iff.2 hkind)

section

variable {planNode : NodeId → Except Fault Plan} {p : Plan} {b : Branch} {path : List NodeId}

theorem exists_of_outlineScope {q : Program} (h : g.outlineScope planNode s = .ok q) (hpath : g.backbone s = .ok path)
    (hy : y ∈ path) : ∃ q, planNode y = .ok q := by
  simp only [outlineScope, bind_eq_ok, pure_eq_ok] at h
  obtain ⟨-, -, -, -, -, -, path', hpath', plans, hplans, -⟩ := h
  cases hpath.symm.trans hpath'
  obtain ⟨q, -, hq⟩ := exists_of_mem_mapM hplans hy
  exact ⟨q, hq⟩

theorem exists_of_outlineBlock (h : g.outlineBlock planNode s = .ok p) (hpath : g.backbone s = .ok path)
    (hy : y ∈ path) : ∃ q, planNode y = .ok q := by
  obtain ⟨q, hq, -⟩ := bind_eq_ok.1 h
  exact exists_of_outlineScope hq hpath hy

theorem exists_of_outlineTrueSide (h : g.outlineTrueSide planNode n = .ok p)
    (hside : g.side? n .onTrue = .ok (some s)) (hpath : g.backbone s = .ok path) (hy : y ∈ path) :
    ∃ q, planNode y = .ok q := by
  simp only [outlineTrueSide, hside, ok_bind] at h
  exact exists_of_outlineBlock h hpath hy

theorem exists_of_outlineCondition {r : SlotRef} {m : Node} (h : g.outlineCondition planNode n b = .ok p)
    (hr : (n.slot? b.condition).bind Slot.first? = some r) (hm : g.node r.node = .ok m)
    (hreads : m.isVariableLike = false) : ∃ q, planNode r.node = .ok q := by
  simp only [outlineCondition, hr, hm, ok_bind, hreads, Bool.false_eq_true, if_false] at h
  exact ⟨p, h⟩

theorem exists_of_outlineInput {i : SlotId} {r : SlotRef} (h : outlineInput planNode n (some i) = .ok p)
    (hr : (n.slot? i).bind Slot.first? = some r) : ∃ q, planNode r.node = .ok q := by
  simp only [outlineInput, Option.bind_some, hr] at h
  exact ⟨p, h⟩

theorem of_outlineWhile (h : g.outlineWhile planNode n b = .ok p) : ∃ test body,
    g.outlineCondition planNode n b = .ok test ∧ g.outlineTrueSide planNode n = .ok body ∧
      p = .loop n.name [] .skip test body .skip := by
  simp only [outlineWhile, bind_eq_ok, pure_eq_ok] at h
  obtain ⟨test, htest, body, hbody, rfl⟩ := h
  exact ⟨test, body, htest, hbody, rfl⟩

/-- The false side is left out if nothing is on it, and goes without a frame if all there is on it is an `if`. -/
theorem of_outlineIf (h : g.outlineIf planNode n b = .ok p) : ∃ test onTrue,
    g.outlineCondition planNode n b = .ok test ∧ g.outlineTrueSide planNode n = .ok onTrue ∧
      (p = .choice n.name test onTrue ∧ (∀ t, g.side? n .onFalse = .ok (some t) → g.backbone t = .ok []) ∨
        ∃ t onFalse, g.side? n .onFalse = .ok (some t) ∧ p = .choiceElse n.name test onTrue onFalse ∧
          ((∃ only m, g.backbone t = .ok [only] ∧ g.node only = .ok m ∧ m.kind = .ifElse ∧
              planNode only = .ok onFalse) ∨
            g.outlineBlock planNode t = .ok onFalse ∧
              ∀ only m, g.backbone t = .ok [only] → g.node only = .ok m → m.kind ≠ .ifElse)) := by
  simp only [outlineIf, bind_eq_ok] at h
  obtain ⟨test, htest, onTrue, htrue, side, hside, h⟩ := h
  refine ⟨test, onTrue, htest, htrue, ?_⟩
  cases side with
  | none =>
    cases h
    refine .inl ⟨rfl, fun t ht => ?_⟩
    cases hside.symm.trans ht
  | some t =>
    obtain ⟨path, hpath, h⟩ := bind_eq_ok.1 h
    match path, hpath, h with
    | [], hpath, h =>
      cases h
      refine .inl ⟨rfl, fun t' ht' => ?_⟩
      cases hside.symm.trans ht'
      exact hpath
    | [only], hpath, h =>
      obtain ⟨m, hm, h⟩ := bind_eq_ok.1 h
      split at h
      next hkind =>
        obtain ⟨onFalse, hfalse, ⟨⟩⟩ := bind_eq_ok.1 h
        exact .inr ⟨t, onFalse, hside, rfl, .inl ⟨only, m, hpath, hm, hkind, hfalse⟩⟩
      next hkind =>
        obtain ⟨onFalse, hfalse, ⟨⟩⟩ := bind_eq_ok.1 h
        refine .inr ⟨t, onFalse, hside, rfl, .inr ⟨hfalse, fun only' m' hpath' hm' => ?_⟩⟩
        cases hpath.symm.trans hpath'
        cases hm.symm.trans hm'
        exact hkind
    | _ :: _ :: _, hpath, h =>
      obtain ⟨onFalse, hfalse, ⟨⟩⟩ := bind_eq_ok.1 h
      refine .inr ⟨t, onFalse, hside, rfl, .inr ⟨hfalse, fun only m hpath' => ?_⟩⟩
      cases hpath.symm.trans hpath'

theorem exists_of_outlineIf (h : g.outlineIf planNode n b = .ok p) (hside : g.side? n side = .ok (some s))
    (hpath : g.backbone s = .ok path) (hy : y ∈ path) : ∃ q, planNode y = .ok q := by
  obtain ⟨test, onTrue, -, htrue, hfalse⟩ := of_outlineIf h
  cases side with
  | onTrue => exact exists_of_outlineTrueSide htrue hside hpath hy
  | onFalse =>
    obtain ⟨-, hnone⟩ | ⟨t, onFalse, hside', -, hfalse⟩ := hfalse
    · cases hpath.symm.trans (hnone s hside)
      cases hy
    · cases hside.symm.trans hside'
      obtain ⟨only, m, hpath', -, -, hfalse⟩ | ⟨hfalse, -⟩ := hfalse
      · cases hpath.symm.trans hpath'
        obtain rfl := List.mem_singleton.1 hy
        exact ⟨onFalse, hfalse⟩
      · exact exists_of_outlineBlock hfalse hpath hy

theorem exists_of_outlineSimple {slot : Slot} {r : SlotRef} {m : Node} (h : g.outlineSimple planNode id n = .ok p)
    (hslot : slot ∈ n.filterSlots .input) (hr : slot.first? = some r) (hm : g.node r.node = .ok m)
    (hreads : m.isVariableLike = false) : ∃ q, planNode r.node = .ok q := by
  obtain ⟨operands, hoperands, -⟩ := bind_eq_ok.1 h
  obtain ⟨q, -, hq⟩ := exists_of_mem_mapM hoperands hslot
  simp only [outlineOperand, hr, hm, ok_bind, hreads, Bool.false_eq_true, if_false] at hq
  exact ⟨q, hq⟩

end

theorem exists_of_outlineUses (hl : HasLayouts g) {p : Plan} (h : g.outlineWithin (k + 1) x = .ok p)
    (houtlineUses : OutlineUses g x y) :
    ∃ q, g.outlineWithin k y = .ok q := by
  cases houtlineUses with
  | operand hfeeds =>
    obtain ⟨n, m, slot, r, hn, hkind, hslot, hr, rfl, hm, hreads⟩ := hfeeds
    rw [outlineWithin_simple (node_eq_ok_iff.1 hn) hkind] at h
    exact exists_of_outlineSimple h hslot hr hm hreads
  | condition hn hkind hb hr hm hreads =>
    rw [node_eq_ok_iff] at hn
    obtain ⟨b', hb', hcases⟩ := hl.outlineWithin_conditional hn hkind k
    cases hb.symm.trans hb'
    rcases hcases with ⟨-, heq⟩ | ⟨-, heq⟩ | ⟨-, heq⟩ <;> rw [heq] at h
    · obtain ⟨test, htest, -⟩ := bind_eq_ok.1 h
      exact exists_of_outlineCondition htest hr hm hreads
    · obtain ⟨test, htest, -⟩ := bind_eq_ok.1 h
      exact exists_of_outlineCondition htest hr hm hreads
    · obtain ⟨-, -, test, -, -, -, -, htest, -⟩ := outlineFor_eq_ok_iff.1 h
      exact exists_of_outlineCondition htest hr hm hreads
  | bracket hn hkind hb hi hr =>
    rw [outlineWithin_forLoop (node_eq_ok_iff.1 hn) hkind hb] at h
    obtain ⟨-, start, -, -, step, -, hstart, -, -, hstep, -⟩ := outlineFor_eq_ok_iff.1 h
    rcases hi with hi | hi
    · rw [hi] at hstart
      exact exists_of_outlineInput hstart hr
    · rw [hi] at hstep
      exact exists_of_outlineInput hstep hr
  | inside hn hkind hruns hside hpath hy =>
    rw [node_eq_ok_iff] at hn
    obtain ⟨b, hb, ⟨-, heq⟩ | ⟨hwhile, heq⟩ | ⟨hfor, heq⟩⟩ := hl.outlineWithin_conditional hn hkind k
    all_goals rw [heq] at h
    · exact exists_of_outlineIf h hside hpath hy
    · obtain rfl := hruns.resolve_right fun hif => nomatch hif.symm.trans hwhile
      obtain ⟨test, -, h⟩ := bind_eq_ok.1 h
      obtain ⟨body, hbody, -⟩ := bind_eq_ok.1 h
      exact exists_of_outlineTrueSide hbody hside hpath hy
    · obtain rfl := hruns.resolve_right fun hif => nomatch hif.symm.trans hfor
      obtain ⟨-, -, -, body, -, -, -, -, hbody, -⟩ := outlineFor_eq_ok_iff.1 h
      exact exists_of_outlineTrueSide hbody hside hpath hy

end FlowGraph.Graph
