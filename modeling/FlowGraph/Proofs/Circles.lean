import FlowGraph.Library.Standard
import FlowGraph.Proofs.Correctness
import FlowGraph.Proofs.Lowering

/-!
# Expressions in a circle

A link is checked on its own, so nodes may come to feed each other in a circle. A graph that meets all
requirements is compiled unless its program runs into such a circle, and then no outline of it has an end.
Nested scopes are never the reason.
-/

namespace FlowGraph

open Relation

theorem exists_circle {α : Type} {r : α → α → Prop} {a : α} {as : List α} (h : (a :: as).IsChain r)
    (hrunsLiteralOnly : ¬(a :: as).Nodup) : ∃ b, ReflTransGen r a b ∧ TransGen r b b := by
  induction as generalizing a with
  | nil => exact (hrunsLiteralOnly (List.nodup_singleton a)).elim
  | cons b as ih =>
    have hstep := List.isChain_cons_cons.1 h
    by_cases hmem : a ∈ b :: as
    · have hpairs := h.imp (S := TransGen r) fun _ _ => .single
      rw [List.isChain_iff_pairwise, List.pairwise_cons] at hpairs
      exact ⟨a, .refl, hpairs.1 a hmem⟩
    · obtain ⟨c, hreach, hcircle⟩ := ih hstep.2 fun hnodup => hrunsLiteralOnly (List.nodup_cons.2 ⟨hmem, hnodup⟩)
      exact ⟨c, .head hstep.1 hreach, hcircle⟩

namespace Graph

variable {g : Graph} {x y : NodeId} {n m : Node} {k : Nat}

/-- Of what the program's outline is put together from, something feeds itself, if only through other nodes. -/
def OutlineFeedsItself (g : Graph) : Prop := ∃ x, InOutline g x ∧ TransGen (Feeds g) x x

theorem InOutline.reaches (h : InOutline g x) (hreach : ReflTransGen (OutlineUses g) x y) : InOutline g y := by
  induction hreach with
  | refl => exact h
  | tail _ houtlineUses ih => exact ih.step houtlineUses

theorem ConditionalNested.reaches (hg : WellFormed g) (hl : HasLayouts g) (h : ConditionalNested g x)
    (hreach : ReflTransGen (OutlineUses g) x y) :
    ConditionalNested g y := by
  induction hreach with
  | refl => exact h
  | tail _ houtlineUses ih => exact ih.outlineUses hg hl houtlineUses

theorem OutlineUses.feeds (hg : WellFormed g) (hl : HasLayouts g) (h : OutlineUses g x y) (hn : g.nodeAt? x = some n)
    (hkind : n.kind.isConditional = false) :
    Feeds g y x ∧ ∃ m, g.nodeAt? y = some m ∧ m.kind.isConditional = false := by
  cases h with
  | operand hfeeds =>
    obtain ⟨m, hm, -, hplain⟩ := hfeeds.plain hg hl
    exact ⟨hfeeds, m, hm, hplain⟩
  | condition hn' hkind' =>
    cases hn.symm.trans (node_eq_ok_iff.1 hn')
    rw [hkind] at hkind'
    cases hkind'
  | bracket hn' hkind' =>
    cases hn.symm.trans (node_eq_ok_iff.1 hn')
    rw [hkind'] at hkind
    cases hkind
  | inside hn' hkind' =>
    cases hn.symm.trans (node_eq_ok_iff.1 hn')
    rw [hkind] at hkind'
    cases hkind'

/-- A conditional that is called for lies inside the one that calls for it. -/
theorem OutlineUses.below (hg : WellFormed g) (hl : HasLayouts g) (h : OutlineUses g x y) (hx : ConditionalNested g x)
    (hm : g.nodeAt? y = some m) (hkind : m.kind.isConditional = true) :
    ∃ n s t, g.nodeAt? x = some n ∧ n.kind.isConditional = true ∧
      n.scope = some s ∧ m.scope = some t ∧ TransGen (fun u v => g.parentScope? v = .ok (some u)) s t := by
  have hnot (hplain : ∃ m, g.nodeAt? y = some m ∧ m.internalScope = none ∧ m.kind.isConditional = false) : False := by
    obtain ⟨m', hm', -, hkind'⟩ := hplain
    cases hm.symm.trans hm'
    rw [hkind] at hkind'
    cases hkind'
  cases h with
  | operand hfeeds => exact (hnot (hfeeds.plain hg hl)).elim
  | condition hn _ hb hr =>
    exact (hnot (hl.plain_of_branch hg.linksMatch (node_eq_ok_iff.1 hn) hb (.inl rfl) hr)).elim
  | bracket hn _ hb hi hr =>
    exact (hnot (hl.plain_of_branch hg.linksMatch (node_eq_ok_iff.1 hn) hb (.inr hi) hr)).elim
  | @inside n _ s _ _ hn hkind' _ hside hpath hy =>
    rw [node_eq_ok_iff] at hn
    obtain ⟨n', hn', hconditionalNested⟩ := id hx
    cases hn.symm.trans hn'
    obtain ⟨t, ht, -⟩ := hconditionalNested hkind'
    obtain ⟨i, hi, hparent, -⟩ := finitelyNested_of_side hg.scopesOwned hn hx hkind' hside
    obtain ⟨si, -, hup⟩ := hg.scopesOwned.parent_of_internal hn hi
    obtain ⟨m', hm', hscope⟩ := backbone_scope hg.scopesMatchNodes hpath y hy
    cases hm.symm.trans hm'
    exact ⟨n, t, s, hn, hkind', ht, hscope, .head (hup.trans (congrArg _ ht)) (.single hparent)⟩

theorem below_of_transGen (hg : WellFormed g) (hl : HasLayouts g) (h : TransGen (OutlineUses g) x y)
    (hx : ConditionalNested g x) (hm : g.nodeAt? y = some m) (hkind : m.kind.isConditional = true) :
    ∃ n s t, g.nodeAt? x = some n ∧
      n.scope = some s ∧ m.scope = some t ∧ TransGen (fun u v => g.parentScope? v = .ok (some u)) s t := by
  induction h generalizing m with
  | single houtlineUses =>
    obtain ⟨n, s, t, hn, -, hs, ht, hbelow⟩ := houtlineUses.below hg hl hx hm hkind
    exact ⟨n, s, t, hn, hs, ht, hbelow⟩
  | tail hreach houtlineUses ih =>
    obtain ⟨m', s', t, hm', hkind', hs', ht, hbelow⟩ :=
      houtlineUses.below hg hl (hx.reaches hg hl hreach.to_reflTransGen) hm hkind
    obtain ⟨n, s, t', hn, hs, ht', hbelow'⟩ := ih hm' hkind'
    cases hs'.symm.trans ht'
    exact ⟨n, s, t, hn, hs, ht, hbelow'.trans hbelow⟩

/-- A circle of outlines is one of expressions, because there are only so many scopes around a conditional. -/
theorem feeds_of_circle (hg : WellFormed g) (hl : HasLayouts g) (hx : ConditionalNested g x)
    (h : TransGen (OutlineUses g) x x) :
    TransGen (Feeds g) x x := by
  obtain ⟨n, hn, hconditionalNested⟩ := id hx
  have hnot : ¬n.kind.isConditional = true := by
    intro hkind
    obtain ⟨n', s, t, hn', hs, ht, hbelow⟩ := below_of_transGen hg hl h hx hn hkind
    cases hn.symm.trans hn'
    cases hs.symm.trans ht
    obtain ⟨t, ht, hfinitelyNested⟩ := hconditionalNested hkind
    cases hs.symm.trans ht
    exact not_rel_self_of_acc hfinitelyNested.transGen hbelow
  have hfeeds : ∀ y, TransGen (OutlineUses g) x y →
      TransGen (Feeds g) y x ∧ ∃ m, g.nodeAt? y = some m ∧ m.kind.isConditional = false := by
    intro y hreach
    induction hreach with
    | single houtlineUses => exact (houtlineUses.feeds hg hl hn (Bool.eq_false_iff.2 hnot)).imp_left .single
    | tail _ houtlineUses ih =>
      obtain ⟨hback, m, hm, hkind⟩ := ih
      exact (houtlineUses.feeds hg hl hm hkind).imp_left fun hfeeds => .head hfeeds hback
  exact (hfeeds x h).1

theorem transGen_outlineUses (h : TransGen (Feeds g) y x) : TransGen (OutlineUses g) x y := by
  induction h using TransGen.head_induction_on with
  | single hfeeds => exact .single (.operand hfeeds)
  | head hfeeds _ ih => exact ih.tail (.operand hfeeds)

/-- Whoever misses a level has gone down as many outlines as there were levels. -/
theorem resultOrEndless_chain (hg : WellFormed g) (hl : HasLayouts g) (ht : RootFinitelyNested g)
    (hx : ConditionalNested g x) :
    ResultOrEndless (∃ xs, (x :: xs).IsChain (OutlineUses g) ∧ xs.length = k) (g.outlineWithin k x) := by
  induction k generalizing x with
  | zero => exact .inr ⟨rfl, [], List.isChain_singleton x, rfl⟩
  | succ k ih =>
    refine resultOrEndless_outlineWithin hg hl ht hx fun y houtlineUses =>
      (ih (hx.outlineUses hg hl houtlineUses)).mono ?_
    rintro ⟨xs, hchain, hlength⟩
    exact ⟨y :: xs, List.isChain_cons_cons.2 ⟨houtlineUses, hchain⟩, congrArg (· + 1) hlength⟩

theorem ConditionalNested.chain (hg : WellFormed g) (hl : HasLayouts g) {xs : List NodeId}
    (h : (x :: xs).IsChain (OutlineUses g)) (hx : ConditionalNested g x) : AllLive g (x :: xs) := by
  induction xs generalizing x with
  | nil => exact List.forall_mem_cons.2 ⟨hx.imp fun _ => And.left, nofun⟩
  | cons y xs ih =>
    obtain ⟨houtlineUses, hrest⟩ := List.isChain_cons_cons.1 h
    exact List.forall_mem_cons.2 ⟨hx.imp fun _ => And.left, ih hrest (hx.outlineUses hg hl houtlineUses)⟩

theorem resultOrEndless_inOutline (hg : WellFormed g) (hl : HasLayouts g) (ht : RootFinitelyNested g)
    (hx : InOutline g x) :
    ResultOrEndless (OutlineFeedsItself g) (g.outlineWithin g.depthBound x) := by
  -- there are more levels than nodes, so that only a circle misses one
  have hconditionalNested := hx.conditionalNested hg hl ht
  refine (resultOrEndless_chain hg hl ht hconditionalNested).mono ?_
  rintro ⟨xs, hchain, hlength⟩
  have hrunsLiteralOnly : ¬(x :: xs).Nodup := by
    intro hnodup
    have hlt := length_lt_depthBound hnodup (hconditionalNested.chain hg hl hchain)
    rw [List.length_cons] at hlt
    omega
  obtain ⟨y, hreach, hcircle⟩ := exists_circle hchain hrunsLiteralOnly
  exact ⟨y, hx.reaches hreach, feeds_of_circle hg hl (hconditionalNested.reaches hg hl hreach) hcircle⟩

theorem resultOrEndless_outline (hg : WellFormed g) (hl : HasLayouts g) (ht : RootFinitelyNested g) :
    ResultOrEndless (OutlineFeedsItself g) g.outline := by
  obtain ⟨s, hs, hfinitelyNested⟩ := ht.root
  obtain ⟨n, hn, hi⟩ := rootScope_eq_ok_iff.1 hs
  obtain ⟨sc, hsc, -⟩ := hg.scopesOwned.internal hn hi
  refine .bind_ok ⟨s, hs⟩ fun s' hs' => ?_
  cases hs.symm.trans hs'
  exact resultOrEndless_outlineScope hg ht hfinitelyNested hsc fun path hpath x hx => resultOrEndless_inOutline hg hl ht
    (.start hs hpath hx)

theorem acc_of_outlineWithin (hl : HasLayouts g) {p : Plan} (h : g.outlineWithin k x = .ok p) :
    Acc (fun y x => OutlineUses g x y) x := by
  induction k generalizing x p with
  | zero => cases h
  | succ k ih =>
    refine ⟨_, fun y houtlineUses => ?_⟩
    obtain ⟨q, hq⟩ := exists_of_outlineUses hl h houtlineUses
    exact ih hq

theorem not_outlineFeedsItself (hl : HasLayouts g) {s : ScopeId} {p : Program} (hs : g.rootScope = .ok s)
    (h : g.outlineScope (g.outlineWithin k) s = .ok p) : ¬OutlineFeedsItself g := by
  rintro ⟨x, hx, hcircle⟩
  have hacc : ∀ x, InOutline g x → Acc (fun y x => OutlineUses g x y) x := by
    intro x hx
    induction hx with
    | start hs' hpath hx =>
      cases hs.symm.trans hs'
      obtain ⟨q, hq⟩ := exists_of_outlineScope h hpath hx
      exact acc_of_outlineWithin hl hq
    | step _ houtlineUses ih => exact ih.inv houtlineUses
  exact not_rel_self_of_acc (hacc x hx).transGen (transGen_swap.1 (transGen_outlineUses hcircle))

/-- A valid program is compiled, as far as its code fits, unless expressions feed each other in a circle. Then
compilation does not end: the program has no outline with any number of levels. -/
theorem compile_of_validate (hr : Reachable g) (hvalid : g.validate = .ok []) (insertReturn : Bool) :
    (¬OutlineFeedsItself g → ∃ p, g.outline = .ok p ∧ g.compile insertReturn =
      if (p.code insertReturn).length ≤ Code.limit then .ok (.ok (.ofList (p.code insertReturn)))
      else .error .codeOverflow) ∧
    (OutlineFeedsItself g → g.compile insertReturn = .error .endless ∧
      ∀ k s p, g.rootScope = .ok s → g.outlineScope (g.outlineWithin k) s ≠ .ok p) := by
  have hoverall : g.compile insertReturn = g.outline >>= fun p =>
      if (p.emit insertReturn).size ≤ Code.limit then .ok (.ok (p.emit insertReturn)) else .error .codeOverflow := by
    rw [compile, hvalid]
    rfl
  have hresultOrEndless := resultOrEndless_outline hr.wellFormed hr.hasLayouts hr.rootFinitelyNested
  constructor
  · intro hnot
    obtain ⟨p, hp⟩ := hresultOrEndless.resolve_right fun h => hnot h.2
    refine ⟨p, hp, ?_⟩
    rw [hoverall, hp, ok_bind, p.emit_eq, Code.size_ofList]
  · intro houtlineFeedsItself
    have hnone (k : Nat) (s : ScopeId) (p : Program) (hs : g.rootScope = .ok s) :
        g.outlineScope (g.outlineWithin k) s ≠ .ok p :=
        fun hp => not_outlineFeedsItself hr.hasLayouts hs hp houtlineFeedsItself
    refine ⟨?_, hnone⟩
    rcases hresultOrEndless with ⟨p, hp⟩ | ⟨hendless, -⟩
    · obtain ⟨s, hs, h⟩ := bind_eq_ok.1 hp
      exact (hnone _ s p hs h).elim
    · rw [hoverall, hendless]
      rfl

/-- Nodes 3 and 4 are sums, each an operand of the other. The program runs node 3. -/
def circle : Except Fault Graph := do
  let sum : Signature := ⟨"+", .int, [{ type := .int }, { type := .int }]⟩
  let g ← create {} {} .standard {}
  let s ← g.rootScope
  [.operator sum s, .operator sum s, .connect ⟨⟨1⟩, ⟨0⟩⟩ ⟨⟨3⟩, ⟨0⟩⟩ true, .connect ⟨⟨4⟩, ⟨2⟩⟩ ⟨⟨3⟩, ⟨3⟩⟩ true,
    .connect ⟨⟨3⟩, ⟨2⟩⟩ ⟨⟨4⟩, ⟨3⟩⟩ true].foldlM perform g

theorem circle_valid : ∃ g, circle = .ok g ∧ Reachable g ∧ g.validate = .ok [] := by
  obtain ⟨g, hg⟩ := exists_of_isOk (x := circle) (by decide +kernel)
  refine ⟨g, hg, ?_, eq_ok_of_toOption_bind validate hg (by decide +kernel)⟩
  simp only [circle, bind_eq_ok] at hg
  obtain ⟨g₀, hcreate, s, -, h⟩ := hg
  exact (Reachable.create hcreate).edits h

theorem feeds_of_first {r : SlotRef} (hn : g.node x = .ok n) (hkind : n.kind.isConditional = false)
    (hr : some r ∈ (n.filterSlots .input).map Slot.first?) (hm : g.node r.node = .ok m)
    (hreads : m.isVariableLike = false) : Feeds g r.node x := by
  obtain ⟨slot, hslot, hr⟩ := List.mem_map.1 hr
  exact ⟨n, m, slot, r, hn, hkind, hslot, hr, rfl, hm, hreads⟩

theorem circle_outlineFeedsItself (hg : circle = .ok g) : OutlineFeedsItself g := by
  have hroot := eq_ok_of_toOption_bind rootScope hg (b := ⟨2⟩) (by decide +kernel)
  have hpath := eq_ok_of_toOption_bind (backbone · ⟨2⟩) hg (b := [⟨3⟩]) (by decide +kernel)
  have hnodes := eq_ok_of_toOption_bind (fun g => do
    let inputs (n : Node) := (n.filterSlots .input).map Slot.first?
    let n ← g.node ⟨3⟩
    let m ← g.node ⟨4⟩
    return (n.kind, m.kind, inputs n, inputs m)) hg
    (b := (.operator, .operator, [some ⟨⟨4⟩, ⟨2⟩⟩, none], [some ⟨⟨3⟩, ⟨2⟩⟩, none])) (by decide +kernel)
  simp only [bind_eq_ok, pure_eq_ok, Prod.mk.injEq] at hnodes
  obtain ⟨n, hn, m, hm, hkind, hkind', hinputs, hinputs'⟩ := hnodes
  have hfeeds : Feeds g ⟨4⟩ ⟨3⟩ := feeds_of_first (r := ⟨⟨4⟩, ⟨2⟩⟩) hn (by rw [hkind]; rfl)
    (by rw [hinputs]; exact List.mem_cons_self) hm (by rw [Node.isVariableLike, hkind']; rfl)
  have hfeeds' : Feeds g ⟨3⟩ ⟨4⟩ := feeds_of_first (r := ⟨⟨3⟩, ⟨2⟩⟩) hm (by rw [hkind']; rfl)
    (by rw [hinputs']; exact List.mem_cons_self) hn (by rw [Node.isVariableLike, hkind]; rfl)
  exact ⟨⟨3⟩, .start hroot hpath (List.mem_singleton_self _), .tail (.single hfeeds') hfeeds⟩

theorem compile_circle : ∃ g, circle = .ok g ∧ Reachable g ∧ g.validate = .ok [] ∧
    g.compile false = .error .endless := by
  obtain ⟨g, hg, hreachable, hvalid⟩ := circle_valid
  exact ⟨g, hg, hreachable, hvalid, ((compile_of_validate hreachable hvalid false).2 (circle_outlineFeedsItself hg)).1⟩

/-- The graph is valid and has no code, and more levels do not help. -/
theorem not_compiled_circle : ∃ g, Reachable g ∧ g.validate = .ok [] ∧
    (∀ insertReturn c, g.compile insertReturn ≠ .ok (.ok c)) ∧
    ∀ k s p, g.rootScope = .ok s → g.outlineScope (g.outlineWithin k) s ≠ .ok p := by
  obtain ⟨g, hg, hreachable, hvalid⟩ := circle_valid
  refine ⟨g, hreachable, hvalid, fun insertReturn c h => ?_, fun k s p hs hp =>
    not_outlineFeedsItself hreachable.hasLayouts hs hp (circle_outlineFeedsItself hg)⟩
  obtain ⟨p, hp, -⟩ := outline_of_compile h
  obtain ⟨s, hs, hp⟩ := bind_eq_ok.1 hp
  exact not_outlineFeedsItself hreachable.hasLayouts hs hp (circle_outlineFeedsItself hg)

end Graph

end FlowGraph
