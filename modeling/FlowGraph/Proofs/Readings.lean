import FlowGraph.Proofs.Trimming

/-!
# Reads that come to the same

A read goes through references until there is none, and if that takes finitely many the number of levels it is granted
makes no difference. So a literal, which is read through one more link, gives its reader what the reader's own value
would have been.
-/

namespace FlowGraph

open Relation

namespace Graph

variable {g h : Graph} {m m' : Memory} {x y : NodeId} {n : Node} {l : Link} {v : Value} {k k' : Nat}

theorem readWithin_succ {r : Except Trap Value} (hr : g.readWithin m k x = r) (hends : r ≠ .error (.fault .endless)) :
    g.readWithin m (k + 1) x = r := by
  induction k generalizing x with
  | zero => exact (hends hr.symm).elim
  | succ k ih =>
    rw [readWithin] at hr ⊢
    split
    next hn => simpa only [hn] using hr
    next hn => simpa only [hn] using hr
    next n hn =>
      simp only [hn] at hr
      split
      next hkind => simpa only [hkind] using hr
      next hkind =>
        simp only [hkind] at hr
        split
        next source hsource =>
          simp only [hsource] at hr
          exact ih hr
        next hnone => simpa only [hnone] using hr
      next hvariable hreference =>
        split at hr
        next hkind => exact (hvariable hkind).elim
        next hkind => exact (hreference hkind).elim
        next => exact hr

theorem readWithin_le {r : Except Trap Value} (hk : k ≤ k') (hr : g.readWithin m k x = r)
    (hends : r ≠ .error (.fault .endless)) : g.readWithin m k' x = r := by
  induction hk with
  | refl => exact hr
  | step _ ih => exact readWithin_succ ih hends

theorem readWithin_of_refersTo (hpoints : RefersTo g x y) : g.readWithin m (k + 1) x = g.readWithin m k y := by
  obtain ⟨n, hn, hsource⟩ := bind_eq_ok.1 hpoints
  rw [readWithin, node?_eq_some_iff.2 (node_eq_ok_iff.1 hn)]
  split at hsource
  next hkind =>
    simp only [hkind]
    rw [pure_eq_ok.1 hsource]
  next => cases hsource

def LeadsToCircle (g : Graph) (x : NodeId) : Prop :=
  ∃ y, ReflTransGen (RefersTo g) x y ∧ TransGen (RefersTo g) y y

theorem LeadsToCircle.refersTo (h : LeadsToCircle g x) : ∃ y, RefersTo g x y ∧ LeadsToCircle g y := by
  obtain ⟨z, hreach, hcircle⟩ := h
  obtain ⟨y, hxy, hyz⟩ := TransGen.head'_iff.1 (TransGen.trans_right hreach hcircle)
  exact ⟨y, hxy, z, hyz, hcircle⟩

theorem readWithin_of_leadsToCircle (h : LeadsToCircle g x) (k : Nat) :
    g.readWithin m k x = .error (.fault .endless) := by
  induction k generalizing x with
  | zero => rfl
  | succ k ih =>
    obtain ⟨y, hpoints, hy⟩ := h.refersTo
    rw [readWithin_of_refersTo hpoints, ih hy]

theorem leadsToCircle_of_read (hl : HasLayouts g) (hw : LinksMatch g) (hn : g.nodeAt? x = some n)
    (h : g.read m x = .error (.fault .endless)) : LeadsToCircle g x := by
  obtain ⟨_, ⟨⟩⟩ | ⟨-, path, hlength, hchain, hlive⟩ := trap_of_readWithin hl hw hn h
  refine exists_circle hchain fun hnodup => ?_
  have hlt := length_lt_depthBound hnodup hlive
  rw [List.length_cons, hlength] at hlt
  omega

theorem acc_of_readWithin (hends : g.readWithin m k x ≠ .error (.fault .endless)) :
    Acc (fun y x => RefersTo g x y) x := by
  induction k generalizing x with
  | zero => exact (hends rfl).elim
  | succ k ih => exact ⟨_, fun y hpoints => ih (readWithin_of_refersTo hpoints ▸ hends)⟩

theorem read_of_acc (hl : HasLayouts g) (hw : LinksMatch g) (hn : g.nodeAt? x = some n)
    (hacc : Acc (fun y x => RefersTo g x y) x) : g.read m x ≠ .error (.fault .endless) := by
  intro hendless
  obtain ⟨y, hreach, hcircle⟩ := leadsToCircle_of_read hl hw hn hendless
  have hacc' : Acc (fun y x => RefersTo g x y) y := by
    clear hcircle
    induction hreach with
    | refl => exact hacc
    | tail _ hpoints ih => exact ih.inv hpoints
  exact not_rel_self_of_acc hacc'.transGen (transGen_swap.1 hcircle)

theorem read_eq_of_readWithin (hl : HasLayouts g) (hw : LinksMatch g) (hn : g.nodeAt? x = some n)
    {r : Except Trap Value} (hr : g.readWithin m k x = r) (hends : r ≠ .error (.fault .endless)) : g.read m x = r := by
  have hread := read_of_acc hl hw hn (acc_of_readWithin (hr ▸ hends)) (m := m)
  have hmax := readWithin_le (Nat.le_max_left g.depthBound k) rfl hread
  rw [readWithin_le (Nat.le_max_right g.depthBound k) hr hends] at hmax
  exact hmax.symm

end Graph

structure Memory.AgreesButLiteral (h : Graph) (literal : NodeId) (v : Value) (m m' : Memory) : Prop where
  pushed : ∀ x, m.pushed? x = m'.pushed? x
  value : ∀ x, x ≠ literal → m.value? x = m'.value? x
  literal : ∀ w, m.value? literal = some w → w = v
  reference : ∀ x n, h.nodeAt? x = some n → n.kind = .variableRef → m'.value? x = none

namespace Memory.AgreesButLiteral

variable {h : Graph} {literal x : NodeId} {v w : Value} {m m' : Memory}

theorem start : Memory.AgreesButLiteral h literal v {} {} :=
  ⟨fun _ => rfl, fun _ _ => rfl, nofun, fun _ _ _ _ => Std.ExtTreeMap.getElem?_empty⟩

theorem push (hm : m.AgreesButLiteral h literal v m') : (m.push x).AgreesButLiteral h literal v (m'.push x) := by
  refine ⟨fun y => ?_, hm.value, hm.literal, hm.reference⟩
  rw [pushed?_push, pushed?_push, hm.pushed]

theorem pop (hm : m.AgreesButLiteral h literal v m') : (m.pop x).AgreesButLiteral h literal v (m'.pop x) := by
  refine ⟨fun y => ?_, hm.value, hm.literal, hm.reference⟩
  rw [pushed?_pop, pushed?_pop, hm.pushed]

theorem setVariable (hm : m.AgreesButLiteral h literal v m') :
    (m.setVariable x w).AgreesButLiteral h literal v (m'.setVariable x w) := by
  refine ⟨fun y => ?_, hm.value, hm.literal, hm.reference⟩
  rw [pushed?_setVariable, pushed?_setVariable, hm.pushed]

theorem setValue (hm : m.AgreesButLiteral h literal v m') (hx : x ≠ literal)
    (hkind : ∀ n, h.nodeAt? x = some n → n.kind ≠ .variableRef) :
    (m.setValue x w).AgreesButLiteral h literal v (m'.setValue x w) := by
  refine ⟨hm.pushed, fun y hy => ?_, fun u hu => ?_, fun y n hn hreference => ?_⟩
  · rw [value?_setValue, value?_setValue, hm.value y hy]
  · rw [value?_setValue, if_neg hx.symm] at hu
    exact hm.literal u hu
  · rw [value?_setValue, if_neg]
    · exact hm.reference y n hn hreference
    · rintro rfl
      exact hkind n hn hreference

theorem setLiteral (hm : m.AgreesButLiteral h literal v m') :
    (m.setValue literal v).AgreesButLiteral h literal v m' := by
  refine ⟨hm.pushed, fun y hy => ?_, fun u hu => ?_, hm.reference⟩
  · rw [value?_setValue, if_neg hy, hm.value y hy]
  · rw [value?_setValue, if_pos rfl] at hu
    exact (Option.some.inj hu).symm

end Memory.AgreesButLiteral

namespace Graph

variable {g h : Graph} {m m' : Memory} {x y : NodeId} {n : Node} {l : Link} {v : Value} {k k' : Nat}

namespace FoldedLiteral

theorem refersTo (ha : g.FoldedLiteral h l v) (hpoints : RefersTo h x y) : RefersTo g x y := by
  obtain ⟨m, hm, hsource⟩ := bind_eq_ok.1 hpoints
  obtain ⟨n, hn, hnm⟩ := ha.node (node_eq_ok_iff.1 hm)
  refine bind_eq_ok.2 ⟨n, node_eq_ok_iff.2 hn, ?_⟩
  rw [hnm.kind]
  split at hsource
  next hkind =>
    obtain ⟨r, hr, hy⟩ := Option.map_eq_some_iff.1 (pure_eq_ok.1 hsource)
    rw [if_pos hkind, hnm.first?_of_valueIn? hr]
    exact congrArg (Except.ok ∘ some) hy
  next => cases hsource

theorem readWithin_literal (ha : g.FoldedLiteral h l v) (hm : m.AgreesButLiteral h l.tail.node v m') (k : Nat) :
    g.readWithin m (k + 1) l.tail.node = .ok v := by
  obtain ⟨n, hn, hkind, hvalue⟩ := ha.literal
  rw [readWithin, node?_eq_some_iff.2 hn]
  simp only [hkind]
  cases hlast : m.value? l.tail.node with
  | none => rw [Option.getD_none, hvalue]
  | some w => rw [Option.getD_some, hm.literal w hlast]

theorem readWithin_eq (ha : g.FoldedLiteral h l v) (hsameValues : g.SameValues h) (hr : Reachable h)
    (hm : m.AgreesButLiteral h l.tail.node v m') (hn : h.nodeAt? x = some n)
    (hends : h.readWithin m' k x ≠ .error (.fault .endless)) :
    g.readWithin m (k + 1) x = h.readWithin m' k x := by
  induction k generalizing x n with
  | zero => exact (hends rfl).elim
  | succ k ih =>
    obtain ⟨n', hn', hfoldedLiteral⟩ := ha.node hn
    have hx : x ≠ l.tail.node := by
      rintro rfl
      cases ha.gone.symm.trans hn
    have hvalue (hkind : n.kind ≠ .variableRef) : n'.value = n.value :=
      hsameValues x n' n hn' hn (hfoldedLiteral.kind ▸ hkind)
    rw [readWithin, node?_eq_some_iff.2 hn] at hends
    rw [readWithin, node?_eq_some_iff.2 hn', readWithin, node?_eq_some_iff.2 hn]
    simp only [hfoldedLiteral.kind] at hends ⊢
    cases hkind : n.kind with
    | «variable» => simp only [hm.pushed, hvalue (by rw [hkind]; exact nofun)]
    | variableRef =>
      simp only [hkind] at hends
      obtain ⟨slot, hslot⟩ := hr.hasLayouts.exists_valueIn hn hkind
      cases hfirst : slot.first? with
      | some r =>
        have hlinked : n.valueIn?.bind Slot.first? = some r := by rw [hslot, Option.bind_some, hfirst]
        obtain ⟨source, hsource⟩ := live_of_valueIn hr.hasLayouts hr.wellFormed.linksMatch hn hlinked
        simp only [hlinked, Option.map_some] at hends
        simp only [hlinked, hfoldedLiteral.first?_of_valueIn? hlinked, Option.map_some]
        exact ih hsource hends
      | none =>
        have hunlinked : n.valueIn?.bind Slot.first? = none := by rw [hslot, Option.bind_some, hfirst]
        have hfresh : (m'.value? x).getD n.value = n.value := by rw [hm.reference x n hn hkind, Option.getD_none]
        obtain ⟨hlinked, hsame⟩ | ⟨hunlinked', hsame⟩ := hfoldedLiteral.unlinked_valueIn hslot hfirst
        · simp only [hlinked, hunlinked, Option.map_some, Option.map_none]
          rw [hfresh, hsame]
          exact ha.readWithin_literal hm k
        · simp only [hunlinked', hunlinked, Option.map_none]
          rw [hm.value x hx, hfresh, hsame, hm.reference x n hn hkind, Option.getD_none]
    | _ => simp only [hm.value x hx, hvalue (by rw [hkind]; exact nofun)]

theorem read_eq (ha : g.FoldedLiteral h l v) (hsameValues : g.SameValues h) (hg : Reachable g) (hr : Reachable h)
    (hm : m.AgreesButLiteral h l.tail.node v m') (hn : h.nodeAt? x = some n) : g.read m x = h.read m' x := by
  obtain ⟨n', hn', -⟩ := ha.node hn
  by_cases hends : h.read m' x = .error (.fault .endless)
  · by_contra hne
    rw [hends] at hne
    have hacc : Acc (fun y x => RefersTo h x y) x := Subrelation.accessible ha.refersTo (acc_of_readWithin hne)
    exact read_of_acc hr.hasLayouts hr.wellFormed.linksMatch hn hacc hends
  · exact read_eq_of_readWithin hg.hasLayouts hg.wellFormed.linksMatch hn'
      (ha.readWithin_eq hsameValues hr hm hn hends) hends

end FoldedLiteral

end Graph

end FlowGraph
