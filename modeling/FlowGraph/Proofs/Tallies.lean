import FlowGraph.Proofs.Course
import FlowGraph.Proofs.Readings

/-!
# Runs without a literal

A plan is run over the graph where a literal is linked, and the plan without the evaluations of the literal over the
graph where it is merged. State by state the two runs agree: variables have the same values, and so has the
accumulator, except for where the first run has just evaluated the literal.
-/

namespace FlowGraph

variable {h : Graph} {literal : NodeId} {v : Value} {a b c : Bool}

structure State.AgreesButLiteral (h : Graph) (literal : NodeId) (v : Value) (sure : Bool) (s s' : State) : Prop where
  memory : s.memory.AgreesButLiteral h literal v s'.memory
  accumulator : sure = true → s.registers.rax = s'.registers.rax

namespace State.AgreesButLiteral

variable {s s' : State}

theorem weaken (hs : s.AgreesButLiteral h literal v a s') (hle : b ≤ a) : s.AgreesButLiteral h literal v b s' :=
  ⟨hs.memory, fun hb => hs.accumulator (Bool.eq_true_of_true_le (hb ▸ hle))⟩

theorem start : State.AgreesButLiteral h literal v true {} {} := ⟨.start, fun _ => rfl⟩

end State.AgreesButLiteral

structure ResultAgrees {α : Type} (h : Graph) (literal : NodeId) (v : Value) (b : Bool) (r r' : Except Trap α × State) :
    Prop where
  result : r.1 = r'.1
  memory : r.2.memory.AgreesButLiteral h literal v r'.2.memory
  accumulator : ∀ w, r.1 = .ok w → b = true → r.2.registers.rax = r'.2.registers.rax

namespace ResultAgrees

variable {α : Type} {s s' : State}

theorem ok {w : α} (hs : s.AgreesButLiteral h literal v b s') : ResultAgrees h literal v b (.ok w, s) (.ok w, s') :=
  ⟨rfl, hs.memory, fun _ _ => hs.accumulator⟩

theorem error {t : Trap} (hs : s.memory.AgreesButLiteral h literal v s'.memory) :
    ResultAgrees (α := α) h literal v b (.error t, s) (.error t, s') :=
  ⟨rfl, hs, nofun⟩

theorem weaken {r r' : Except Trap α × State} (hr : ResultAgrees h literal v b r r') (hle : c ≤ b) :
    ResultAgrees h literal v c r r' :=
  ⟨hr.result, hr.memory, fun w hw hsure => hr.accumulator w hw (Bool.eq_true_of_true_le (hsure ▸ hle))⟩

end ResultAgrees

namespace Exec

variable {α β γ δ : Type}

def ResultsAgree (h : Graph) (literal : NodeId) (v : Value) (a b : Bool) (x y : Exec α) : Prop :=
  ∀ s s', s.AgreesButLiteral h literal v a s' → ResultAgrees h literal v b (x.apply s) (y.apply s')

namespace ResultsAgree

theorem pure (w : α) : ResultsAgree h literal v a a (Pure.pure w) (Pure.pure w) :=
  fun _ _ hs => .ok hs

theorem throw (t : Trap) : ResultsAgree h literal v a b (MonadExcept.throw t : Exec α) (MonadExcept.throw t) :=
  fun _ _ hs => .error hs.memory

theorem fail (e : MachineError) : ResultsAgree h literal v a b (Exec.fail e : Exec α) (Exec.fail e) := throw _

theorem lift {x y : Except Fault α} (hxy : x = y) : ResultsAgree h literal v a a (Exec.lift x) (Exec.lift y) := by
  subst hxy
  cases x with
  | error f => exact throw _
  | ok w => exact pure w

theorem bind {x y : Exec α} {f f' : α → Exec β} (hx : ResultsAgree h literal v a b x y)
    (hf : ∀ w, ResultsAgree h literal v b c (f w) (f' w)) : ResultsAgree h literal v a c (x >>= f) (y >>= f') := by
  intro s s' hs
  have hr := hx s s' hs
  rw [apply_bind, apply_bind]
  generalize x.apply s = r at hr
  generalize y.apply s' = r' at hr
  rcases r with ⟨t | w, s₁⟩ <;> rcases r' with ⟨t' | w', s₁'⟩ <;> cases hr.result
  · exact .error hr.memory
  · exact hf w s₁ s₁' ⟨hr.memory, hr.accumulator w rfl⟩

theorem get {f f' : State → Exec α}
    (hf : ∀ s s', s.AgreesButLiteral h literal v a s' → ResultsAgree h literal v a b (f s) (f' s')) :
    ResultsAgree h literal v a b (MonadState.get >>= f) (MonadState.get >>= f') :=
  fun s s' hs => hf s s' hs s s' hs

theorem modify {f f' : State → State}
    (hf : ∀ s s', s.AgreesButLiteral h literal v a s' → (f s).AgreesButLiteral h literal v b (f' s')) :
    ResultsAgree h literal v a b (modify f : Exec Unit) (modify f') :=
  fun s s' hs => .ok (hf s s' hs)

theorem modifyMemory {f f' : Memory → Memory}
    (hf : ∀ m m', m.AgreesButLiteral h literal v m' → (f m).AgreesButLiteral h literal v (f' m')) :
    ResultsAgree h literal v a a (Exec.modifyMemory f) (Exec.modifyMemory f') :=
  modify fun _ _ hs => ⟨hf _ _ hs.memory, hs.accumulator⟩

theorem write (word : Word) : ResultsAgree h literal v a true (Exec.write .rax word) (Exec.write .rax word) :=
  modify fun _ _ hs => ⟨hs.memory, fun _ => rfl⟩

theorem write_rdx (word : Word) : ResultsAgree h literal v a a (Exec.write .rdx word) (Exec.write .rdx word) :=
  modify fun _ _ hs => ⟨hs.memory, hs.accumulator⟩

theorem mapM {R : γ → δ → Prop} {f : γ → Exec α} {f' : δ → Exec α} {xs : List γ} {ys : List δ}
    (hxys : List.Forall₂ R xs ys) (hf : ∀ x y, R x y → y ∈ ys → ResultsAgree h literal v a a (f x) (f' y)) :
    ResultsAgree h literal v a a (xs.mapM f) (ys.mapM f') := by
  induction hxys with
  | nil => exact pure []
  | cons hxy _ ih =>
    rw [List.mapM_cons, List.mapM_cons]
    refine (hf _ _ hxy List.mem_cons_self).bind fun _ => ?_
    exact (ih fun x y hxy hy => hf x y hxy (List.mem_cons_of_mem _ hy)).bind fun _ => pure _

theorem forM {f f' : γ → Exec PUnit} {xs : List γ} (hf : ∀ x ∈ xs, ResultsAgree h literal v a a (f x) (f' x)) :
    ResultsAgree h literal v a a (xs.forM f) (xs.forM f') := by
  induction xs with
  | nil => exact pure ()
  | cons x xs ih =>
    exact (hf x List.mem_cons_self).bind fun _ => ih fun y hy => hf y (List.mem_cons_of_mem _ hy)

end ResultsAgree

end Exec

namespace Node.FoldedInput

variable {tail : SlotRef} {n m : Node}

theorem id (hnm : n.FoldedInput tail v m) : n.id = m.id := by
  have hframe := hnm.frame
  simp only [Node.frame, Node.mk.injEq] at hframe
  exact hframe.1

end Node.FoldedInput

namespace Graph

variable {g : Graph} {l : Link} {x : NodeId} {m : Node}

/-- A reference that the literal is linked to is passed on by reference, so that the literal is written to. -/
def Redirects (g : Graph) (l : Link) : Prop :=
  ∃ x n slot r m, g.node x = .ok n ∧ n.isInvokable = true ∧ slot ∈ n.filterSlots .input ∧ slot.first? = some r ∧
    (n.property slot.property).flags.isRef = true ∧ r.node = l.head.node ∧ g.node r.node = .ok m ∧ m.kind = .variableRef

theorem FoldedLiteral.targetVariable (ha : g.FoldedLiteral h l v) (hm : h.nodeAt? x = some m)
    (hdirect : x = l.head.node → m.kind ≠ .variableRef) : g.targetVariable x = h.targetVariable x := by
  obtain ⟨n, hn, hnm⟩ := ha.node hm
  simp only [Graph.targetVariable, referencedVariable, node_eq_ok_iff.2 hn, node_eq_ok_iff.2 hm, ok_bind, hnm.kind]
  split
  next => rfl
  next hkind =>
    have hx : x ≠ l.tail.node := by
      rintro rfl
      cases ha.gone.symm.trans hm
    have hsame := ha.other x hx fun heq => hdirect heq hkind
    rw [hn, hm] at hsame
    rw [Option.some.inj hsame]
  next => rfl

end Graph

namespace Exec

open FlowGraph.Graph

variable {g : Graph} {l : Link} {x : NodeId} {n m : Node}

theorem resultsAgree_assign (x : NodeId) (w : Value) : ResultsAgree h literal v a a (assign x w) (assign x w) := by
  refine ResultsAgree.get fun s s' hs => ?_
  rw [hs.memory.pushed]
  split
  next => exact (ResultsAgree.fail _).bind fun _ => .modifyMemory fun _ _ hm => hm.setVariable
  next => exact .modifyMemory fun _ _ hm => hm.setVariable

section

variable (ha : g.FoldedLiteral h l v) (hsameValues : g.SameValues h) (hg : Reachable g) (hr : Reachable h)

include ha hsameValues hg hr

theorem resultsAgree_read (hm : h.nodeAt? x = some m) : ResultsAgree h l.tail.node v a a (read g x) (read h x) := by
  refine ResultsAgree.get fun s s' hs => ?_
  rw [ha.read_eq hsameValues hg hr hs.memory hm]
  split
  next => exact .pure _
  next => exact .throw _

omit hsameValues hg hr in
theorem apply_read_literal {s s' : State} (hs : s.AgreesButLiteral h l.tail.node v a s') :
    (read g l.tail.node).apply s = (.ok v, s) := by
  have hliteral : g.read s.memory l.tail.node = .ok v := ha.readWithin_literal hs.memory _
  rw [apply_read, hliteral]

omit hsameValues hg hr in
theorem resultsAgree_read_literal : ResultsAgree h l.tail.node v a a (read g l.tail.node) (pure v) := by
  intro s s' hs
  rw [apply_read_literal ha hs]
  exact .ok hs

omit hsameValues hr in
theorem apply_evaluate_literal {s s' : State} (hs : s.AgreesButLiteral h l.tail.node v a s') :
    ∃ s₁, (evaluate g l.tail.node).apply s = (.ok (), s₁) ∧ s₁.memory = s.memory.setValue l.tail.node v ∧
      s₁.registers.rax = v.toWord := by
  obtain ⟨n, hn, hkind, -⟩ := ha.literal
  have hid : n.id = l.tail.node := hg.hasLayouts.id_eq hn
  unfold evaluate
  rw [node?_eq_some_iff.2 hn, apply_bind]
  change ∃ s₁, (valueFor g n >>= _).apply s = _ ∧ _
  have hvalue : (valueFor g n).apply s = (.ok v, { s with memory := s.memory.setValue l.tail.node v }) := by
    unfold valueFor
    rw [hkind, hid]
    dsimp only
    rw [apply_bind, apply_read_literal ha hs]
    rfl
  rw [apply_bind, hvalue]
  exact ⟨_, rfl, rfl, rfl⟩

variable (hdirect : ¬Redirects g l)

include hdirect

theorem resultsAgree_argument (hm : h.nodeAt? x = some m) (hn : g.nodeAt? x = some n) (hnm : n.FoldedInput l.tail v m)
    (hinvokable : m.isInvokable = true) {p q : Slot} (hfoldedSlot : Node.FoldedSlot l.tail v n m p q)
    (hq : q ∈ m.filterSlots .input) :
    ResultsAgree h l.tail.node v a a (argument g n p) (argument h m q) := by
  obtain ⟨hmem, hkind, hprimary⟩ := Node.mem_filterSlots_input.1 hq
  unfold argument
  cases hr' : q.first? with
  | some r =>
    obtain rfl := hfoldedSlot.of_first? hr'
    obtain ⟨source, hsource⟩ := live_of_first hr.hasLayouts hr.wellFormed.linksMatch hm hq hr'
    simp only [hr', hnm.flags]
    refine (resultsAgree_read ha hsameValues hg hr hsource).bind fun w => ?_
    split
    next hisRef =>
      refine (ResultsAgree.lift (ha.targetVariable hsource fun hhead hkind => hdirect ?_)).bind fun _ => .pure _
      obtain ⟨source', hsource', hfoldedInput⟩ := ha.node hsource
      exact ⟨x, n, p, r, source', node_eq_ok_iff.2 hn, by rwa [Node.isInvokable, hnm.kind],
        hnm.mem_filterSlots rfl hq hr',
        hr', by rwa [hnm.flags], hhead, node_eq_ok_iff.2 hsource', hfoldedInput.kind.trans hkind⟩
    next => exact .pure _
  | none =>
    obtain ⟨hfirst, hvalue⟩ | ⟨hfirst, hvalue⟩ := hfoldedSlot.of_first?_eq_none hkind hprimary hr'
    · simp only [hfirst, hvalue]
      obtain ⟨source, hsource, hliteral, -⟩ := ha.literal
      have hnone : g.targetVariable l.tail.node = .ok none :=
        bind_eq_ok.2 ⟨source, node_eq_ok_iff.2 hsource, by rw [hliteral]; rfl⟩
      have hrest (w : Value) : ResultsAgree h l.tail.node v a a (if (n.property p.property).flags.isRef = true
          then do return (w, ← lift (g.targetVariable l.tail.node)) else return (w, none)) (Pure.pure (w, none)) := by
        rw [hnone]
        split
        next => exact .pure _
        next => exact .pure _
      exact (resultsAgree_read_literal ha).bind hrest
    · simp only [hfirst, hvalue]
      exact .pure _

theorem resultsAgree_invoke (hm : h.nodeAt? x = some m) (hn : g.nodeAt? x = some n) (hnm : n.FoldedInput l.tail v m)
    (hinvokable : m.isInvokable = true) : ResultsAgree h l.tail.node v a a (invoke g n) (invoke h m) := by
  unfold invoke
  rw [hnm.signature, ha.library, hnm.id]
  split
  next => exact .fail _
  next f _ =>
    refine (ResultsAgree.mapM (hnm.filterSlots rfl) fun p q hfoldedSlot hq =>
      resultsAgree_argument ha hsameValues hg hr hdirect hm hn hnm hinvokable hfoldedSlot hq).bind fun arguments => ?_
    refine (ResultsAgree.lift rfl).bind fun result => ?_
    split
    next => exact .fail _
    next => exact (ResultsAgree.forM fun x _ => resultsAgree_assign x _).bind fun _ => .pure _

omit hdirect in
theorem resultsAgree_firstValue (hm : h.nodeAt? x = some m) (hn : g.nodeAt? x = some n) (hnm : n.FoldedInput l.tail v m)
    (hkind : m.kind = .variable) : ResultsAgree h l.tail.node v a a (firstValue g n) (firstValue h m) := by
  refine ResultsAgree.get fun s s' hs => ?_
  rw [hs.memory.pushed, hnm.id]
  split
  next => exact .fail _
  next => exact .pure _
  next =>
    have hassign (w : Value) : ResultsAgree h l.tail.node v a a (do assign m.id w; return w)
        (do assign m.id w; return w) :=
      (resultsAgree_assign m.id w).bind fun _ => .pure w
    have hown (hnone : m.valueIn?.bind Slot.first? = none) : n.valueIn?.bind Slot.first? = some l.tail ∧ m.value = v ∨
        n.valueIn?.bind Slot.first? = none ∧ n.value = m.value := by
      cases hslot : m.valueIn? with
      | some slot =>
        rw [hslot, Option.bind_some] at hnone
        exact hnm.unlinked_valueIn hslot hnone
      | none =>
        have hrel := hnm.valueIn?
        rw [hslot] at hrel
        cases hslot' : n.valueIn? with
        | none => exact .inr ⟨rfl, hsameValues x n m hn hm (by rw [hnm.kind, hkind]; exact nofun)⟩
        | some slot =>
          rw [hslot'] at hrel
          cases hrel
    cases hr' : m.valueIn?.bind Slot.first? with
    | some r =>
      obtain ⟨source, hsource⟩ := live_of_valueIn hr.hasLayouts hr.wellFormed.linksMatch hm hr'
      simp only [hnm.first?_of_valueIn? hr']
      exact (resultsAgree_read ha hsameValues hg hr hsource).bind hassign
    | none =>
      obtain ⟨hfirst, hvalue⟩ | ⟨hfirst, hvalue⟩ := hown hr'
      · simp only [hfirst, hvalue]
        exact (resultsAgree_read_literal ha).bind hassign
      · simp only [hfirst, hvalue]
        exact hassign m.value

theorem resultsAgree_valueFor (hm : h.nodeAt? x = some m) (hn : g.nodeAt? x = some n) (hnm : n.FoldedInput l.tail v m)
    (hkind : m.kind ≠ .variableRef) : ResultsAgree h l.tail.node v a a (valueFor g n) (valueFor h m) := by
  have hx : m.id = x := hr.hasLayouts.id_eq hm
  have hne : x ≠ l.tail.node := by
    rintro rfl
    cases ha.gone.symm.trans hm
  have hkeep {y y' : Exec Value} (hy : ResultsAgree h l.tail.node v a a y y') : ResultsAgree h l.tail.node v a a
      (do let w ← y; modifyMemory (·.setValue x w); return w)
        (do let w ← y'; modifyMemory (·.setValue x w); return w) := by
    refine hy.bind fun w => (ResultsAgree.modifyMemory fun _ _ hm' => hm'.setValue hne fun n' hn' => ?_).bind
      fun _ => .pure w
    cases hm.symm.trans hn'
    exact hkind
  unfold valueFor
  rw [hnm.kind, hnm.id, hx]
  split
  next hvar => exact resultsAgree_firstValue ha hsameValues hg hr hm hn hnm hvar
  next hfunction =>
    exact hkeep (resultsAgree_invoke ha hsameValues hg hr hdirect hm hn hnm (by rw [Node.isInvokable, hfunction]; rfl))
  next hoperator =>
    exact hkeep (resultsAgree_invoke ha hsameValues hg hr hdirect hm hn hnm (by rw [Node.isInvokable, hoperator]; rfl))
  next => exact hkeep (resultsAgree_read ha hsameValues hg hr hm)

theorem resultsAgree_evaluate (hm : h.nodeAt? x = some m) (hkind : m.kind ≠ .variableRef) :
    ResultsAgree h l.tail.node v a true (evaluate g x) (evaluate h x) := by
  obtain ⟨n, hn, hnm⟩ := ha.node hm
  unfold evaluate
  rw [node?_eq_some_iff.2 hn, node?_eq_some_iff.2 hm]
  refine (resultsAgree_valueFor ha hsameValues hg hr hdirect hm hn hnm hkind).bind fun w => ?_
  exact (ResultsAgree.write _).bind fun _ => .modify fun _ _ hs => ⟨hs.memory, hs.accumulator⟩

end

end Exec

namespace Course

variable {α β γ : Type}

def ResultsAgree (h : Graph) (literal : NodeId) (v : Value) (a b : Bool) (x y : Course α) : Prop :=
  ∀ s s', s.AgreesButLiteral h literal v a s' → Option.Rel (ResultAgrees h literal v b) (x.outcome s) (y.outcome s')

namespace ResultsAgree

variable {x y : Course α}

theorem ofExec {e e' : Exec α} (he : Exec.ResultsAgree h literal v a b e e') :
    ResultsAgree h literal v a b (Course.ofExec e) (Course.ofExec e') := by
  intro s s' hs
  rw [outcome_ofExec, outcome_ofExec]
  exact .some (he s s' hs)

theorem pure (w : α) : ResultsAgree h literal v a a (Pure.pure w) (Pure.pure w) := ofExec (.pure w)

theorem weaken {a' b' : Bool} (hx : ResultsAgree h literal v a b x y) (ha : a ≤ a') (hb : b' ≤ b) :
    ResultsAgree h literal v a' b' x y := by
  intro s s' hs
  have hr := hx s s' (hs.weaken ha)
  generalize x.outcome s = r at hr
  generalize y.outcome s' = r' at hr
  cases hr with
  | none => exact .none
  | some hr => exact .some (hr.weaken hb)

theorem bind {f f' : α → Course β} (hx : ResultsAgree h literal v a b x y)
    (hf : ∀ w, ResultsAgree h literal v b c (f w) (f' w)) : ResultsAgree h literal v a c (x >>= f) (y >>= f') := by
  intro s s' hs
  have hr := hx s s' hs
  rw [outcome_bind, outcome_bind]
  generalize x.outcome s = r at hr
  generalize y.outcome s' = r' at hr
  cases hr with
  | none => exact .none
  | @some r r' hr =>
    rcases r with ⟨t | w, s₁⟩ <;> rcases r' with ⟨t' | w', s₁'⟩ <;> cases hr.result
    · exact .some (.error hr.memory)
    · exact hf w s₁ s₁' ⟨hr.memory, hr.accumulator w rfl⟩

theorem forM {f f' : γ → Course PUnit} {xs : List γ} (hf : ∀ x ∈ xs, ResultsAgree h literal v a a (f x) (f' x)) :
    ResultsAgree h literal v a a (xs.forM f) (xs.forM f') := by
  induction xs with
  | nil => exact pure ()
  | cons x xs ih =>
    exact (hf x List.mem_cons_self).bind fun _ => ih fun y hy => hf y (List.mem_cons_of_mem _ hy)

theorem repeatWhile {test test' : Course Bool} {body body' : Course Unit}
    (htest : ResultsAgree h literal v a true test test')
    (hbody : ResultsAgree h literal v true a body body') (n : Nat) :
    ResultsAgree h literal v a true (Course.repeatWhile test body n) (Course.repeatWhile test' body' n) := by
  induction n with
  | zero => exact fun _ _ _ => .none
  | succ n ih =>
    refine htest.bind fun holds => ?_
    cases holds with
    | false => exact pure ()
    | true => exact hbody.bind fun _ => ih

theorem push (x : NodeId) : ResultsAgree h literal v a a (Course.push x) (Course.push x) :=
  ofExec (.modifyMemory fun _ _ hm => hm.push)

theorem pop (x : NodeId) : ResultsAgree h literal v a a (Course.pop x) (Course.pop x) := by
  refine ofExec (.get fun s s' hs => ?_)
  rw [hs.memory.pushed]
  split
  next => exact (Exec.ResultsAgree.fail _).bind fun _ => .modifyMemory fun _ _ hm => hm.pop
  next => exact .modifyMemory fun _ _ hm => hm.pop

theorem decision : ResultsAgree h literal v true true Course.decision Course.decision := by
  refine ofExec (.get fun s s' hs => ?_)
  rw [hs.accumulator rfl]
  exact (Exec.ResultsAgree.write_rdx _).bind fun _ => (Exec.ResultsAgree.write _).bind fun _ => .pure _

end ResultsAgree

end Course

section

open Course FlowGraph.Graph

variable {g : Graph} {l : Link} {rounds : Nat}
variable (ha : g.FoldedLiteral h l v) (hsameValues : g.SameValues h) (hg : Reachable g) (hr : Reachable h)

include ha

theorem resultsAgree_push {x : NodeId} (hx : h.contains x = true) :
    ResultsAgree h l.tail.node v a a (Plan.push g x) (Plan.push h x) := by
  obtain ⟨m, hm⟩ := Option.isSome_iff_exists.1 (contains_iff.1 hx)
  obtain ⟨n, hn, -⟩ := ha.node hm
  rw [Plan.push, Plan.push, if_pos hx, if_pos (contains_iff.2 (Option.isSome_of_mem hn))]
  exact .push x

theorem resultsAgree_pushAll {ds : List Declaration} (hds : ∀ d ∈ ds, h.contains d.node = true) :
    ResultsAgree h l.tail.node v a a (Plan.pushAll g ds) (Plan.pushAll h ds) :=
  .forM fun d hd => resultsAgree_push ha (hds d hd)

omit ha in
theorem resultsAgree_popAll (ds : List Declaration) : ResultsAgree h literal v a a (Plan.popAll ds) (Plan.popAll ds) :=
  .forM fun _ _ => .pop _

include hsameValues hg hr

theorem Plan.WithoutLiteral.resultsAgree {strict : Prop} (hstrict : strict) (hdirect : ¬Redirects g l) {p p' : Plan}
    (ht : p.WithoutLiteral h l.tail.node v strict a b p') :
    ResultsAgree h l.tail.node v a b (p.run g rounds) (p'.run h rounds) := by
  have hevaluate (name : String) : (Plan.seq .skip (.evaluate l.tail.node name)).run g rounds =
      ofExec (Exec.evaluate g l.tail.node) := pure_bind () fun _ => ofExec (Exec.evaluate g l.tail.node)
  induction ht with
  | skip => exact .pure ()
  | seq _ _ ihp ihq => exact ihp.bind fun _ => ihq
  | load hx =>
    obtain ⟨m, hm⟩ := Option.isSome_iff_exists.1 (contains_iff.1 hx)
    exact .ofExec ((Exec.resultsAgree_read ha hsameValues hg hr hm).bind fun _ => .write _)
  | evaluate hm hkind => exact .ofExec (Exec.resultsAgree_evaluate ha hsameValues hg hr hdirect hm hkind)
  | constant => exact .ofExec (.write _)
  | frame hds _ ih => exact (resultsAgree_pushAll ha hds).bind fun _ => ih.bind fun _ => resultsAgree_popAll _
  | loop hds _ _ _ _ ihstart ihtest ihbody ihstep =>
    refine (resultsAgree_pushAll ha hds).bind fun _ => ihstart.bind fun _ => ?_
    refine (ResultsAgree.repeatWhile (ihtest.bind fun _ => .decision)
      (ihbody.bind fun _ => ihstep) rounds).bind fun _ => ?_
    exact resultsAgree_popAll _
  | choice _ _ ihtest ihtrue =>
    refine ihtest.bind fun _ => ResultsAgree.decision.bind fun holds => ?_
    cases holds with
    | true => exact ihtrue
    | false => exact .pure ()
  | choiceElse _ _ _ ihtest ihtrue ihfalse =>
    refine ihtest.bind fun _ => ResultsAgree.decision.bind fun holds => ?_
    cases holds with
    | true => exact ihtrue
    | false => exact ihfalse
  | operand =>
    intro s s' hs
    obtain ⟨s₁, hs₁, hmemory, -⟩ := Exec.apply_evaluate_literal ha hg hs
    rw [hevaluate, outcome_ofExec, hs₁]
    exact .some (.ok ⟨hmemory ▸ hs.memory.setLiteral, nofun⟩)
  | condition =>
    intro s s' hs
    obtain ⟨s₁, hs₁, hmemory, hrax⟩ := Exec.apply_evaluate_literal ha hg hs
    rw [hevaluate, outcome_ofExec, hs₁]
    exact .some (.ok ⟨hmemory ▸ hs.memory.setLiteral, fun _ => hrax⟩)
  | weaken hle _ ih => exact ih.weaken (hle hstrict).1 (hle hstrict).2

theorem Program.WithoutLiteral.resultsAgree {strict : Prop} (hstrict : strict) (hdirect : ¬Redirects g l)
    {p p' : Program} (ht : p.WithoutLiteral h l.tail.node v strict p') (insertReturn : Bool) :
    ResultsAgree h l.tail.node v true true (p.run g rounds insertReturn) (p'.run h rounds insertReturn) := by
  unfold Program.run
  rw [ht.frame]
  refine (resultsAgree_pushAll ha ht.live).bind fun _ => ?_
  refine (ht.body.resultsAgree ha hsameValues hg hr hstrict hdirect).bind fun _ => ?_
  cases insertReturn with
  | true => exact .pure ()
  | false => exact resultsAgree_popAll _

end

end FlowGraph
