import FlowGraph.Cached.Editing
import FlowGraph.Proofs.Company
import FlowGraph.Proofs.Levels

/-!
# Answers from memo tables

Tables are coherent with a graph if whatever they keep is what the graph gives. A computation with such tables gives
what the computation without tables gives, and leaves tables that are coherent again: so it is for neighbours, for
backbones and for leaves, whatever was asked before.
-/

namespace FlowGraph

variable {g g' : Graph} {id x : NodeId} {s t : ScopeId} {n : Node} {f : SlotFlags} {ids path : List NodeId}

namespace Memo

variable {m m' : Memo}

theorem neighbours?_keepNeighbours (x : NodeId) (f' : SlotFlags) : (m.keepNeighbours id f ids).neighbours? x f' =
    if x = id ∧ f' = f then some ids else m.neighbours? x f' := by
  rw [neighbours?, keepNeighbours, Std.ExtTreeMap.getElem?_insert, neighbours?]
  by_cases hx : x = id
  · subst hx
    rw [if_pos Std.compare_self, Option.bind_some, List.lookup_cons]
    by_cases hf : f' = f
    · simp [hf]
    · rw [if_neg fun h => hf h.2, beq_eq_false_iff_ne.2 hf]
      cases m.neighbours[x.raw]? <;> rfl
  · rw [if_neg fun h => hx (Handle.ext (Std.compare_eq_iff_eq.1 h).symm), if_neg fun h => hx h.1]

theorem neighbours?_erase (raw : Nat) (x : NodeId) (f : SlotFlags) :
    ((m.neighbours.erase raw)[x.raw]?.bind (·.lookup f)) = if x.raw = raw then none else m.neighbours? x f := by
  rw [Std.ExtTreeMap.getElem?_erase, neighbours?]
  by_cases hx : x.raw = raw
  · rw [if_pos hx, if_pos (Std.compare_eq_iff_eq.2 hx.symm), Option.bind_none]
  · rw [if_neg hx, if_neg fun h => hx (Std.compare_eq_iff_eq.1 h).symm]

theorem neighbours?_dropNeighbours (x : NodeId) (f : SlotFlags) :
    (m.dropNeighbours id).neighbours? x f = if x = id then none else m.neighbours? x f := by
  refine (neighbours?_erase id.raw x f).trans (if_congr ?_ rfl rfl)
  exact ⟨Handle.ext, congrArg Handle.raw⟩

theorem neighbours?_forget (raw : Nat) (x : NodeId) (f : SlotFlags) :
    (m.forget raw).neighbours? x f = if x.raw = raw then none else m.neighbours? x f := neighbours?_erase raw x f

theorem backbone?_keepBackbone (t : ScopeId) :
    (m.keepBackbone s path).backbone? t = if t = s then some path else m.backbone? t := by
  rw [backbone?, keepBackbone, Std.ExtTreeMap.getElem?_insert, backbone?]
  by_cases ht : t = s
  · rw [if_pos ht, if_pos (Std.compare_eq_iff_eq.2 (congrArg Handle.raw ht.symm))]
  · rw [if_neg ht, if_neg fun h => ht (Handle.ext (Std.compare_eq_iff_eq.1 h).symm)]

theorem backbone?_forget (raw : Nat) (t : ScopeId) :
    (m.forget raw).backbone? t = if t.raw = raw then none else m.backbone? t := by
  rw [backbone?, forget, Std.ExtTreeMap.getElem?_erase, backbone?]
  by_cases ht : t.raw = raw
  · rw [if_pos ht, if_pos (Std.compare_eq_iff_eq.2 ht.symm)]
  · rw [if_neg ht, if_neg fun h => ht (Std.compare_eq_iff_eq.1 h).symm]

@[simp]
theorem backbone?_dropBackbones (t : ScopeId) : m.dropBackbones.backbone? t = none := Std.ExtTreeMap.getElem?_empty

@[simp]
theorem neighbours?_empty : ({} : Memo).neighbours? x f = none := by
  rw [neighbours?, Std.ExtTreeMap.getElem?_empty, Option.bind_none]

@[simp]
theorem backbone?_empty : ({} : Memo).backbone? s = none := Std.ExtTreeMap.getElem?_empty

structure TablesFit (kept : Graph → ScopeId → List NodeId → Prop) (g : Graph) (m : Memo) : Prop where
  neighbours {x : NodeId} {f : SlotFlags} {ids : List NodeId} {n : Node} : m.neighbours? x f = some ids →
    g.nodeAt? x = some n → ids = n.adjacentNodes f
  backbone {s : ScopeId} {path : List NodeId} : m.backbone? s = some path → kept g s path

def Coherent : Graph → Memo → Prop := TablesFit fun g s path => g.backbone s = .ok path

def NoBackbones : Graph → Memo → Prop := TablesFit fun _ _ _ => False

def AnyBackbones : Graph → Memo → Prop := TablesFit fun _ _ _ => True

variable {kept kept' : Graph → ScopeId → List NodeId → Prop}

theorem TablesFit.anyBackbones (h : TablesFit kept g m) : AnyBackbones g m := ⟨h.neighbours, fun _ => trivial⟩

theorem NoBackbones.tablesFit (h : NoBackbones g m) : TablesFit kept g m :=
  ⟨h.neighbours, fun hs => (h.backbone hs).elim⟩

theorem tablesFit_empty : TablesFit kept g {} := by
  refine ⟨fun h => ?_, fun h => ?_⟩
  · rw [neighbours?_empty] at h
    cases h
  · rw [backbone?_empty] at h
    cases h

theorem TablesFit.linked (h : TablesFit kept g m)
    (hnodes : ∀ x f ids n', m'.neighbours? x f = some ids → g'.nodeAt? x = some n' →
      m.neighbours? x f = some ids ∧ ∃ n, g.nodeAt? x = some n ∧ n'.slots = n.slots)
    (hscopes : ∀ s path, m'.backbone? s = some path → kept' g' s path) : TablesFit kept' g' m' := by
  refine ⟨fun {x f ids n'} hx hn' => ?_, fun hs => hscopes _ _ hs⟩
  obtain ⟨hm, n, hn, hslots⟩ := hnodes x f ids n' hx hn'
  rw [h.neighbours hm hn]
  simp only [Node.adjacentNodes, Node.filterSlots, hslots]

theorem TablesFit.sameLinkage (h : TablesFit kept g m) (ht : Graph.SameLinkage g g')
    (hscopes : ∀ s path, m.backbone? s = some path → kept' g' s path) : TablesFit kept' g' m := by
  refine h.linked (fun x f ids n' hx hn' => ⟨hx, ?_⟩) hscopes
  obtain ⟨n, hn, -, hslots⟩ := ht.symm.node hn'
  exact ⟨n, hn, hslots.symm⟩

theorem AnyBackbones.sameLinkage (h : AnyBackbones g m) (ht : Graph.SameLinkage g g') : AnyBackbones g' m :=
  TablesFit.sameLinkage h ht fun _ _ _ => trivial

theorem NoBackbones.sameLinkage (h : NoBackbones g m) (ht : Graph.SameLinkage g g') : NoBackbones g' m :=
  TablesFit.sameLinkage h ht fun _ _ hs => h.backbone hs

theorem Coherent.keepBackbone (h : Coherent g m) (hpath : g.backbone s = .ok path) :
    Coherent g (m.keepBackbone s path) := by
  refine ⟨fun hx hn => h.neighbours hx hn, fun {t path'} ht => ?_⟩
  rw [backbone?_keepBackbone] at ht
  split at ht
  next heq =>
    subst heq
    cases ht
    exact hpath
  next => exact h.backbone ht

theorem TablesFit.dropBackbones (h : TablesFit kept g m) : NoBackbones g m.dropBackbones :=
  ⟨fun hx => h.neighbours hx, fun hs => nomatch (backbone?_dropBackbones _).symm.trans hs⟩

end Memo

namespace Cached

variable {α β : Type} {P : Memo → Prop} {Q : α → Memo → Prop} {R : β → Memo → Prop} {m : Memo} {late early : Prop}

inductive AgreesUpTo (late early : Prop) (Q : α → Memo → Prop) : Except Fault (α × Memo) → Except Fault α → Prop
  | ok {a : α} {m : Memo} : Q a m → AgreesUpTo late early Q (.ok (a, m)) (.ok a)
  | fault (e : Fault) : AgreesUpTo late early Q (.error e) (.error e)
  | late {x : Except Fault α} : late → AgreesUpTo late early Q (.error .endless) x
  | early {r : Except Fault (α × Memo)} : early → AgreesUpTo late early Q r (.error .endless)

abbrev Agrees (Q : α → Memo → Prop) : Except Fault (α × Memo) → Except Fault α → Prop := AgreesUpTo False False Q

namespace AgreesUpTo

variable {c : Cached α} {k : α → Cached β} {x : Except Fault α} {f : α → Except Fault β} {y : Except Fault β}

theorem mono {Q' : α → Memo → Prop} {r : Except Fault (α × Memo)} (h : AgreesUpTo late early Q r x)
    (hq : ∀ a m, x = .ok a → Q a m → Q' a m) : AgreesUpTo late early Q' r x := by
  cases h with
  | ok ha => exact .ok (hq _ _ rfl ha)
  | fault e => exact .fault e
  | late hlate => exact .late hlate
  | early hearly => exact .early hearly

theorem run'_eq (h : Agrees Q (c.run m) x) : c.run' m = x := by
  rw [StateT.run'_eq]
  generalize c.run m = r at h
  cases h with
  | ok => rfl
  | fault e => rfl
  | late hfalse => exact hfalse.elim
  | early hfalse => exact hfalse.elim

theorem bind (h : AgreesUpTo late early Q (c.run m) x)
    (hnext : ∀ a m', x = .ok a → Q a m' → AgreesUpTo late early R ((k a).run m') (f a)) :
    AgreesUpTo late early R ((c >>= k).run m) (x >>= f) := by
  rw [StateT.run_bind]
  generalize c.run m = r at h
  cases h with
  | ok ha => exact hnext _ _ rfl ha
  | fault e => exact .fault e
  | late hlate => exact .late hlate
  | early hearly => exact .early hearly

theorem both {r : Except Fault (α × Memo)} (h : AgreesUpTo True False Q r x) (h' : AgreesUpTo False True Q r x) :
    AgreesUpTo late early Q r x := by
  cases h with
  | ok ha => exact .ok ha
  | fault e => exact .fault e
  | early hfalse => exact hfalse.elim
  | late =>
    cases h' with
    | fault => exact .fault _
    | late hfalse => exact hfalse.elim
    | early => exact .fault _

theorem bind_left {a : α} (h : AgreesUpTo late early Q (c.run m) (.ok a))
    (hnext : ∀ m', Q a m' → AgreesUpTo late early R ((k a).run m') y) :
    AgreesUpTo late early R ((c >>= k).run m) y := by
  refine h.bind (f := fun _ => y) fun b m' hb ha => ?_
  cases hb
  exact hnext m' ha

theorem get_bind {k : Memo → Cached β} (h : AgreesUpTo late early R ((k m).run m) y) :
    AgreesUpTo late early R ((get >>= k).run m) y := h

theorem lift (h : ∀ a, x = .ok a → Q a m) : AgreesUpTo late early Q ((liftM x : Cached α).run m) x := by
  cases x with
  | error e => exact .fault e
  | ok a => exact .ok (h a rfl)

theorem lift_bind (hnext : ∀ a, x = .ok a → AgreesUpTo late early R ((k a).run m) (f a)) :
    AgreesUpTo late early R ((liftM x >>= k).run m) (x >>= f) := by
  cases x with
  | error e => exact .fault e
  | ok a => exact hnext a rfl

theorem mapM {c : α → Cached β} {f : α → Except Fault β}
    (h : ∀ a m, P m → AgreesUpTo late early (fun _ => P) ((c a).run m) (f a)) (as : List α) (hm : P m) :
    AgreesUpTo late early (fun _ => P) ((as.mapM c).run m) (as.mapM f) := by
  induction as generalizing m with
  | nil => exact .ok hm
  | cons a as ih =>
    rw [List.mapM_cons, List.mapM_cons]
    exact (h a m hm).bind fun b m' _ hm' => (ih hm').bind fun bs m'' _ hm'' => .ok hm''

theorem foldlM {c : β → α → Cached β} {f : β → α → Except Fault β} {b : β}
    (h : ∀ b a m, R b m → AgreesUpTo late early R ((c b a).run m) (f b a)) (as : List α) (hm : R b m) :
    AgreesUpTo late early R ((as.foldlM c b).run m) (as.foldlM f b) := by
  induction as generalizing b m with
  | nil => exact .ok hm
  | cons a as ih =>
    rw [List.foldlM_cons, List.foldlM_cons]
    exact (h b a m hm).bind fun b' m' _ hm' => ih hm'

end AgreesUpTo

variable {kept : Graph → ScopeId → List NodeId → Prop}

theorem neighbours_agreesUpTo (h : m.TablesFit kept g) (hn : g.nodeAt? id = some n) (f : SlotFlags) :
    AgreesUpTo late early (fun _ m' => m'.TablesFit kept g) ((neighbours id n f).run m) (.ok (n.adjacentNodes f)) := by
  rw [neighbours]
  refine .get_bind ?_
  cases hkept : m.neighbours? id f with
  | some ids =>
    rw [← h.neighbours hkept hn]
    exact .ok h
  | none =>
    refine .ok ⟨fun {x f' ids' n'} hx hn' => ?_, fun hs => h.backbone hs⟩
    rw [Memo.neighbours?_keepNeighbours] at hx
    split at hx
    next heq =>
      obtain ⟨rfl, rfl⟩ := heq
      cases hn.symm.trans hn'
      exact (Option.some.inj hx).symm
    next => exact h.neighbours hx hn'

theorem adjacentNodes_agreesUpTo (h : m.TablesFit kept g) (id : NodeId) (f : SlotFlags) :
    AgreesUpTo late early (fun _ m' => m'.TablesFit kept g) ((adjacentNodes g id f).run m)
      (do return (← g.node id).adjacentNodes f) :=
  .lift_bind fun _ hn => neighbours_agreesUpTo h (Graph.node_eq_ok_iff.1 hn) f

theorem companions_agreesUpTo (h : m.TablesFit kept g) (id : NodeId) :
    AgreesUpTo late early (fun _ m' => m'.TablesFit kept g) ((companions g id).run m) (g.companions id) := by
  refine .lift_bind fun n hn => ?_
  refine .bind_left (neighbours_agreesUpTo h (Graph.node_eq_ok_iff.1 hn) .input) fun m' hm' => ?_
  exact .lift_bind fun feeding _ => .ok hm'

section

variable {leaves : ScopeId → Cached (List NodeId)} {leaves' : ScopeId → Except Fault (List NodeId)}
variable
  (hleaves : ∀ t m, m.Coherent g → AgreesUpTo late early (fun _ m' => m'.Coherent g) ((leaves t).run m) (leaves' t))

include hleaves

theorem candidates_agreesUpTo (h : m.Coherent g) (id : NodeId) :
    AgreesUpTo late early (fun _ m' => m'.Coherent g) ((candidates g leaves id).run m) (g.candidates leaves' id) := by
  refine .lift_bind fun this hthis => ?_
  refine .bind_left (neighbours_agreesUpTo h (Graph.node_eq_ok_iff.1 hthis) .flowOut) fun m₁ h₁ => ?_
  rcases this.internalScope with _ | i
  on_goal 1 => refine .bind (Q := fun _ m' => m'.Coherent g) (.ok h₁) ?_
  on_goal 2 => refine (hleaves i m₁ h₁).bind ?_
  all_goals
    refine fun inner m₂ _ h₂ => ?_
    refine .bind (.mapM (fun leaf m₃ h₃ => adjacentNodes_agreesUpTo h₃ leaf .flowOut) inner h₂) ?_
    exact fun after m₃ _ h₃ => .ok h₃

theorem pathFrom_agreesUpTo (h : m.Coherent g) (k : Nat) (before : List NodeId) (id : NodeId) :
    AgreesUpTo late early (fun _ m' => m'.Coherent g) ((pathFrom g leaves s k before id).run m)
      (g.pathFrom leaves' s k before id) := by
  induction k generalizing m before id with
  | zero => exact .fault .endless
  | succ k ih =>
    rw [Graph.pathFrom_succ]
    refine (candidates_agreesUpTo hleaves h id).bind fun after m₁ _ h₁ => .lift_bind fun found _ => ?_
    cases found with
    | none => exact .ok h₁
    | some next => exact (ih h₁ (id :: before) next).bind fun path m₂ _ h₂ => .ok h₂

theorem pathWith_agreesUpTo (h : m.Coherent g) (s : ScopeId) :
    AgreesUpTo late early (fun _ m' => m'.Coherent g) ((pathWith g leaves s).run m) (g.pathWith leaves' s) := by
  rw [Graph.pathWith_eq]
  refine .lift_bind fun sc _ => ?_
  cases sc.head with
  | none => exact .ok h
  | some head => exact pathFrom_agreesUpTo hleaves h _ [] head

/-- A backbone that was kept is the path there would be now, so it does not matter whether it was. -/
theorem backboneWith_agreesUpTo (h : m.Coherent g)
    (hplain : g.threadWith g.leaves s = g.threadWith leaves' s ∨ early ∧ g.threadWith leaves' s = .error .endless) :
    AgreesUpTo late early (fun _ m' => m'.Coherent g) ((backboneWith g leaves s).run m) (g.pathWith leaves' s) := by
  rcases hplain with hplain | ⟨hearly, hendless⟩
  swap
  · rw [Graph.pathWith, hendless]
    exact .early hearly
  have hbackbone : g.backbone s = g.pathWith leaves' s := by
    rw [Graph.backbone_eq_pathWith, Graph.pathWith, hplain]
    rfl
  cases hsc : g.scope s with
  | error e =>
    rw [backboneWith, Graph.pathWith_eq, hsc]
    exact .fault e
  | ok sc =>
    rw [backboneWith, hsc]
    refine .bind_left (Q := fun _ m' => m' = m) (a := sc) (.ok rfl) ?_
    rintro m rfl
    refine .get_bind ?_
    cases hkept : m.backbone? s with
    | some path =>
      rw [← hbackbone, h.backbone hkept]
      exact .ok h
    | none =>
      rw [← bind_pure (g.pathWith leaves' s)]
      refine (pathWith_agreesUpTo hleaves h s).bind fun path m₁ hpath h₁ => ?_
      exact .ok (h₁.keepBackbone (hbackbone.trans hpath))

theorem leavesVia_agreesUpTo (h : m.Coherent g) (k : Nat)
    (hplain : g.threadWith g.leaves s = g.threadWith leaves' s ∨ early ∧ g.threadWith leaves' s = .error .endless)
    (hlevel : leaves = leavesWithin g k) :
    AgreesUpTo late early (fun _ m' => m'.Coherent g) ((leavesWithin g (k + 1) s).run m) (g.leavesVia leaves' s) := by
  subst hlevel
  rw [leavesWithin]
  refine .lift_bind fun sc hsc => ?_
  split
  next =>
    exact (AgreesUpTo.mapM (fun t m' h' => hleaves t m' h') _ h).bind fun inner m₁ _ h₁ => .ok h₁
  next =>
    rw [Graph.ends_of_pathWith]
    refine (backboneWith_agreesUpTo hleaves h hplain).bind fun path m₁ _ h₁ => ?_
    cases path.getLast? with
    | none => exact .ok h₁
    | some last =>
      refine .lift_bind fun n _ => ?_
      cases n.internalScope with
      | none => exact .ok h₁
      | some i => exact (hleaves i m₁ h₁).bind fun inner m₂ _ h₂ => .ok h₂

end

theorem leaves_agrees (h : m.Coherent g) (s : ScopeId) :
    Agrees (fun _ m' => m'.Coherent g) ((leaves g s).run m) (g.leaves s) := by
  have hlate (k : Nat) : ∀ t m, m.Coherent g →
      AgreesUpTo True False (fun _ m' => m'.Coherent g) ((leavesWithin g k t).run m) (g.leaves t) := by
    induction k with
    | zero => exact fun t m _ => .late trivial
    | succ k ih =>
      intro t m h
      rw [Graph.leaves_eq_leavesVia]
      exact leavesVia_agreesUpTo ih h k (.inl rfl) rfl
  have hearly (k : Nat) : ∀ t m, m.Coherent g →
      AgreesUpTo False True (fun _ m' => m'.Coherent g) ((leavesWithin g k t).run m) (g.leavesWithin k t) := by
    induction k with
    | zero => exact fun t m _ => .early trivial
    | succ k ih =>
      intro t m h
      refine leavesVia_agreesUpTo ih h k ?_ rfl
      exact (Graph.refines_threadWith fun u => Graph.refines_leaves).symm.imp_right fun hendless => ⟨trivial, hendless⟩
  exact (hlate g.walkBound s m h).both (hearly g.walkBound s m h)

theorem backbone_agrees (h : m.Coherent g) (s : ScopeId) :
    Agrees (fun _ m' => m'.Coherent g) ((backbone g s).run m) (g.backbone s) := by
  rw [Graph.backbone_eq_pathWith]
  exact backboneWith_agreesUpTo (fun t m' h' => leaves_agrees h' t) h (.inl rfl)

end Cached

end FlowGraph
