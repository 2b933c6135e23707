import FlowGraph.Proofs.Threads
import Mathlib.Data.Nat.Find

/-!
# Leaves with any number of levels

The walk to the leaves of a scope is granted as many levels as there are scopes. If any number of levels lets it
end, in leaves or in a fault, this one does, and it ends in the same way: a scope that takes one level more than all
others has one below it that takes one less, and so on down, and these are different scopes. So the leaves of a
scope are what its own definition makes of the leaves of the scopes below.
-/

namespace FlowGraph

def Refines {α : Type} (x y : Except Fault α) : Prop := x = .error .endless ∨ y = x

namespace Refines

variable {α β : Type} {x y z : Except Fault α}

theorem refl (x : Except Fault α) : Refines x x := .inr rfl

theorem trans (h : Refines x y) (h' : Refines y z) : Refines x z := by
  rcases h with hx | rfl
  · exact .inl hx
  · exact h'

theorem bind {f f' : α → Except Fault β} (h : Refines x y) (hf : ∀ a, Refines (f a) (f' a)) :
    Refines (x >>= f) (y >>= f') := by
  rcases h with rfl | rfl
  · exact .inl rfl
  · cases y with
    | error e => exact .refl _
    | ok a => exact hf a

theorem mapM {f f' : α → Except Fault β} (h : ∀ a, Refines (f a) (f' a)) (as : List α) :
    Refines (as.mapM f) (as.mapM f') := by
  induction as with
  | nil => exact .refl _
  | cons a as ih =>
    rw [List.mapM_cons, List.mapM_cons]
    exact (h a).bind fun b => ih.bind fun bs => .refl _

end Refines

namespace Graph

variable {g : Graph} {id : NodeId} {s t : ScopeId} {k k' : Nat}

def leavesVia (g : Graph) (leaves : ScopeId → Except Fault (List NodeId)) (s : ScopeId) :
    Except Fault (List NodeId) := do
  let scope ← g.scope s
  if scope.isPartitioned then return (← scope.partitions.mapM leaves).flatten
  return (← g.threadWith leaves s).ends

theorem leavesWithin_succ : g.leavesWithin (k + 1) s = g.leavesVia (g.leavesWithin k) s := rfl

section

variable {leaves leaves' : ScopeId → Except Fault (List NodeId)} (h : ∀ t, Refines (leaves t) (leaves' t))

include h

theorem refines_threadFrom {before : List NodeId} :
    Refines (g.threadFrom leaves s k before id) (g.threadFrom leaves' s k before id) := by
  induction k generalizing before id with
  | zero => exact .inl rfl
  | succ k ih =>
    refine .bind (.refl _) fun this => ?_
    rcases this.internalScope with _ | i
    on_goal 1 => refine .bind (.refl _) ?_
    on_goal 2 => refine (h i).bind ?_
    all_goals
      refine fun inner => .bind (.refl _) fun after => .bind (.refl _) fun found => ?_
      cases found with
      | none => exact .refl _
      | some next => exact ih.bind fun rest => .refl _

theorem refines_threadWith : Refines (g.threadWith leaves s) (g.threadWith leaves' s) := by
  refine .bind (.refl _) fun scope => ?_
  cases scope.head with
  | none => exact .refl _
  | some head => exact refines_threadFrom h

theorem refines_leavesVia : Refines (g.leavesVia leaves s) (g.leavesVia leaves' s) := by
  refine .bind (.refl _) fun scope => ?_
  split
  next => exact .bind (.mapM h _) fun inner => .refl _
  next => exact (refines_threadWith h).bind fun thread => .refl _

end

theorem refines_leavesWithin (h : k ≤ k') : Refines (g.leavesWithin k s) (g.leavesWithin k' s) := by
  have hsucc (k : Nat) : ∀ t, Refines (g.leavesWithin k t) (g.leavesWithin (k + 1) t) := by
    induction k with
    | zero => exact fun t => .inl rfl
    | succ k ih => exact fun t => refines_leavesVia ih
  induction h with
  | refl => exact .refl _
  | step _ ih => exact ih.trans (hsucc _ s)

def EndsWithin (g : Graph) (k : Nat) (s : ScopeId) : Prop := g.leavesWithin k s ≠ .error .endless

theorem EndsWithin.le (h : EndsWithin g k s) (hk : k ≤ k') : EndsWithin g k' s := by
  rcases refines_leavesWithin hk with hendless | heq
  · exact (h hendless).elim
  · exact fun hendless => h (heq.symm.trans hendless)

theorem exists_below (h : EndsWithin g (k + 2) s) (hless : ¬EndsWithin g (k + 1) s) :
    ∃ t, EndsWithin g (k + 1) t ∧ ¬EndsWithin g k t := by
  by_contra! hnone
  have hsame : ∀ t, Refines (g.leavesWithin (k + 1) t) (g.leavesWithin k t) := by
    intro t
    by_cases ht : EndsWithin g (k + 1) t
    · exact .inr ((refines_leavesWithin k.le_succ).resolve_left (hnone t ht)).symm
    · exact .inl (not_not.1 ht)
  rcases refines_leavesVia hsame (g := g) (s := s) with hendless | heq
  · exact h hendless
  · exact hless fun hendless => h (heq.symm.trans hendless)

theorem live_of_not_endsWithin (h : ¬EndsWithin g (k + 1) s) : ∃ sc, g.scopeAt? s = some sc := by
  by_contra! hnone
  refine h fun hendless => ?_
  rw [leavesWithin_succ, leavesVia, scope, scope?] at hendless
  cases hget : g.arena.get s with
  | error e =>
    rw [hget] at hendless
    cases hendless
  | ok found =>
    cases found with
    | none =>
      rw [hget] at hendless
      cases hendless
    | some sc => exact hnone sc (Arena.item?_of_get hget)

theorem exists_scopes (h : EndsWithin g (k + 1) s) (hless : ¬EndsWithin g k s) : ∃ ss : List ScopeId,
    ss.length = k ∧ ss.Nodup ∧ (∀ t ∈ ss, ∃ sc, g.scopeAt? t = some sc) ∧ ∀ t ∈ ss, EndsWithin g (k + 1) t := by
  induction k generalizing s with
  | zero => exact ⟨[], rfl, List.nodup_nil, nofun, nofun⟩
  | succ k ih =>
    obtain ⟨t, ht, hless'⟩ := exists_below h hless
    obtain ⟨ss, hlength, hnodup, hlive, hends⟩ := ih ht hless'
    refine ⟨s :: ss, by rw [List.length_cons, hlength],
      List.nodup_cons.2 ⟨fun hs => hless (hends s hs), hnodup⟩, ?_, ?_⟩
    · exact List.forall_mem_cons.2 ⟨live_of_not_endsWithin hless, hlive⟩
    · exact List.forall_mem_cons.2 ⟨h, fun u hu => (hends u hu).le (k + 1).le_succ⟩

theorem refines_leaves : Refines (g.leavesWithin k s) (g.leaves s) := by
  by_cases hends : ∃ k, EndsWithin g k s
  · classical
    -- the least number of levels, which is no more than there are
    obtain ⟨least, hleast⟩ : ∃ j, Nat.find hends = j + 1 :=
      Nat.exists_eq_succ_of_ne_zero fun hzero => Nat.find_spec hends (hzero ▸ rfl)
    have hspec : EndsWithin g (least + 1) s := hleast ▸ Nat.find_spec hends
    have hless : ¬EndsWithin g least s := Nat.find_min hends (hleast ▸ least.lt_succ_self)
    obtain ⟨ss, hlength, hnodup, hlive, -⟩ := exists_scopes hspec hless
    have hbound : least + 1 ≤ g.walkBound := hlength ▸ length_lt_walkBound hnodup hlive
    by_cases hk : EndsWithin g k s
    · have hle : least + 1 ≤ k := hleast ▸ Nat.find_min' hends hk
      rw [(refines_leavesWithin hle).resolve_left hspec]
      exact refines_leavesWithin hbound
    · exact .inl (not_not.1 hk)
  · exact .inl (not_not.1 (not_exists.1 hends k))

theorem leaves_eq_leavesVia : g.leaves s = g.leavesVia g.leaves s := by
  rcases refines_leaves (k := g.walkBound + 1) with hendless | heq
  · rcases refines_leavesWithin (g := g) (s := s) g.walkBound.le_succ with hendless' | heq
    · exact hendless'.trans hendless.symm
    · exact heq.symm
  · exact heq

def candidates (g : Graph) (leaves : ScopeId → Except Fault (List NodeId)) (id : NodeId) :
    Except Fault (List NodeId) := do
  let this ← g.node id
  let inner ← match this.internalScope with
    | some i => leaves i
    | none => pure []
  let after ← inner.mapM fun leaf => do return (← g.node leaf).flowOutputs
  return this.flowOutputs ++ after.flatten

def pathFrom (g : Graph) (leaves : ScopeId → Except Fault (List NodeId)) (s : ScopeId) (k : Nat)
    (before : List NodeId) (id : NodeId) : Except Fault (List NodeId) :=
  (·.path) <$> g.threadFrom leaves s k before id

variable {leaves : ScopeId → Except Fault (List NodeId)} {before : List NodeId} {thread : Thread}

theorem pathFrom_succ : g.pathFrom leaves s (k + 1) before id = (do
    match ← (← g.candidates leaves id).findM? (g.isNext s id before) with
    | some next => return id :: (← g.pathFrom leaves s k (id :: before) next)
    | none => return [id]) := by
  simp only [pathFrom, threadFrom, candidates, map_eq_pure_bind, bind_assoc]
  refine bind_congr fun this => ?_
  cases this.internalScope
  all_goals
    simp only [bind_assoc]
    refine bind_congr fun inner => bind_congr fun after => bind_congr fun found => ?_
    cases found with
    | none => rfl
    | some next => simp only [bind_assoc, pure_bind]

def pathWith (g : Graph) (leaves : ScopeId → Except Fault (List NodeId)) (s : ScopeId) : Except Fault (List NodeId) :=
  (·.path) <$> g.threadWith leaves s

theorem backbone_eq_pathWith : g.backbone s = g.pathWith g.leaves s := by rw [backbone, pathWith, map_eq_pure_bind]

theorem pathWith_eq : g.pathWith leaves s = (do
    match (← g.scope s).head with
    | none => return []
    | some head => g.pathFrom leaves s g.depthBound [] head) := by
  simp only [pathWith, threadWith, map_eq_pure_bind, bind_assoc]
  refine bind_congr fun sc => ?_
  cases sc.head with
  | none => rfl
  | some head => exact (map_eq_pure_bind _ _).symm

theorem ends_of_threadFrom (h : g.threadFrom leaves s k before id = .ok thread) : ∃ last n inner,
    thread.path.getLast? = some last ∧ g.nodeAt? last = some n ∧ n.internalScope.elim (.ok []) leaves = .ok inner ∧
      thread.ends = if inner.isEmpty then [last] else inner := by
  induction k generalizing before id thread with
  | zero => cases h
  | succ k ih =>
    obtain ⟨n, inner, after, hn, hinner, -, h⟩ := threadFrom_eq_ok_iff.1 h
    obtain ⟨found, -, h⟩ := bind_eq_ok.1 h
    cases found with
    | none =>
      cases h
      exact ⟨id, n, inner, rfl, hn, hinner, rfl⟩
    | some next =>
      obtain ⟨rest, hrest, h⟩ := bind_eq_ok.1 h
      cases h
      obtain ⟨last, n', inner', hlast, hends⟩ := ih hrest
      refine ⟨last, n', inner', ?_, hends⟩
      rw [List.getLast?_cons, hlast, Option.getD_some]

theorem ends_of_pathWith : (do return (← g.threadWith leaves s).ends) = (do
    match (← g.pathWith leaves s).getLast? with
    | none => return []
    | some last =>
      match (← g.node last).internalScope with
      | none => return [last]
      | some i =>
        let inner ← leaves i
        return if inner.isEmpty then [last] else inner) := by
  rw [pathWith]
  cases hthread : g.threadWith leaves s with
  | error e => rfl
  | ok thread =>
    obtain ⟨sc, -, hthread⟩ := bind_eq_ok.1 hthread
    cases hhead : sc.head with
    | none =>
      rw [hhead] at hthread
      cases hthread
      rfl
    | some head =>
      rw [hhead] at hthread
      obtain ⟨last, n, inner, hlast, hn, hinner, hends⟩ := ends_of_threadFrom hthread
      show Except.ok thread.ends = _
      simp only [map_eq_pure_bind, ok_bind, pure_bind, hlast, node_eq_ok_iff.2 hn, hends]
      cases hi : n.internalScope with
      | none =>
        rw [hi] at hinner
        cases hinner
        rfl
      | some i =>
        rw [hi, Option.elim_some] at hinner
        simp only [hinner]
        rfl

end Graph

end FlowGraph
