import FlowGraph.Proofs.Cached.Coherence

/-!
# Sessions with memo tables

A session edits a program and asks it questions, in any order. It may also found a new program over the arena of the
old one, whose items keep their tables. The answers are those that are computed anew, without any table, so it does
not matter what was asked before.
-/

namespace FlowGraph

inductive Query
  | neighbours (id : NodeId) (f : SlotFlags)
  | successor (id : NodeId)
  | leaves (s : ScopeId)
  | backbone (s : ScopeId)

inductive Turn
  | edit (e : Edit)
  | query (q : Query)
  /-- A new program takes over the arena. -/
  | found (library : Library) (config : Config)
  /-- Others take identifiers from the supply. -/
  | issue (ids : IdSupply)

namespace Graph

def ask (g : Graph) : Query → Except Fault (List NodeId)
  | .neighbours id f => do return (← g.node id).adjacentNodes f
  | .successor id => do return (← g.node id).successor?.toList
  | .leaves s => g.leaves s
  | .backbone s => g.backbone s

/-- The program after a session and the answers it gave, where `ask` tells the answers. -/
def session (ask : Graph → Query → Except Fault (List NodeId)) (g : Graph) :
    List Turn → Except Fault (Graph × List (List NodeId))
  | [] => return (g, [])
  | .edit e :: rest => do session ask (← g.perform e) rest
  | .query q :: rest => do
    let answer ← ask g q
    let (g, answers) ← session ask g rest
    return (g, answer :: answers)
  | .found library config :: rest => do session ask (← create g.arena g.ids library config) rest
  | .issue ids :: rest => session ask { g with ids } rest

end Graph

namespace Cached

def perform (g : Graph) : Edit → Cached Graph
  | .node kind s => do return (← createNode g kind s).2
  | .emptyInstruction s => do return (← createEmptyInstruction g s).2
  | .literal value s => do return (← createLiteral g value s).2
  | .declaration type name s => do return (← createVariable g type name s).2
  | .reference source s => do return (← createReference g source s).1
  | .function signature s => do return (← createInvokable g .function signature s).2
  | .operator signature s => do return (← createInvokable g .operator signature s).2
  | .conditional c s => do return (← createConditional g c s).2
  | .setValue id value => g.setValue id value
  | .setPropertyValue id name value => do return (← g.setPropertyValue id name value).2
  | .connect a b sideEffects => do return (← connect g a b sideEffects).1
  | .connectOrMerge output input => do return (← connectOrMerge g output input).1
  | .disconnect link sideEffects => do return (← disconnect g link sideEffects).1
  | .append id s => do return (← appendToScope g id s).1
  | .remove id => do return (← removeFromScope g id).1
  | .changeScope id s => do return (← changeScope g id s).1
  | .transfer source target => do return (← transferChildren g source target).1
  | .resetHead s => resetHead g s
  | .destroy id sideEffects => destroy g id sideEffects
  | .reset => reset g
  | .drainEvents => return g.drainEvents.2

def ask (g : Graph) : Query → Cached (List NodeId)
  | .neighbours id f => adjacentNodes g id f
  | .successor id => do return (← g.node id).successor?.toList
  | .leaves s => leaves g s
  | .backbone s => backbone g s

/-- The answer with all tables empty. -/
def askAnew (g : Graph) (q : Query) : Except Fault (List NodeId) := (ask g q).run' {}

/-- The program after a session and the answers it gave, from its tables where it could. -/
def session (g : Graph) : List Turn → Cached (Graph × List (List NodeId))
  | [] => return (g, [])
  | .edit e :: rest => do session (← perform g e) rest
  | .query q :: rest => do
    let answer ← ask g q
    let (g, answers) ← session g rest
    return (g, answer :: answers)
  | .found library config :: rest => do session (← create g.arena g.ids library config) rest
  | .issue ids :: rest => session { g with ids } rest

open Memo (TablesFit NoBackbones AnyBackbones Coherent)

variable {g g' : Graph} {m : Memo}

theorem coherent_of_arena (h : Coherent g m) (harena : g'.arena = g.arena) : Coherent g' m := by
  have hnode (x : NodeId) : g'.nodeAt? x = g.nodeAt? x := congrArg (Arena.item? · x) harena
  have hscope (s : ScopeId) : g'.scopeAt? s = g.scopeAt? s := congrArg (Arena.item? · s) harena
  refine TablesFit.sameLinkage h (fun x => by rw [hnode]) fun s path hs => Graph.SamePathData.backbone ?_ s path
    (h.backbone hs)
  exact ⟨fun {x n} hn => ⟨n, (hnode x).trans hn, rfl, rfl, rfl⟩, fun {s sc} hsc => ⟨sc, (hscope s).trans hsc, rfl, rfl⟩⟩

theorem perform_agrees (h : Coherent g m) (e : Edit) : Agrees Coherent ((perform g e).run m) (g.perform e) := by
  have hmade {build : NodeId → Node} {partitions : Option Nat} {s : ScopeId} : Agrees Coherent
      ((do return (← spawn g build partitions (some s)).2 : Cached Graph).run m)
      (do return (← g.spawn build partitions (some s)).2) :=
    (spawn_into_agrees h.anyBackbones build partitions s).bind fun r m₁ _ h₁ => .ok h₁.tablesFit
  cases e with
  | node kind s => exact (createNode_agrees h kind s).bind fun r m₁ _ h₁ => .ok h₁
  | emptyInstruction s | literal value s | declaration type name s | conditional c s => exact hmade
  | function signature s | operator signature s =>
    exact (createInvokable_agrees h.anyBackbones _ signature s).bind fun r m₁ _ h₁ => .ok h₁.tablesFit
  | reference source s => exact (createReference_agrees h source s).bind fun r m₁ _ h₁ => .ok h₁
  | setValue id value =>
    refine .lift fun g₁ hset => ?_
    rw [Graph.setValue_eq hset]
    exact coherent_modifyProperty h 0 _
  | setPropertyValue id name value =>
    refine .lift_bind fun ⟨found, g₁⟩ hset => .ok ?_
    rcases Graph.setPropertyValue_eq hset with rfl | ⟨i, rfl⟩
    · exact h
    · exact coherent_modifyProperty h i _
  | connect a b sideEffects => exact (connect_agrees h a b sideEffects).bind fun r m₁ _ h₁ => .ok h₁
  | connectOrMerge output input => exact (connectOrMerge_agrees h output input).bind fun r m₁ _ h₁ => .ok h₁
  | disconnect link sideEffects => exact (disconnect_agrees h link sideEffects).bind fun r m₁ _ h₁ => .ok h₁
  | append id s => exact (appendToScope_agrees h id s).bind fun r m₁ _ h₁ => .ok h₁
  | remove id => exact (removeFromScope_agrees h id).bind fun r m₁ _ h₁ => .ok h₁
  | changeScope id s => exact (changeScope_agrees h id s).bind fun r m₁ _ h₁ => .ok h₁
  | transfer source target => exact (transferChildren_agrees h source target).bind fun r m₁ _ h₁ => .ok h₁
  | resetHead s => exact (resetHead_agrees h.anyBackbones s).mono fun _ _ _ h₁ => h₁.tablesFit
  | destroy id sideEffects => exact destroy_agrees h id sideEffects
  | reset => exact (reset_agrees h).mono fun _ _ _ h₁ => h₁.tablesFit
  | drainEvents => exact .ok (coherent_of_arena h rfl)

theorem ask_agrees (h : Coherent g m) (q : Query) :
    Agrees (fun _ m' => Coherent g m') ((ask g q).run m) (g.ask q) := by
  cases q with
  | neighbours id f => exact adjacentNodes_agreesUpTo h id f
  | successor id => exact .lift_bind fun _ _ => .ok h
  | leaves s => exact leaves_agrees h s
  | backbone s => exact backbone_agrees h s

theorem samePathData_create {library : Library} {config : Config}
    (h : Graph.create g.arena g.ids library config = .ok g') : Graph.SamePathData g' g := by
  rw [Graph.create] at h
  split at h
  next => cases h
  next =>
    simp only [Graph.spawnEntryPoint, bind_eq_ok, pure_eq_ok] at h
    obtain ⟨⟨id, g₁⟩, hspawn, rfl⟩ := h
    obtain ⟨n, ps, g₂, hnew, -, ⟨-, rfl⟩ | ⟨_, ⟨⟩, -⟩⟩ :=
        Graph.spawn_addsUnplaced (Node.buildsUnlinked_entryPoint _) hspawn
    constructor
    · intro x m hm
      have hx : x ≠ id := by
        rintro rfl
        cases hnew.fresh.symm.trans hm
      exact ⟨m, ((hnew.nodeAt? x).trans (if_neg hx)).trans hm, rfl, rfl, rfl⟩
    · intro s sc hsc
      have hold (hin : n.internalScope = some s ∨ s ∈ ps) : False := by
        cases (hnew.fresh_scope s hin).1.symm.trans hsc
      exact ⟨sc, (hnew.others s (fun hi => hold (.inl hi)) fun hp => hold (.inr hp)).trans hsc, rfl, rfl⟩

theorem create_agrees (h : Coherent g m) (library : Library) (config : Config) :
    Agrees Coherent ((create g.arena g.ids library config).run m) (Graph.create g.arena g.ids library config) := by
  have hpaths : Agrees (TablesFit fun _ s path => g.backbone s = .ok path) ((create g.arena g.ids library config).run m)
      (Graph.create g.arena g.ids library config) := by
    rw [create, Graph.create]
    split
    next => exact .fault _
    next => exact spawnEntryPoint_agrees (TablesFit.sameLinkage h (fun _ => rfl) fun _ _ hs => h.backbone hs)
  refine hpaths.mono fun g₁ m₁ hcreate h₁ => ?_
  exact ⟨h₁.neighbours, fun hs => (samePathData_create hcreate).backbone _ _ (h₁.backbone hs)⟩

theorem session_agrees (h : Coherent g m) (turns : List Turn) :
    Agrees (fun r m' => Coherent r.1 m') ((session g turns).run m) (g.session Graph.ask turns) := by
  induction turns generalizing g m with
  | nil => exact .ok h
  | cons turn rest ih =>
    cases turn with
    | edit e => exact (perform_agrees h e).bind fun g₁ m₁ _ h₁ => ih h₁
    | query q => exact (ask_agrees h q).bind fun answer m₁ _ h₁ => (ih h₁).bind fun r m₂ _ h₂ => .ok h₂
    | found library config => exact (create_agrees h library config).bind fun g₁ m₁ _ h₁ => ih h₁
    | issue ids => exact ih (coherent_of_arena h rfl)

theorem askAnew_eq : askAnew = Graph.ask := by
  funext g q
  exact (ask_agrees Memo.tablesFit_empty q).run'_eq

/-- A session gives the answers that are computed anew, with empty tables or with none at all, and makes the same of
the program. -/
theorem session_anew (g : Graph) (turns : List Turn) : (session g turns).run' {} = g.session askAnew turns ∧
    (session g turns).run' {} = g.session Graph.ask turns := by
  have hplain : (session g turns).run' {} = g.session Graph.ask turns :=
    (session_agrees Memo.tablesFit_empty turns).run'_eq
  exact ⟨by rw [askAnew_eq, hplain], hplain⟩

end Cached

end FlowGraph
