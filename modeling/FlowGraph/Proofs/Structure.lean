import FlowGraph.Proofs.Course
import FlowGraph.Proofs.View

/-!
# Plans and courses

Running the outline of a graph is running the graph. Each level of the outline is compared with the same
level of the walk, given that they agree about the nodes one level down.
-/

namespace FlowGraph

open Course

@[simp]
theorem Course.ofRead_ok {α : Type} (a : α) : ofRead (.ok a) = pure a := rfl

namespace Graph

variable {g : Graph} {rounds : Nat} {planNode : NodeId → Except Fault Plan} {runNode : NodeId → Course Unit}

theorem contains_of_node {id : NodeId} {n : Node} (h : g.node id = .ok n) : g.contains id = true := by
  rw [contains_iff, node_eq_ok_iff.1 h]
  rfl

theorem nodes_of_declarations {vs : List NodeId} {ds : List Declaration} (h : g.declarations vs = .ok ds) :
    ds.map (·.node) = vs ∧ ∀ v ∈ vs, g.contains v = true := by
  rw [declarations, mapM_eq_ok_iff] at h
  induction h with
  | nil => simp
  | @cons v d vs ds hv _ ih =>
    simp only [bind_eq_ok, pure_eq_ok] at hv
    obtain ⟨n, hn, rfl⟩ := hv
    obtain ⟨hmap, hlive⟩ := ih
    refine ⟨by rw [List.map_cons, hmap], ?_⟩
    intro v' hv'
    rcases List.mem_cons.1 hv' with rfl | hv'
    · exact contains_of_node hn
    · exact hlive v' hv'

theorem pushAll_declarations {vs : List NodeId} {ds : List Declaration} (h : g.declarations vs = .ok ds) :
    Plan.pushAll g ds = vs.forM push := by
  obtain ⟨rfl, hlive⟩ := nodes_of_declarations h
  rw [Plan.pushAll, List.forM_eq_forM, List.forM_eq_forM, List.forM_map]
  clear h
  induction ds with
  | nil => rfl
  | cons d ds ih =>
    have hd : Plan.push g d.node = push d.node := by
      rw [Plan.push, if_pos (hlive d.node (by simp))]
    rw [List.forM_cons, List.forM_cons, hd, ih]
    intro v hv
    exact hlive v (by simpa using Or.inr (by simpa using hv))

theorem popAll_declarations {vs : List NodeId} {ds : List Declaration} (h : g.declarations vs = .ok ds) :
    Plan.popAll ds = vs.reverse.forM pop := by
  obtain ⟨rfl, -⟩ := nodes_of_declarations h
  rw [Plan.popAll, ← List.map_reverse]
  simp only [List.forM_eq_forM, List.forM_map]

theorem run_sequence {α : Type} {plan : α → Except Fault Plan} {run : α → Course Unit} {as : List α}
    {plans : List Plan} (agree : ∀ a p, plan a = .ok p → run a = p.run g rounds)
    (h : as.mapM plan = .ok plans) : (Plan.sequence plans).run g rounds = as.forM run := by
  rw [mapM_eq_ok_iff] at h
  induction h with
  | nil => rfl
  | cons hp _ ih =>
    rw [Plan.sequence, Plan.run, ih, ← agree _ _ hp]
    rfl

section Level

variable (agree : ∀ id p, planNode id = .ok p → runNode id = p.run g rounds)

include agree

theorem runScope_eq {s : ScopeId} {p : Program} (h : g.outlineScope planNode s = .ok p) (leave : Bool) :
    g.runScope runNode leave s = p.run g rounds (!leave) := by
  simp only [outlineScope, bind_eq_ok, pure_eq_ok] at h
  obtain ⟨scope, hscope, owner, -, ds, hds, ids, hids, plans, hplans, rfl⟩ := h
  simp only [runScope, hscope, hids, ofRead_ok, pure_bind, Program.run, pushAll_declarations hds,
    popAll_declarations hds, run_sequence agree hplans, Bool.not_not]

theorem runBlock_eq {s : ScopeId} {p : Plan} (h : g.outlineBlock planNode s = .ok p) :
    g.runScope runNode true s = p.run g rounds := by
  simp only [outlineBlock, bind_eq_ok, pure_eq_ok] at h
  obtain ⟨q, hq, rfl⟩ := h
  rw [runScope_eq agree hq]
  rfl

theorem runTrueSide_eq {n : Node} {p : Plan} (h : g.outlineTrueSide planNode n = .ok p) :
    g.runSide runNode n .onTrue = p.run g rounds := by
  simp only [outlineTrueSide, bind_eq_ok] at h
  obtain ⟨side, hside, h⟩ := h
  simp only [runSide, hside, ofRead_ok, pure_bind]
  cases side with
  | none =>
    obtain rfl := pure_eq_ok.1 h
    rfl
  | some s => exact runBlock_eq agree h

theorem runInput_eq {n : Node} {slot : Option SlotId} {p : Plan}
    (h : outlineInput planNode n slot = .ok p) : runInput runNode n slot = p.run g rounds := by
  unfold outlineInput at h
  unfold runInput
  cases hsource : (slot.bind n.slot?).bind Slot.first? with
  | none =>
    rw [hsource] at h
    obtain rfl := pure_eq_ok.1 h
    rfl
  | some source =>
    rw [hsource] at h
    exact agree _ _ h

theorem runCondition_eq {n : Node} {b : Branch} {p : Plan}
    (h : g.outlineCondition planNode n b = .ok p) :
    g.runCondition runNode n b = (do p.run g rounds; decision) := by
  cases hsource : (n.slot? b.condition).bind Slot.first? with
  | none =>
    simp only [outlineCondition, hsource] at h
    obtain rfl := pure_eq_ok.1 h
    simp only [runCondition, hsource]
    rfl
  | some source =>
    simp only [outlineCondition, hsource] at h
    obtain ⟨reads, hreads, h⟩ := bind_eq_ok.1 h
    simp only [runCondition, hsource, hreads, ofRead_ok, pure_bind]
    split at h
    next hlike =>
      obtain rfl := pure_eq_ok.1 h
      rw [if_pos hlike]
      rfl
    next hlike =>
      rw [if_neg hlike, agree _ _ h]

theorem runWhile_eq {n : Node} {b : Branch} {p : Plan} (h : g.outlineWhile planNode n b = .ok p) :
    g.runWhile rounds runNode n b = p.run g rounds := by
  simp only [outlineWhile, bind_eq_ok, pure_eq_ok] at h
  obtain ⟨test, htest, body, hbody, rfl⟩ := h
  rw [runWhile, runCondition_eq agree htest, runTrueSide_eq agree hbody]
  simp [Plan.run, Plan.pushAll, Plan.popAll]

theorem runFor_eq {n : Node} {b : Branch} {p : Plan} (h : g.outlineFor planNode n b = .ok p) :
    g.runFor rounds runNode n b = p.run g rounds := by
  cases hn : n.internalScope with
  | none =>
    simp only [outlineFor, hn, pure_bind, bind_eq_ok, pure_eq_ok] at h
    obtain ⟨start, hstart, test, htest, body, hbody, step, hstep, rfl⟩ := h
    simp only [runFor, hn, pure_bind, runInput_eq agree hstart, runCondition_eq agree htest,
      runTrueSide_eq agree hbody, runInput_eq agree hstep]
    rfl
  | some s =>
    simp only [outlineFor, hn, bind_eq_ok, pure_eq_ok] at h
    obtain ⟨scope, hscope, locals, hlocals, start, hstart, test, htest, body, hbody, step, hstep, rfl⟩ := h
    simp only [runFor, hn, hscope, ofRead_ok, pure_bind, runInput_eq agree hstart,
      runCondition_eq agree htest, runTrueSide_eq agree hbody, runInput_eq agree hstep, Plan.run,
      pushAll_declarations hlocals, popAll_declarations hlocals]

theorem runIf_eq {n : Node} {b : Branch} {p : Plan} (h : g.outlineIf planNode n b = .ok p) :
    g.runIf runNode n b = p.run g rounds := by
  simp only [outlineIf, bind_eq_ok] at h
  obtain ⟨test, htest, onTrue, htrue, side, hside, h⟩ := h
  simp only [runIf, runCondition_eq agree htest, runTrueSide_eq agree htrue, hside, ofRead_ok, pure_bind,
    bind_assoc]
  cases side with
  | none =>
    obtain rfl := pure_eq_ok.1 h
    rfl
  | some s =>
    simp only [bind_eq_ok] at h
    obtain ⟨path, hpath, h⟩ := h
    simp only [hpath, ofRead_ok, pure_bind]
    rcases path with _ | ⟨only, _ | ⟨second, rest⟩⟩
    · obtain rfl := pure_eq_ok.1 h
      rfl
    · simp only [bind_eq_ok] at h
      obtain ⟨inner, hinner, h⟩ := h
      simp only [hinner, ofRead_ok, pure_bind]
      split at h
      next hkind =>
        simp only [bind_eq_ok, pure_eq_ok] at h
        obtain ⟨onFalse, hfalse, rfl⟩ := h
        simp only [if_pos hkind, agree _ _ hfalse, Plan.run]
      next hkind =>
        simp only [bind_eq_ok, pure_eq_ok] at h
        obtain ⟨onFalse, hfalse, rfl⟩ := h
        simp only [if_neg hkind, runBlock_eq agree hfalse, Plan.run]
    · simp only [bind_eq_ok, pure_eq_ok] at h
      obtain ⟨onFalse, hfalse, rfl⟩ := h
      simp only [Plan.run, runBlock_eq agree hfalse]

theorem runOperand_eq {slot : Slot} {p : Plan} (h : g.outlineOperand planNode slot = .ok p) :
    g.runOperand runNode slot = p.run g rounds := by
  simp only [outlineOperand] at h
  simp only [runOperand]
  cases hsource : slot.first? with
  | none =>
    rw [hsource] at h
    obtain rfl := pure_eq_ok.1 h
    rfl
  | some source =>
    simp only [hsource, bind_eq_ok] at h
    obtain ⟨n, hn, h⟩ := h
    simp only [hn, ofRead_ok, pure_bind]
    split at h
    next hlike =>
      obtain rfl := pure_eq_ok.1 h
      rw [if_pos hlike]
      rfl
    next hlike => rw [if_neg hlike, agree _ _ h]

theorem runSimple_eq {id : NodeId} {n : Node} {p : Plan} (h : g.outlineSimple planNode id n = .ok p) :
    g.runSimple runNode id n = p.run g rounds := by
  simp only [outlineSimple, bind_eq_ok, pure_eq_ok] at h
  obtain ⟨operands, hoperands, rfl⟩ := h
  rw [runSimple, Plan.run, run_sequence (fun _ _ => runOperand_eq agree) hoperands]
  split
  next hevaluated => rfl
  next => rfl

end Level

theorem runNodeWithin_eq {k : Nat} {id : NodeId} {p : Plan} (h : g.outlineWithin k id = .ok p) :
    g.runNodeWithin rounds k id = p.run g rounds := by
  induction k generalizing id p with
  | zero => cases h
  | succ k ih =>
    have agree : ∀ id p, g.outlineWithin k id = .ok p → g.runNodeWithin rounds k id = p.run g rounds :=
      fun _ _ => ih
    simp only [outlineWithin, bind_eq_ok] at h
    obtain ⟨n, hn, h⟩ := h
    split at h
    next b hkind hbranch =>
      simp only [runNodeWithin, hn, ofRead_ok, pure_bind, hkind, hbranch]
      exact runIf_eq agree h
    next b hkind hbranch =>
      simp only [runNodeWithin, hn, ofRead_ok, pure_bind, hkind, hbranch]
      exact runWhile_eq agree h
    next b hkind hbranch =>
      simp only [runNodeWithin, hn, ofRead_ok, pure_bind, hkind, hbranch]
      exact runFor_eq agree h
    next =>
      simp only [runNodeWithin, hn, ofRead_ok, pure_bind]
      exact runSimple_eq agree h

theorem runProgram_eq {p : Program} (h : g.outline = .ok p) (insertReturn : Bool) :
    g.runProgram rounds insertReturn = p.run g rounds insertReturn := by
  simp only [outline, bind_eq_ok] at h
  obtain ⟨s, hs, h⟩ := h
  simp only [runProgram, hs, ofRead_ok, pure_bind,
    runScope_eq (fun _ _ => runNodeWithin_eq) h, Bool.not_not]

end Graph

end FlowGraph
