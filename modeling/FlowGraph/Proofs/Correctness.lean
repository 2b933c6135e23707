import FlowGraph.Proofs.Reachability
import FlowGraph.Proofs.Simulation
import FlowGraph.Proofs.Structure

/-!
# Compiled programs

Loading the code of a graph and running it is running the graph.
-/

namespace FlowGraph.Graph

open Machine

variable {g : Graph} {insertReturn : Bool} {c : Code}

theorem outline_of_compile (h : g.compile insertReturn = .ok (.ok c)) :
    ∃ p, g.outline = .ok p ∧ c = .ofList (p.code insertReturn) ∧ c.size ≤ Code.limit := by
  simp only [compile, bind_eq_ok] at h
  obtain ⟨errors, -, h⟩ := h
  cases errors with
  | cons e es => cases h
  | nil =>
    simp only [bind_eq_ok] at h
    obtain ⟨p, hp, h⟩ := h
    split at h
    next hsize =>
      obtain rfl : p.emit insertReturn = c := by simpa using h
      exact ⟨p, hp, p.emit_eq insertReturn, hsize⟩
    next => cases h

theorem validate_of_compile (h : g.compile insertReturn = .ok (.ok c)) : g.validate = .ok [] := by
  simp only [compile, bind_eq_ok] at h
  obtain ⟨errors, hvalid, h⟩ := h
  cases errors with
  | nil => exact hvalid
  | cons e es => cases h

theorem compile_of_outline {p : Program} (hvalid : g.validate = .ok []) (hp : g.outline = .ok p) :
    g.compile insertReturn = if (p.code insertReturn).length ≤ Code.limit
      then .ok (.ok (.ofList (p.code insertReturn))) else .error .codeOverflow := by
  simp only [compile, hvalid, hp, ok_bind, p.emit_eq, Code.size_ofList]
  rfl

theorem finish_compiled_iff (h : g.compile insertReturn = .ok (.ok c)) (y : Except Trap Unit × State) :
    (∃ n, c.finish g n {} = some y) ↔
      ∃ rounds, ((g.runProgram rounds insertReturn).outcome {}).map ending = some y := by
  obtain ⟨p, hp, hc, hsize⟩ := outline_of_compile h
  obtain ⟨exit, hfollows, hexit⟩ := p.followsCourse (g := g) hsize insertReturn hc
  have hends := hfollows.ends hexit {} y
  simp only [← runProgram_eq hp] at hends
  exact hends

/-- How many rounds loops are granted decides whether there is an outcome, but not which. -/
theorem runProgram_unique (h : g.compile insertReturn = .ok (.ok c)) {rounds rounds' : Nat}
    {r r' : Except Trap Unit × State} (hr : (g.runProgram rounds insertReturn).outcome {} = some r)
    (hr' : (g.runProgram rounds' insertReturn).outcome {} = some r') : ending r = ending r' := by
  obtain ⟨n, hn⟩ := (finish_compiled_iff h _).2 ⟨rounds, congrArg (Option.map ending) hr⟩
  obtain ⟨n', hn'⟩ := (finish_compiled_iff h _).2 ⟨rounds', congrArg (Option.map ending) hr'⟩
  have hmax := Code.finish_mono hn (Nat.le_max_left n n')
  rw [Code.finish_mono hn' (Nat.le_max_right n n')] at hmax
  exact (Option.some.inj hmax).symm

/-- Loading and running the code of a graph is running the graph: it ends if the graph's run does, with the
same result and in the same state but for the cursor. -/
theorem run_compiled_iff {m m' : Machine} (hcompile : g.compile insertReturn = .ok (.ok c))
    (hlimit : m.stepLimit = none) (hload : m.load c = (m', .ok ())) :
    (∀ y, (∃ n, (m'.run g n).map observe = some y) ↔
      ∃ rounds, ((g.runProgram rounds insertReturn).outcome {}).map ending = some y) ∧
    ((∀ n, m'.run g n = none) ↔ ∀ rounds, (g.runProgram rounds insertReturn).outcome {} = none) := by
  have hsize : c.size ≤ Code.limit := by
    obtain ⟨p, -, -, hsize⟩ := outline_of_compile hcompile
    exact hsize
  have hends (y) : (∃ n, (m'.run g n).map observe = some y) ↔
      ∃ rounds, ((g.runProgram rounds insertReturn).outcome {}).map ending = some y :=
    (exists_run_iff hlimit hsize hload y).trans (finish_compiled_iff hcompile y)
  refine ⟨hends, ?_, ?_⟩
  · intro hnone rounds
    by_contra hsome
    obtain ⟨r, hr⟩ := Option.ne_none_iff_exists'.1 hsome
    obtain ⟨n, hn⟩ := (hends (ending r)).2 ⟨rounds, congrArg (Option.map ending) hr⟩
    rw [hnone n] at hn
    cases hn
  · intro hnone n
    by_contra hsome
    obtain ⟨r, hr⟩ := Option.ne_none_iff_exists'.1 hsome
    obtain ⟨rounds, hrounds⟩ := (hends (observe r)).1 ⟨n, congrArg (Option.map observe) hr⟩
    rw [hnone rounds] at hrounds
    cases hrounds

theorem idleLoop_compiles : ∃ g c, idleLoop = .ok g ∧ g.compile false = .ok (.ok c) := by
  obtain ⟨c, hc⟩ := exists_of_isOk (x := do
    match ← (← idleLoop).compile false with
    | .ok c => return c
    | .error _ => throw .endless) (by decide +kernel)
  simp only [bind_eq_ok] at hc
  obtain ⟨g, hg, result, hresult, h⟩ := hc
  cases result with
  | error e => cases h
  | ok c => exact ⟨g, c, hg, hresult⟩

theorem run_idleLoop_iff : ∃ g c m, idleLoop = .ok g ∧ g.compile false = .ok (.ok c) ∧
    ({} : Machine).load c = (m, .ok ()) ∧ ((∀ n, m.run g n = none) ↔
      ∀ rounds, (g.runProgram rounds false).outcome {} = none) := by
  obtain ⟨g, c, hg, hc⟩ := idleLoop_compiles
  exact ⟨g, c, _, hg, hc, rfl, (run_compiled_iff (m := {}) hc rfl rfl).2⟩

end FlowGraph.Graph
