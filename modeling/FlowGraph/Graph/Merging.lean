import FlowGraph.Graph.Destruction

/-!
# References and merged literals

A reference is created linked to its variable, or not at all. A literal that feeds nothing yet can be merged
into the input it is connected to: the input takes its value and the literal goes.
-/

namespace FlowGraph.Graph

/-- Adds a reference that reads `variable`. When the variable has no room for another reader, the reference
is destroyed again. -/
def createReference (g : Graph) (source : NodeId) (s : ScopeId) :
    Except Fault (Graph × Except ConnectError NodeId) := do
  match ← g.node? source with
  | none => return (g, .error (.unknownNode source))
  | some target =>
    if !target.isVariable then return (g, .error (.notAVariable source))
    match ← g.valueOut? source with
    | none => return (g, .error (.notAVariable source))
    | some output =>
      let build := Node.reference target.valueProperty.type target.name g.config.fanIn
      let (id, g) ← g.spawn build none (some s)
      match ← g.connect output ⟨id, ⟨0⟩⟩ false with
      | (g, .ok _) => return (g, .ok id)
      | (g, .error e) => return (← g.destroy id false, .error e)

/-- The input a literal can be merged into. -/
def mergeTarget? (source : Node) (target : Slot) : Option Nat :=
  if source.kind = .literal ∧ source.outputs = [] ∧ target.kind = .value ∧ target.isPrimary = false then
    some target.property
  else none

/-- Connects with side effects or, where the graph is so configured and the output is a literal's that feeds
nothing, merges. There is no link after a merge. -/
def connectOrMerge (g : Graph) (output input : SlotRef) :
    Except Fault (Graph × Except ConnectError (Option Link)) := do
  let link (g : Graph) : Except Fault (Graph × Except ConnectError (Option Link)) := do
    let (g, result) ← g.connect output input true
    return (g, result.map some)
  if !g.config.mergeLiterals then return ← link g
  match ← g.node? output.node with
  | none => return (g, .error (.unknownNode output.node))
  | some source =>
    match ← g.lookupSlot input with
    | .error e => return (g, .error e)
    | .ok target =>
      match mergeTarget? source target with
      | none => link g
      | some property =>
        let g := g.modifyNode input.node (·.modifyProperty property (·.setValue source.value))
        return (← g.destroy output.node true, .ok none)

end FlowGraph.Graph
