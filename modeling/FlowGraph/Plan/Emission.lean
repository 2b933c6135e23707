import FlowGraph.Plan.Basic

/-!
# Emission

Code is emitted from the first line to the last. A jump to a line that is not reached yet is emitted without
its offset, and pointed at its target when that line is the next one.
-/

namespace FlowGraph

namespace Code

def pushAll (c : Code) (is : List Instruction) : Code := is.foldl push c

/-- Points the jump at a line to the next instruction. Anything else is left as it is. -/
def patch (c : Code) (line : Nat) : Code :=
  let offset : Int := c.size - line
  match c.op? line with
  | some (.jmp _) => c.setOp line (.jmp offset)
  | some (.jne _) => c.setOp line (.jne offset)
  | _ => c

/-- Compares the accumulator with true, and jumps unless it holds. Gives the line of the jump. -/
def pushTest (c : Code) (name : String) : Nat × Code :=
  let c := (c.push ⟨.mov .rdx (Word.ofBool true), none⟩).push ⟨.cmp .rax .rdx, none⟩
  (c.size, c.push ⟨.jne 0, some (name ++ " condition")⟩)

def jumpTo (c : Code) (line : Nat) : Code := c.push ⟨.jmp (line - c.size), some "loop"⟩

end Code

namespace Plan

def emit : Plan → Code → Code
  | skip, c => c
  | seq first second, c => second.emit (first.emit c)
  | load node name, c => c.push ⟨.deref node, some name⟩
  | evaluate node name, c => c.push ⟨.eval node, some name⟩
  | constant word, c => c.push ⟨.mov .rax word, some "unlinked condition"⟩
  | frame f body, c => (body.emit (c.pushAll f.opening)).pushAll f.closing
  | loop name locals start test body step, c =>
    let c := start.emit (c.pushAll (pushVars locals))
    let condition := c.size
    let (jne, c) := (test.emit c).pushTest name
    let c := (step.emit (body.emit c)).jumpTo condition
    (c.patch jne).pushAll (popVars locals)
  | choice name test onTrue, c =>
    let (jne, c) := (test.emit c).pushTest name
    (onTrue.emit c).patch jne
  | choiceElse name test onTrue onFalse, c =>
    let (jne, c) := (test.emit c).pushTest name
    let c := onTrue.emit c
    let skipElse := c.size
    let c := (c.push ⟨.jmp 0, some "skip else"⟩).patch jne
    (onFalse.emit c).patch skipElse

end Plan

def Program.emit (p : Program) (insertReturn : Bool) : Code :=
  let c := p.body.emit (({} : Code).pushAll p.frame.opening)
  let c := if insertReturn then c.push ⟨.ret, none⟩ else c
  c.pushAll p.frame.closing

end FlowGraph
