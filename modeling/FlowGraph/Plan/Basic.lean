import FlowGraph.Code

/-!
# Plans

A plan is a program without jumps: what to evaluate, in which order, under which conditions and in which
frames. Its code is put together from the code of its parts, and every jump stays inside the part it belongs
to.

* a frame: `push_frame`, `push_var`s, the body, `pop_var`s in reverse, `pop_frame`
* a test: the condition, `mov rdx` true, `cmp`, `jne` past what depends on it
* a loop: `push_var`s, the start, the test, the body, the step, `jmp` back to the test, `pop_var`s in reverse
* a choice: the test, the true side, and `jmp` past the false side if there is one
-/

namespace FlowGraph

/-- A variable that is pushed and popped, with the name its instructions are annotated with. -/
structure Declaration where
  node : NodeId
  name : String
deriving DecidableEq, Repr

structure Frame where
  scope : ScopeId
  owner : String
  declarations : List Declaration
deriving DecidableEq, Repr

inductive Plan
  | skip
  | seq (first second : Plan)
  | load (node : NodeId) (name : String)
  | evaluate (node : NodeId) (name : String)
  | constant (word : Word)
  | frame (frame : Frame) (body : Plan)
  | loop (name : String) (locals : List Declaration) (start test body step : Plan)
  | choice (name : String) (test onTrue : Plan)
  | choiceElse (name : String) (test onTrue onFalse : Plan)
deriving DecidableEq, Repr

/-- A plan for a whole program, in the frame of its root scope. -/
structure Program where
  frame : Frame
  body : Plan
deriving DecidableEq, Repr

def pushVars (ds : List Declaration) : List Instruction :=
  ds.map fun v => ⟨.pushVar v.node, some v.name⟩

def popVars (ds : List Declaration) : List Instruction :=
  ds.reverse.map fun v => ⟨.popVar v.node, some v.name⟩

namespace Frame

def comment (f : Frame) : String := f.owner ++ " scope"

def opening (f : Frame) : List Instruction :=
  ⟨.pushFrame f.scope, some f.comment⟩ :: pushVars f.declarations

def closing (f : Frame) : List Instruction :=
  popVars f.declarations ++ [⟨.popFrame f.scope, some f.comment⟩]

end Frame

namespace Plan

def sequence : List Plan → Plan
  | [] => skip
  | p :: rest => seq p (sequence rest)

/-- Compares the accumulator with true, and passes over the next `length` instructions unless it holds. -/
def passUnless (name : String) (length : Nat) : List Instruction :=
  [⟨.mov .rdx (Word.ofBool true), none⟩, ⟨.cmp .rax .rdx, none⟩,
    ⟨.jne (length + 1), some (name ++ " condition")⟩]

def jumpBack (length : Nat) : Instruction := ⟨.jmp (-length), some "loop"⟩

def jumpPast (length : Nat) : Instruction := ⟨.jmp (length + 1), some "skip else"⟩

def code : Plan → List Instruction
  | skip => []
  | seq first second => first.code ++ second.code
  | load node name => [⟨.deref node, some name⟩]
  | evaluate node name => [⟨.eval node, some name⟩]
  | constant word => [⟨.mov .rax word, some "unlinked condition"⟩]
  | frame f body => f.opening ++ body.code ++ f.closing
  | loop name locals start test body step =>
    let round := body.code ++ step.code
    let tested := test.code ++ passUnless name (round.length + 1) ++ round
    pushVars locals ++ start.code ++ tested ++ [jumpBack tested.length] ++ popVars locals
  | choice name test onTrue =>
    let taken := onTrue.code
    test.code ++ passUnless name taken.length ++ taken
  | choiceElse name test onTrue onFalse =>
    let taken := onTrue.code
    let other := onFalse.code
    test.code ++ passUnless name (taken.length + 1) ++ taken ++ [jumpPast other.length] ++ other

end Plan

/-- The instructions of a program, with a `ret` at the end of its body if asked for. -/
def Program.code (p : Program) (insertReturn : Bool) : List Instruction :=
  let ret : List Instruction := if insertReturn then [⟨.ret, none⟩] else []
  p.frame.opening ++ p.body.code ++ ret ++ p.frame.closing

end FlowGraph
