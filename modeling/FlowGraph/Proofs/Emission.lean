import FlowGraph.Compilation

/-!
# Emitted code

Emitting a plan adds its compositional code to what is there: a jump whose offset is filled in later has the
offset that the lengths of the parts give it. What `compile` returns is therefore the code of the outline.
-/

namespace FlowGraph

open Plan

namespace Code

@[simp]
theorem size_ofList (l : List Instruction) : (ofList l).size = l.length := by
  simp [ofList, size]

theorem push_ofList (l : List Instruction) (i : Instruction) :
    (ofList l).push i = ofList (l ++ [i]) := by
  simp [ofList, push]

theorem pushAll_ofList (l is : List Instruction) : (ofList l).pushAll is = ofList (l ++ is) := by
  induction is generalizing l with
  | nil => simp [pushAll]
  | cons i is ih =>
    have h := ih (l ++ [i])
    rw [pushAll] at h ⊢
    rw [List.foldl_cons, push_ofList, h, List.append_assoc]
    rfl

theorem op?_ofList (l : List Instruction) (line : Nat) : (ofList l).op? line = l[line]?.map (·.op) := by
  simp [ofList, op?, get?]

theorem setOp_ofList (before after : List Instruction) (i : Instruction) (op : Op) :
    (ofList (before ++ i :: after)).setOp before.length op = ofList (before ++ { i with op } :: after) := by
  simp only [setOp, ofList, List.modify_toArray, Code.mk.injEq]
  congr 1
  rw [List.modify_eq_take_drop]
  simp

theorem patch_jne (before after : List Instruction) (offset : Int) (comment : Option String) :
    (ofList (before ++ ⟨.jne offset, comment⟩ :: after)).patch before.length =
      ofList (before ++ ⟨.jne (after.length + 1), comment⟩ :: after) := by
  have hop : (ofList (before ++ ⟨.jne offset, comment⟩ :: after)).op? before.length =
      some (.jne offset) := by
    simp [op?_ofList]
  have hoffset : ((before.length + (after.length + 1) : Nat) : Int) - before.length = after.length + 1 := by
    omega
  simp only [patch, hop, setOp_ofList, size_ofList, List.length_append, List.length_cons, hoffset]

theorem patch_jmp (before after : List Instruction) (offset : Int) (comment : Option String) :
    (ofList (before ++ ⟨.jmp offset, comment⟩ :: after)).patch before.length =
      ofList (before ++ ⟨.jmp (after.length + 1), comment⟩ :: after) := by
  have hop : (ofList (before ++ ⟨.jmp offset, comment⟩ :: after)).op? before.length =
      some (.jmp offset) := by
    simp [op?_ofList]
  have hoffset : ((before.length + (after.length + 1) : Nat) : Int) - before.length = after.length + 1 := by
    omega
  simp only [patch, hop, setOp_ofList, size_ofList, List.length_append, List.length_cons, hoffset]

end Code

def pendingTest (name : String) : List Instruction :=
  [⟨.mov .rdx (Word.ofBool true), none⟩, ⟨.cmp .rax .rdx, none⟩, ⟨.jne 0, some (name ++ " condition")⟩]

theorem Code.pushTest_ofList (l : List Instruction) (name : String) :
    (Code.ofList l).pushTest name = (l.length + 2, .ofList (l ++ pendingTest name)) := by
  simp [Code.pushTest, Code.push_ofList, pendingTest]

theorem Code.patch_pendingTest (l after : List Instruction) (name : String) :
    (Code.ofList (l ++ pendingTest name ++ after)).patch (l.length + 2) =
      .ofList (l ++ passUnless name after.length ++ after) := by
  have h := Code.patch_jne (l ++ [⟨.mov .rdx (Word.ofBool true), none⟩, ⟨.cmp .rax .rdx, none⟩]) after 0
    (some (name ++ " condition"))
  simpa [passUnless, pendingTest] using h

namespace Plan

theorem emit_eq (p : Plan) (l : List Instruction) : p.emit (.ofList l) = .ofList (l ++ p.code) := by
  induction p generalizing l with
  | skip => simp [emit, code]
  | seq first second ihFirst ihSecond => simp [emit, code, ihFirst, ihSecond]
  | load node name => exact Code.push_ofList ..
  | evaluate node name => exact Code.push_ofList ..
  | constant word => exact Code.push_ofList ..
  | frame f body ih => simp [emit, code, ih, Code.pushAll_ofList]
  | loop name locals start test body step ihStart ihTest ihBody ihStep =>
    simp only [emit, Code.pushAll_ofList, ihStart, ihTest, Code.pushTest_ofList, ihBody, ihStep,
      Code.jumpTo, Code.push_ofList, Code.size_ofList]
    generalize hback : (_ : Int) - _ = back
    have hlength : back = -((test.code ++ passUnless name ((body.code ++ step.code).length + 1)
        ++ (body.code ++ step.code)).length : Int) := by
      rw [← hback]
      simp only [pendingTest, passUnless, List.length_append, List.length_cons, List.length_nil]
      omega
    have h := Code.patch_pendingTest (l ++ pushVars locals ++ start.code ++ test.code)
      (body.code ++ step.code ++ [⟨.jmp back, some "loop"⟩]) name
    simp only [← List.append_assoc] at h
    rw [h, Code.pushAll_ofList, hlength]
    simp [code, jumpBack, Nat.add_assoc]
  | choice name test onTrue ihTest ihTrue =>
    simp only [emit, ihTest, Code.pushTest_ofList, ihTrue, Code.patch_pendingTest]
    simp [code]
  | choiceElse name test onTrue onFalse ihTest ihTrue ihFalse =>
    simp only [emit, ihTest, Code.pushTest_ofList, ihTrue, Code.push_ofList, Code.size_ofList]
    have hjne := Code.patch_pendingTest (l ++ test.code) (onTrue.code ++ [⟨.jmp 0, some "skip else"⟩]) name
    simp only [← List.append_assoc] at hjne
    rw [hjne, ihFalse]
    have hjmp := Code.patch_jmp (l ++ test.code ++ passUnless name (onTrue.code.length + 1) ++ onTrue.code)
      onFalse.code 0 (some "skip else")
    have hline : (l ++ test.code ++ pendingTest name ++ onTrue.code).length =
        (l ++ test.code ++ passUnless name (onTrue.code.length + 1) ++ onTrue.code).length := by
      simp [pendingTest, passUnless]
    rw [hline]
    simpa [code, jumpPast] using hjmp

end Plan

theorem Program.emit_eq (p : Program) (insertReturn : Bool) :
    p.emit insertReturn = .ofList (p.code insertReturn) := by
  have hempty : ({} : Code) = .ofList [] := rfl
  rw [Program.emit, hempty, Code.pushAll_ofList, Plan.emit_eq]
  cases insertReturn with
  | false => simp [Program.code, Code.pushAll_ofList]
  | true => simp [Program.code, Code.push_ofList, Code.pushAll_ofList]

end FlowGraph
