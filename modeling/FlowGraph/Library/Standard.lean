import FlowGraph.Library.Basic

/-!
# The standard library

Arithmetic, comparison, logic and assignment, and a few numeric functions. Integers wrap; a quotient that is
not an integer of 64 bits counts as a division by zero.
-/

namespace FlowGraph.Library

namespace Native

def int (args : List Value) (i : Nat) : Int64 := (args[i]?.bind Value.asInt?).getD 0

def double (args : List Value) (i : Nat) : Double := (args[i]?.bind Value.asDouble?).getD .zero

def bool (args : List Value) (i : Nat) : Bool := (args[i]?.bind Value.asBool?).getD false

def onInts (f : Int64 → Int64 → Value) : Native := fun args => .ok (f (int args 0) (int args 1))

def onDoubles (f : Double → Double → Value) : Native := fun args =>
  .ok (f (double args 0) (double args 1))

def onBools (f : Bool → Bool → Bool) : Native := fun args =>
  .ok (.bool (f (bool args 0) (bool args 1)))

def divide : Native := fun args =>
  let a := int args 0
  let b := int args 1
  if b = 0 ∨ (a = Int64.minValue ∧ b = -1) then .error .divisionByZero else .ok (.int (a / b))

/-- An assignment yields its right side. Who evaluates it stores that into the left one. -/
def assign : Native := fun args => .ok ((args[1]?).getD .void)

end Native

open Native

def unary (name : String) (type : ValueType) (native : Native) : Function :=
  { signature := ⟨name, type, [{ type }]⟩, native, isOperator := true }

def binary (name : String) (type result : ValueType) (native : Native) : Function :=
  { signature := ⟨name, result, [{ type }, { type }]⟩, native, isOperator := true }

def assignment (type : ValueType) : Function :=
  { signature := ⟨"=", type, [{ type, byRef := true }, { type }]⟩, native := assign
    isOperator := true }

def plain (f : Function) : Function := { f with isOperator := false }

def standardFunctions : List Function :=
  [ binary "+" .int .int (onInts fun a b => .int (a + b)),
    binary "-" .int .int (onInts fun a b => .int (a - b)),
    binary "*" .int .int (onInts fun a b => .int (a * b)),
    binary "+" .double .double (onDoubles fun a b => .double (a.add b)),
    binary "-" .double .double (onDoubles fun a b => .double (a.sub b)),
    binary "*" .double .double (onDoubles fun a b => .double (a.mul b)),
    binary "/" .double .double (onDoubles fun a b => .double (a.div b)),
    binary "/" .int .int divide,
    binary "<" .int .bool (onInts fun a b => .bool (a < b)),
    binary ">" .int .bool (onInts fun a b => .bool (b < a)),
    binary "<=" .int .bool (onInts fun a b => .bool (a ≤ b)),
    binary ">=" .int .bool (onInts fun a b => .bool (b ≤ a)),
    binary "==" .int .bool (onInts fun a b => .bool (a == b)),
    binary "!=" .int .bool (onInts fun a b => .bool (a != b)),
    binary "<" .double .bool (onDoubles fun a b => .bool (a.less b)),
    binary ">" .double .bool (onDoubles fun a b => .bool (b.less a)),
    binary "<=" .double .bool (onDoubles fun a b => .bool (a.lessEq b)),
    binary ">=" .double .bool (onDoubles fun a b => .bool (b.lessEq a)),
    binary "==" .bool .bool (onBools fun a b => a == b),
    binary "!=" .bool .bool (onBools fun a b => a != b),
    binary "&&" .bool .bool (onBools fun a b => a && b),
    binary "||" .bool .bool (onBools fun a b => a || b),
    unary "!" .bool fun args => .ok (.bool !(bool args 0)),
    unary "-" .int fun args => .ok (.int (-(int args 0))),
    unary "-" .double fun args => .ok (.double (double args 0).neg),
    assignment .bool,
    assignment .int,
    assignment .double,
    plain (binary "min" .int .int (onInts fun a b => .int (if b < a then b else a))),
    plain (binary "max" .int .int (onInts fun a b => .int (if a < b then b else a))),
    plain (unary "abs" .int fun args => .ok (.int (int args 0).abs)),
    plain (unary "abs" .double fun args => .ok (.double (double args 0).abs)),
    plain (unary "not" .bool fun args => .ok (.bool !(bool args 0))) ]

def standard : Library := ofList standardFunctions

end FlowGraph.Library
