import FlowGraph.Signature
import FlowGraph.Fault
import Std.Data.ExtTreeMap

/-!
# Libraries

The callables a graph may refer to. A callable is found by its name and argument types, through an index by
name; of several that match, the one registered first is taken.
-/

namespace FlowGraph

inductive CallError
  | divisionByZero
  | arity (expected found : Nat)
  | type (index : Nat) (expected found : ValueType)
deriving DecidableEq, Repr

def CallError.message : CallError → String
  | divisionByZero => "division by zero"
  | arity expected found =>
    "expected " ++ toString expected ++ " argument(s), got " ++ toString found
  | type index expected found =>
    "argument " ++ toString index ++ " expected `" ++ expected.name ++ "`, got `" ++ found.name ++ "`"

abbrev Native := List Value → Except CallError Value

structure Function where
  signature : Signature
  native : Native
  isOperator : Bool

namespace Function

/-- The native is not shown. -/
def text (f : Function) : String :=
  "Function \x7b signature: " ++ f.signature.text ++ ", is_operator: "
    ++ (if f.isOperator then "true" else "false") ++ ", .. \x7d"

/-- The first argument whose type is not the expected one. -/
def mismatch? : Nat → List Argument → List Value → Option CallError
  | i, a :: as, v :: vs =>
    if a.type = v.type then mismatch? (i + 1) as vs else some (.type i a.type v.type)
  | _, _, _ => none

def call (f : Function) (args : List Value) : Except CallError Value :=
  let expected := f.signature.arguments
  if expected.length ≠ args.length then .error (.arity expected.length args.length)
  else
    match mismatch? 0 expected args with
    | some e => .error e
    | none => f.native args

end Function

structure FunctionId where
  index : Nat
deriving DecidableEq, Repr

structure Library where
  functions : List Function := []
  /-- For each name its functions' numbers, in the order of registration. -/
  byName : Std.ExtTreeMap String (List FunctionId) := ∅

namespace Library

def empty : Library := {}

instance : Inhabited Library := ⟨empty⟩

def size (lib : Library) : Nat := lib.functions.length

def isEmpty (lib : Library) : Bool := lib.functions.isEmpty

def get? (lib : Library) (id : FunctionId) : Option Function := lib.functions[id.index]?

def named (lib : Library) (name : String) : List FunctionId := (lib.byName[name]?).getD []

def register (lib : Library) (f : Function) : FunctionId × Library :=
  let id : FunctionId := ⟨lib.size⟩
  let name := f.signature.name
  (id, { functions := lib.functions ++ [f], byName := lib.byName.insert name (lib.named name ++ [id]) })

def add (lib : Library) (f : Function) : Library := (lib.register f).2

def ofList (fs : List Function) : Library := fs.foldl add empty

def find? (lib : Library) (s : Signature) : Option FunctionId :=
  (lib.named s.name).find? fun id => (lib.get? id).any (·.signature.accepts s)

def isOperator (lib : Library) (name : String) : Bool :=
  (lib.named name).any fun id => (lib.get? id).any (·.isOperator)

def call (lib : Library) (id : FunctionId) (args : List Value) :
    Except Fault (Except CallError Value) :=
  match lib.get? id with
  | none => .error (.unknownFunction id.index)
  | some f => .ok (f.call args)

end Library

end FlowGraph
