import FlowGraph.Decimal

/-!
# Values and register words

A value carries its type. A register word is the same value as eight raw bytes: the type is dropped, and
whoever reads the word has to know it.
-/

namespace FlowGraph

inductive ValueType
  | void
  | bool
  | int
  | double
deriving DecidableEq, Repr

namespace ValueType

def name : ValueType → String
  | void => "void"
  | bool => "bool"
  | int => "int"
  | double => "double"

end ValueType

/-- A binary64 number, held as its bits. -/
structure Double where
  bits : UInt64
deriving DecidableEq, Repr

namespace Double

def zero : Double := ⟨0⟩

def ofFloat (x : Float) : Double := ⟨x.toBits⟩

def toFloat (d : Double) : Float := Float.ofBits d.bits

def isNegative (d : Double) : Bool := d.bits >>> 63 == 1

def magnitude (d : Double) : UInt64 := d.bits &&& 0x7fffffffffffffff

def isInfinite (d : Double) : Bool := d.magnitude == 0x7ff0000000000000

def isNaN (d : Double) : Bool := d.magnitude > 0x7ff0000000000000

def isZero (d : Double) : Bool := d.magnitude == 0

/-- Numeric equality: a NaN differs from every number, itself included, and the two zeros are equal. -/
def same (a b : Double) : Bool :=
  !a.isNaN && !b.isNaN && (a.bits == b.bits || a.isZero && b.isZero)

def add (a b : Double) : Double := ofFloat (a.toFloat + b.toFloat)

def sub (a b : Double) : Double := ofFloat (a.toFloat - b.toFloat)

def mul (a b : Double) : Double := ofFloat (a.toFloat * b.toFloat)

def div (a b : Double) : Double := ofFloat (a.toFloat / b.toFloat)

def less (a b : Double) : Bool := a.toFloat < b.toFloat

def lessEq (a b : Double) : Bool := a.toFloat ≤ b.toFloat

def neg (a : Double) : Double := ⟨a.bits ^^^ 0x8000000000000000⟩

def abs (a : Double) : Double := ⟨a.magnitude⟩

/-- The numbers that read back as the magnitude of a finite number. The fraction field is extended by the
hidden bit unless the exponent field is zero. -/
def neighbourhood (d : Double) : Decimal.Neighbourhood :=
  let exponent := (d.magnitude >>> 52).toNat
  let fraction := (d.magnitude &&& 0x000fffffffffffff).toNat
  if exponent = 0 then .around fraction (-1074) false
  else .around (0x10000000000000 + fraction) (exponent - 1075) (fraction = 0 ∧ 1 < exponent)

/-- Numbers from `10 ^ (-4)` up to `10 ^ 16` are written positionally. -/
def layout : Decimal.Layout := ⟨-3, 16⟩

/-- The shortest text that reads back, with a decimal point unless there is an exponent. -/
def text (d : Double) : String :=
  let sign := if d.isNegative then "-" else ""
  if d.isNaN then "NaN"
  else if d.isInfinite then sign ++ "inf"
  else if d.isZero then sign ++ "0.0"
  else sign ++ String.ofList (d.neighbourhood.shortest.elim [] (Decimal.text layout))

end Double

inductive Value
  | void
  | bool (b : Bool)
  | int (i : Int64)
  | double (d : Double)
deriving DecidableEq, Repr

/-- The value a new property starts with, and a disconnected one returns to. -/
def ValueType.default : ValueType → Value
  | .void => .void
  | .bool => .bool false
  | .int => .int 0
  | .double => .double .zero

/-- Eight raw bytes: a boolean sits in the low byte, an integer is in two's complement and a double is its
bits. -/
abbrev Word := UInt64

namespace Word

/-- Only the low byte counts. -/
def asBool (w : Word) : Bool := w &&& 0xff != 0

def ofBool (b : Bool) : Word := if b then 1 else 0

end Word

namespace Value

def type : Value → ValueType
  | void => .void
  | bool _ => .bool
  | int _ => .int
  | double _ => .double

def asBool? : Value → Option Bool
  | bool b => some b
  | _ => none

def asInt? : Value → Option Int64
  | int i => some i
  | _ => none

def asDouble? : Value → Option Double
  | double d => some d
  | _ => none

def toWord : Value → Word
  | void => 0
  | bool b => Word.ofBool b
  | int i => i.toUInt64
  | double d => d.bits

def ofWord : ValueType → Word → Value
  | .void, _ => void
  | .bool, w => bool w.asBool
  | .int, w => int w.toInt64
  | .double, w => double ⟨w⟩

/-- Equality of values of one type; values of two types differ. -/
def same : Value → Value → Bool
  | void, void => true
  | bool a, bool b => a == b
  | int a, int b => a == b
  | double a, double b => a.same b
  | _, _ => false

/-- How a literal of this value is written. A void has no text. -/
def text : Value → String
  | void => ""
  | bool true => "true"
  | bool false => "false"
  | int i => if i < 0 then "-" ++ String.ofList (Decimal.digits i.toInt.natAbs)
      else String.ofList (Decimal.digits i.toInt.natAbs)
  | double d => d.text

@[simp] theorem type_default (t : ValueType) : t.default.type = t := by
  cases t <;> rfl

@[simp] theorem type_ofWord (t : ValueType) (w : Word) : (ofWord t w).type = t := by
  cases t <;> rfl

theorem ofWord_toWord (v : Value) : ofWord v.type v.toWord = v := by
  cases v with
  | void => rfl
  | bool b => cases b <;> rfl
  | int i => simp [type, toWord, ofWord]
  | double d => rfl

end Value

end FlowGraph
