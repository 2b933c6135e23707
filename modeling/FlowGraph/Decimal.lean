/-!
# Shortest decimals

A positive binary number `m * 2 ^ q` is written with the fewest decimal digits that read back as the
same number. Of two such decimals the nearer one is taken, and of two equally near ones the larger.
All arithmetic is exact.
-/

namespace FlowGraph

/-- The number `significand * 10 ^ exponent`. -/
structure Decimal where
  significand : Nat
  exponent : Int
deriving DecidableEq, Repr

namespace Decimal

def digits (n : Nat) : List Char := Nat.toDigits 10 n

/-- The decimal point's place in the digits: the number lies below `10 ^ point` and, when the
significand is positive, not below `10 ^ (point - 1)`. -/
def point (d : Decimal) : Int := d.exponent + (digits d.significand).length

/-- The `k` with `10 ^ (k - 1) ≤ num / den < 10 ^ k`, for positive `num` and `den`. -/
def magnitude (num den : Nat) : Int :=
  if den ≤ num then (digits (num / den)).length
  else 1 - (digits ((den - 1) / num)).length

/-- The numbers that read back as `value / unit`: those between `low / unit` and `high / unit`, the ends
included when `closed`. -/
structure Neighbourhood where
  low : Nat
  value : Nat
  high : Nat
  unit : Nat
  closed : Bool

/-- The neighbourhood of `m * 2 ^ q`. Below a power of two the next number down is half as far
(`narrow`). -/
def Neighbourhood.around (m : Nat) (q : Int) (narrow : Bool) : Neighbourhood :=
  let scale := Nat.pow 2 (q - 2).toNat
  { low := (4 * m - if narrow then 1 else 2) * scale
    value := 4 * m * scale
    high := (4 * m + 2) * scale
    unit := Nat.pow 2 (2 - q).toNat
    closed := m % 2 == 0 }

namespace Neighbourhood

def above (s : Neighbourhood) (num den : Nat) : Bool :=
  if s.closed then s.low * den ≤ num * s.unit else s.low * den < num * s.unit

def below (s : Neighbourhood) (num den : Nat) : Bool :=
  if s.closed then num * s.unit ≤ s.high * den else num * s.unit < s.high * den

/-- The decimal of `n` digits nearest to the value, if one lies in the neighbourhood. Only the two
neighbours of the value on that decimal grid can. -/
def candidate (s : Neighbourhood) (n : Nat) : Option Decimal :=
  let k := magnitude s.value s.unit
  let step := Nat.pow 10 (k - n).toNat
  let parts := Nat.pow 10 (n - k).toNat
  let floor := s.value * parts / (step * s.unit)
  let rest := s.value * parts % (step * s.unit)
  let down : Decimal := ⟨floor, k - n⟩
  let up : Decimal := if floor + 1 = Nat.pow 10 n then ⟨1, k⟩ else ⟨floor + 1, k - n⟩
  match s.above (floor * step) parts, s.below ((floor + 1) * step) parts with
  | true, true => some (if 2 * rest < step * s.unit then down else up)
  | true, false => some down
  | false, true => some up
  | false, false => none

/-- Seventeen digits always suffice for a binary64 number. -/
def shortest (s : Neighbourhood) : Option Decimal :=
  (List.range 17).findSome? fun i => s.candidate (i + 1)

end Neighbourhood

/-- Which numbers are written positionally: those whose decimal point is in this range. All others are
written with an exponent. -/
structure Layout where
  leastPoint : Int
  greatestPoint : Int

def zeros (n : Nat) : List Char := List.replicate n '0'

/-- Digits around a decimal point, with at least one digit on each side. -/
def positional (ds : List Char) (point : Int) : List Char :=
  if point ≤ 0 then '0' :: '.' :: zeros (-point).toNat ++ ds
  else
    let whole := ds.take point.toNat ++ zeros (point.toNat - ds.length)
    let fraction := ds.drop point.toNat
    whole ++ '.' :: if fraction.isEmpty then ['0'] else fraction

/-- One digit before the decimal point, and the exponent after an `e`. -/
def scientific (ds : List Char) (point : Int) : List Char :=
  let mantissa := match ds with
    | [] => []
    | [d] => [d]
    | d :: rest => d :: '.' :: rest
  let exponent := point - 1
  let sign := if exponent < 0 then ['-'] else []
  mantissa ++ 'e' :: sign ++ digits exponent.natAbs

def text (layout : Layout) (d : Decimal) : List Char :=
  let ds := digits d.significand
  if layout.leastPoint ≤ d.point ∧ d.point ≤ layout.greatestPoint then positional ds d.point
  else scientific ds d.point

end Decimal

end FlowGraph
