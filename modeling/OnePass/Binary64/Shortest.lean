import OnePass.Binary64.Basic

/-!
The shortest decimal that reads back as a given double. All reals that round to a
double form an interval; on the decimal grid with one, two, three and more digits
its two grid neighbours are tried, and the first grid with a hit decides.
-/

namespace OnePass

/-- The number `digits * 10 ^ exponent`. -/
structure Decimal where
  digits : Nat
  exponent : Int
deriving DecidableEq, Repr

namespace Decimal

def pointPosition (d : Decimal) : Int :=
  (Nat.toDigits 10 d.digits).length + d.exponent

def stripZeros (d : Decimal) : Nat → Decimal
  | 0 => d
  | n + 1 => if d.digits % 10 = 0 then stripZeros ⟨d.digits / 10, d.exponent + 1⟩ n else d

end Decimal

namespace Binary64

/-- A positive real `value / unit` and the interval of reals around it that round to
one double, in the same unit. -/
structure Interval where
  value : Nat
  low : Nat
  high : Nat
  unit : Nat
  closed : Bool

def interval (x : Binary64) : Interval :=
  let step := Nat.pow 2 (x.scale - 1074)
  -- Below a power of two the neighbour is only half as far away as above it.
  { value := 4 * x.significand * step
    low := 4 * x.significand * step -
      (if x.fraction = 0 ∧ 1 < x.exponentField then step else 2 * step)
    high := 4 * x.significand * step + 2 * step
    unit := 4 * Nat.pow 2 (1074 - x.scale)
    closed := x.significand % 2 = 0 }

namespace Interval

def scaled (i : Interval) (d : Decimal) : Nat :=
  d.digits * Nat.pow 10 d.exponent.toNat * i.unit

def contains (i : Interval) (d : Decimal) : Bool :=
  let s := Nat.pow 10 (-d.exponent).toNat
  if i.closed then i.low * s ≤ i.scaled d && i.scaled d ≤ i.high * s
  else i.low * s < i.scaled d && i.scaled d < i.high * s

/-- The number of decimal digits of the value before the point, or minus the number of
zeros behind the point before its first digit. -/
def magnitude (i : Interval) : Int :=
  if i.unit ≤ i.value then (Nat.toDigits 10 (i.value / i.unit)).length
  else match (List.range 400).find? fun j => i.unit ≤ i.value * Nat.pow 10 (j + 1) with
    | some (j : Nat) => -(j : Int)
    | none => 0

/-- The member of the grid with spacing `10 ^ exponent` that is nearest to the value,
if the interval holds one. Of two at the same distance it is the larger. -/
def nearestOnGrid (i : Interval) (exponent : Int) : Option Decimal :=
  let s := Nat.pow 10 (-exponent).toNat
  let spacing := Nat.pow 10 exponent.toNat * i.unit
  let below : Decimal := ⟨i.value * s / spacing, exponent⟩
  let above : Decimal := ⟨i.value * s / spacing + 1, exponent⟩
  match i.contains below, i.contains above with
  | true, true => some (if 2 * (i.value * s % spacing) < spacing then below else above)
  | true, false => some below
  | false, true => some above
  | false, false => none

end Interval

def shortest (x : Binary64) : Decimal :=
  let i := x.interval
  let top := i.magnitude
  -- Seventeen digits always suffice for a finite double other than zero.
  let found := (List.range 17).findSome? fun (n : Nat) => i.nearestOnGrid (top - (n + 1))
  (found.getD ⟨0, 0⟩).stripZeros 17

end Binary64
end OnePass
