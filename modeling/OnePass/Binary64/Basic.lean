/-!
Doubles by their bit patterns. Constants are only read and written here, never
computed with, so the pattern is the value: zeros of both signs and all NaN
payloads stay apart, and equality is decidable.
-/

namespace OnePass

/-- A double in the binary64 interchange format: sign, eleven exponent bits and
52 fraction bits. -/
structure Binary64 where
  bits : UInt64
deriving DecidableEq, Repr

namespace Binary64

def negative (x : Binary64) : Bool :=
  Nat.pow 2 63 ≤ x.bits.toNat

def exponentField (x : Binary64) : Nat :=
  x.bits.toNat / Nat.pow 2 52 % Nat.pow 2 11

def fraction (x : Binary64) : Nat :=
  x.bits.toNat % Nat.pow 2 52

def isFinite (x : Binary64) : Bool :=
  x.exponentField < 2047

/-- The significand `m` of the magnitude `m * 2 ^ (scale - 1074)` of a finite double. -/
def significand (x : Binary64) : Nat :=
  if x.exponentField = 0 then x.fraction else Nat.pow 2 52 + x.fraction

def scale (x : Binary64) : Nat :=
  x.exponentField - 1

def infinityBits : Nat := 2047 * Nat.pow 2 52

end Binary64
end OnePass
