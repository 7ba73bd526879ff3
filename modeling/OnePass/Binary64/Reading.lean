import OnePass.Binary64.Basic

/-!
The double nearest to a decimal number. The quotient is kept as two naturals, so
that nothing is rounded before the one rounding at the end.
-/

namespace OnePass

def roundDiv (num den : Nat) : Nat :=
  let q := num / den
  let r := num % den
  if 2 * r < den ∨ (2 * r = den ∧ q % 2 = 0) then q else q + 1

namespace Binary64

/-- The scale of the significand of `num / den`: the one with which it has 53 bits,
and the least one for smaller quotients. -/
def scaleOf (num den : Nat) : Nat :=
  let log := num.log2 + 1074 - den.log2
  (if den * Nat.pow 2 log ≤ num * Nat.pow 2 1074 then log else log - 1) - 52

def ofQuotient (num den : Nat) : Binary64 :=
  let s := scaleOf num den
  -- A significand that is rounded up to 54 bits carries into the exponent field, which is right.
  let bits := s * Nat.pow 2 52 + roundDiv (num * Nat.pow 2 1074) (den * Nat.pow 2 s)
  ⟨UInt64.ofNat (min bits infinityBits)⟩

def ofDecimal (digits : Nat) (exponent : Int) : Binary64 :=
  let magnitude : Int := (Nat.toDigits 10 digits).length + exponent
  -- Beyond the two cuts the result is zero or infinite whatever the digits are.
  if digits = 0 ∨ magnitude < -330 then ⟨0⟩
  else if 330 < magnitude then ⟨UInt64.ofNat infinityBits⟩
  else ofQuotient (digits * Nat.pow 10 exponent.toNat) (Nat.pow 10 (-exponent).toNat)

end Binary64
end OnePass
