import OnePass.Binary64.Shortest

/-!
Doubles as decimal texts: the shortest digits that read back, laid out by a style.
-/

namespace OnePass
namespace Binary64

structure Style where
  /-- The powers of ten of a first digit that are written without an exponent. -/
  positional : Int → Bool
  /-- Whether a whole number keeps a point and a zero. -/
  point : Bool

namespace Style

def plain : Style := ⟨fun _ => true, false⟩

/-- A literal of the language: always a point or an exponent, an exponent below
1e-4 and from 1e16 on. -/
def literal : Style := ⟨fun e => -4 ≤ e && e < 16, true⟩

end Style

def zeros (n : Int) : List Char :=
  List.replicate n.toNat '0'

def positional (digits : List Char) (position : Int) (point : Bool) : List Char :=
  if position ≤ 0 then '0' :: '.' :: zeros (-position) ++ digits
  else if (digits.length : Int) ≤ position then
    digits ++ zeros (position - digits.length) ++ (if point then ['.', '0'] else [])
  else digits.take position.toNat ++ '.' :: digits.drop position.toNat

def scientific (digits : List Char) (exponent : Int) : List Char :=
  digits.take 1 ++ (if digits.length ≤ 1 then [] else '.' :: digits.drop 1) ++
    'e' :: (toString exponent).toList

def magnitudeText (style : Style) (x : Binary64) : List Char :=
  if x.significand = 0 then positional ['0'] 1 style.point
  else
    let d := x.shortest
    let digits := Nat.toDigits 10 d.digits
    let position := d.pointPosition
    if style.positional (position - 1) then positional digits position style.point
    else scientific digits (position - 1)

def write (style : Style) (x : Binary64) : String :=
  if !x.isFinite && x.fraction != 0 then "NaN"
  else
    let magnitude := if x.isFinite then x.magnitudeText style else "inf".toList
    String.ofList (if x.negative then '-' :: magnitude else magnitude)

end Binary64
end OnePass
