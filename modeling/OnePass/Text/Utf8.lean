/-!
Reading bytes as UTF-8. The first byte that cannot stand where it stands ends the
reading; the fault says where the character began and how many of its bytes were
well formed so far.
-/

namespace OnePass
namespace Text
namespace Utf8

inductive Fault where
  /-- A character that begins at `index` breaks off after `length` bytes. -/
  | invalid (length index : Nat)
  /-- The bytes end inside the character that begins at `index`. -/
  | incomplete (index : Nat)
deriving DecidableEq, Repr

def Fault.message : Fault → String
  | .invalid length index => s!"invalid utf-8 sequence of {length} bytes from index {index}"
  | .incomplete index => s!"incomplete utf-8 byte sequence from index {index}"

/-- A character that is read in part: the bits and the number of the bytes so far,
how many bytes are owed, and the range of the next one. -/
structure Pending where
  value : Nat
  taken : Nat
  owed : Nat
  low : Nat := 0x80
  high : Nat := 0xbf
deriving DecidableEq, Repr

/-- What a first byte above 0x7f begins, if it begins a character. The range of the
second byte keeps out overlong forms, surrogates and values above 0x10ffff. -/
def lead (b : Nat) : Option Pending :=
  if 0xc2 ≤ b ∧ b ≤ 0xdf then some { value := b - 0xc0, taken := 1, owed := 1 }
  else if b = 0xe0 then some { value := 0, taken := 1, owed := 2, low := 0xa0 }
  else if b = 0xed then some { value := 0xd, taken := 1, owed := 2, high := 0x9f }
  else if 0xe1 ≤ b ∧ b ≤ 0xef then some { value := b - 0xe0, taken := 1, owed := 2 }
  else if b = 0xf0 then some { value := 0, taken := 1, owed := 3, low := 0x90 }
  else if 0xf1 ≤ b ∧ b ≤ 0xf3 then some { value := b - 0xf0, taken := 1, owed := 3 }
  else if b = 0xf4 then some { value := 4, taken := 1, owed := 3, high := 0x8f }
  else none

/-- Reads on with a character that begins at `index`, `pending` as far as it is read. -/
def decodeFrom (index : Nat) (pending : Option Pending) : List UInt8 → Except Fault (List Char)
  | [] => match pending with
    | none => .ok []
    | some _ => .error (.incomplete index)
  | byte :: rest =>
    let b := byte.toNat
    match pending with
    | none =>
      if b < 0x80 then (Char.ofNat b :: ·) <$> decodeFrom (index + 1) none rest
      else match lead b with
        | none => .error (.invalid 1 index)
        | some p => decodeFrom index (some p) rest
    | some p =>
      if b < p.low ∨ p.high < b then .error (.invalid p.taken index)
      else
        let value := p.value * 64 + (b - 0x80)
        if p.owed = 1 then (Char.ofNat value :: ·) <$> decodeFrom (index + p.taken + 1) none rest
        else decodeFrom index (some { value, taken := p.taken + 1, owed := p.owed - 1 }) rest

def decode (bytes : List UInt8) : Except Fault (List Char) :=
  decodeFrom 0 none bytes

end Utf8
end Text
end OnePass
