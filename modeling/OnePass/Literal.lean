import OnePass.Binary64.Writing
import OnePass.Ty

/-!
Constants, as a program spells them and as an instruction loads them.
-/

namespace OnePass

inductive Literal where
  | int (value : Int32)
  | double (value : Binary64)
  | bool (value : Bool)
  | char (value : Char)
  | str (value : String)
deriving DecidableEq, Repr

namespace Literal

def ty : Literal → Ty
  | int _ => .int
  | double _ => .double
  | bool _ => .bool
  | char _ => .char
  | str _ => .string

def boolText (b : Bool) : String :=
  if b then "true" else "false"

/-- The spelling that a program would use; NaN, infinities and negative numbers have
none, and characters without a glyph are shown by their code points. -/
def text : Literal → String
  | int v => toString v.toInt
  | double v => v.write .literal
  | bool v => boolText v
  | char c => Text.quotedChar c
  | str s => Text.quotedString s

end Literal
end OnePass
