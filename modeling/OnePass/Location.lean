/-!
Positions in a source text. Lines and columns count from one; a column counts
characters, an offset counts bytes of the UTF-8 encoding.
-/

namespace OnePass

structure Location where
  line : Nat
  column : Nat
  offset : Nat
deriving DecidableEq, Repr

namespace Location

def start : Location := ⟨1, 1, 0⟩

/-- Where names stand that the language declares by itself. -/
def builtin : Location := ⟨0, 0, 0⟩

/-- A carriage return takes a byte and no column. -/
def advance (l : Location) (c : Char) : Location :=
  if c = '\n' then ⟨l.line + 1, 1, l.offset + c.utf8Size⟩
  else if c = '\r' then { l with offset := l.offset + c.utf8Size }
  else { l with column := l.column + 1, offset := l.offset + c.utf8Size }

def advanceOver (l : Location) (text : List Char) : Location :=
  text.foldl advance l

def text (l : Location) : String :=
  s!"{l.line}:{l.column}"

theorem advanceOver_append (l : Location) (a b : List Char) :
    l.advanceOver (a ++ b) = (l.advanceOver a).advanceOver b :=
  List.foldl_append

end Location
end OnePass
