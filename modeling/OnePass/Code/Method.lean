import OnePass.Instr

/-!
The parts of a module: fields, and methods with their parameters, local variables and
code.
-/

namespace OnePass

/-- A field of a module; an array field has a size. -/
structure Field where
  name : String
  ty : Ty
  arraySize : Option Nat
deriving DecidableEq, Repr

structure Param where
  name : String
  /-- The position among the parameters, counted from one. -/
  ordinal : Nat
  ty : Ty
deriving DecidableEq, Repr

structure Local where
  name : String
  ty : Ty
  /-- The number of block scopes that were open around the declaration. -/
  depth : Nat
deriving DecidableEq, Repr

structure Method where
  name : String
  returnType : Ty
  params : Array Param := #[]
  locals : Array Local := #[]
  code : Array Instr := #[]
  depth : Nat := 0
  /-- Whether a scope was ever closed that was not open. -/
  underflow : Bool := false
deriving DecidableEq, Repr

namespace Method

def emit (m : Method) (i : Instr) : Method :=
  { m with code := m.code.push i }

def openScope (m : Method) : Method :=
  { m with depth := m.depth + 1 }

def closeScope (m : Method) : Method :=
  if m.depth = 0 then { m with underflow := true } else { m with depth := m.depth - 1 }

def addParam (m : Method) (name : String) (ordinal : Nat) (ty : Ty) : Method :=
  { m with params := m.params.push ⟨name, ordinal, ty⟩ }

def addLocal (m : Method) (name : String) (ty : Ty) : Method :=
  { m with locals := m.locals.push ⟨name, ty, m.depth⟩ }

/-- Whether every scope that was opened is closed, and no other. -/
def isBalanced (m : Method) : Bool :=
  m.depth == 0 && !m.underflow

def branchTargets (m : Method) : List Label :=
  m.code.toList.filterMap Instr.branchTarget?

end Method
end OnePass
