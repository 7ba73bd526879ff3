import OnePass.Code.Method

/-!
The code of a module while it is being written. Instructions go to the method that is
open: a declared one, or the entry method when none is. Labels belong to the module and
to the method in which they were made.
-/

namespace OnePass

structure LabelState where
  /-- The index of the method in which the label was made. -/
  method : Nat
  /-- The instruction before which it was marked first. -/
  target : Option Nat := none
  marks : Nat := 0
deriving DecidableEq, Repr

structure Code where
  fields : Array Field := #[]
  entry : Method
  /-- The methods that have been left, in the order of their declarations. -/
  closed : Array Method := #[]
  body : Option Method := none
  labels : Array LabelState := #[]
deriving DecidableEq, Repr

namespace Code

/-- No code yet; the entry method takes no parameters and returns nothing. -/
def empty (entryName : String) : Code :=
  { entry := { name := entryName, returnType := .void } }

/-- All methods by index, the entry method first. -/
def methods (c : Code) : Array Method :=
  #[c.entry] ++ c.closed ++ c.body.toArray

def current (c : Code) : Method :=
  c.body.getD c.entry

def currentIndex (c : Code) : Nat :=
  if c.body.isSome then c.closed.size + 1 else 0

def updateCurrent (c : Code) (f : Method → Method) : Code :=
  match c.body with
  | some m => { c with body := some (f m) }
  | none => { c with entry := f c.entry }

def emit (c : Code) (i : Instr) : Code :=
  c.updateCurrent (·.emit i)

def openScope (c : Code) : Code :=
  c.updateCurrent Method.openScope

def closeScope (c : Code) : Code :=
  c.updateCurrent Method.closeScope

def addParam (c : Code) (name : String) (ordinal : Nat) (ty : Ty) : Code :=
  c.updateCurrent (·.addParam name ordinal ty)

def addLocal (c : Code) (name : String) (ty : Ty) : Code :=
  c.updateCurrent (·.addLocal name ty)

def addField (c : Code) (name : String) (ty : Ty) (arraySize : Option Nat) : Code :=
  { c with fields := c.fields.push ⟨name, ty, arraySize⟩ }

/-- Leaves the open method for the entry method. -/
def closeMethod (c : Code) : Code :=
  { c with closed := c.closed ++ c.body.toArray, body := none }

/-- Opens a new method and leaves the one that was open. -/
def addMethod (c : Code) (name : String) (returnType : Ty) : Code :=
  { c.closeMethod with body := some { name, returnType } }

def newLabel (c : Code) : Code :=
  { c with labels := c.labels.push { method := c.currentIndex } }

def nextLabel (c : Code) : Label :=
  ⟨c.labels.size⟩

/-- Lets a label mean the next instruction of the open method; only its first mark sets
its target. Numbers that no label has are ignored. -/
def markLabel (c : Code) (l : Label) : Code :=
  let pc := c.current.code.size
  { c with labels := c.labels.modify l.index fun s =>
      { s with marks := s.marks + 1, target := s.target.or (some pc) } }

inductive Request where
  | emit (i : Instr)
  | openScope
  | closeScope
  | addParam (name : String) (ordinal : Nat) (ty : Ty)
  | addLocal (name : String) (ty : Ty)
  | addField (name : String) (ty : Ty) (arraySize : Option Nat)
  | addMethod (name : String) (returnType : Ty) (params : List Ty)
  | closeMethod
  | newLabel
  | markLabel (l : Label)
deriving DecidableEq, Repr

def perform (c : Code) : Request → Code
  | .emit i => c.emit i
  | .openScope => c.openScope
  | .closeScope => c.closeScope
  | .addParam name ordinal ty => c.addParam name ordinal ty
  | .addLocal name ty => c.addLocal name ty
  | .addField name ty arraySize => c.addField name ty arraySize
  | .addMethod name returnType _ => c.addMethod name returnType
  | .closeMethod => c.closeMethod
  | .newLabel => c.newLabel
  | .markLabel l => c.markLabel l

end Code
end OnePass
