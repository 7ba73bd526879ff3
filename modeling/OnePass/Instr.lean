import OnePass.Host.Registry
import OnePass.Literal
import OnePass.Predeclared

/-!
Instructions of the stack machine that programs are compiled to, with their operands.
-/

namespace OnePass

/-- A branch target, by its number within the module. -/
structure Label where
  index : Nat
deriving DecidableEq, Repr

namespace Label

def text (l : Label) : String :=
  s!"L{l.index}"

end Label

/-- A field of the module, or a static field of a host type. -/
inductive FieldRef where
  | module (index : Nat)
  | host (owner name : String)
deriving DecidableEq, Repr

namespace FieldRef

def text : FieldRef → String
  | module index => s!"field#{index}"
  | host owner name => s!"{owner}.{name}"

end FieldRef

inductive Storage where
  | localVar (index : Nat)
  | param (index : Nat)
  | field (ref : FieldRef)
  /-- An element of an array field; the array and the index are on the stack. -/
  | element (ref : FieldRef)
deriving DecidableEq, Repr

namespace Storage

def text : Storage → String
  | localVar index => s!"local#{index}"
  | param index => s!"param#{index}"
  | field ref => ref.text
  | element ref => ref.text ++ "[]"

end Storage

/-- Counting up or down, before or after the value is taken. -/
inductive Count where
  | preInc | preDec | postInc | postDec
deriving DecidableEq, Repr

namespace Count

def text : Count → String
  | preInc => "PreInc"
  | preDec => "PreDec"
  | postInc => "PostInc"
  | postDec => "PostDec"

end Count

inductive UnaryOp where
  | neg | bitNot | not
deriving DecidableEq, Repr

namespace UnaryOp

def text : UnaryOp → String
  | neg => "neg"
  | bitNot => "not"
  | not => "lnot"

end UnaryOp

inductive AdditiveOp where
  | add | sub | bitOr | or | xor
deriving DecidableEq, Repr

namespace AdditiveOp

def text : AdditiveOp → String
  | add => "add"
  | sub => "sub"
  | bitOr => "or"
  | or => "lor"
  | xor => "xor"

end AdditiveOp

inductive MultiplicativeOp where
  | mul | div | rem | bitAnd | and
deriving DecidableEq, Repr

namespace MultiplicativeOp

def text : MultiplicativeOp → String
  | mul => "mul"
  | div => "div"
  | rem => "rem"
  | bitAnd => "and"
  | and => "land"

end MultiplicativeOp

inductive Relation where
  | lt | le | eq | ne | ge | gt
deriving DecidableEq, Repr

namespace Relation

def text : Relation → String
  | lt => "lt"
  | le => "le"
  | eq => "eq"
  | ne => "ne"
  | ge => "ge"
  | gt => "gt"

end Relation

inductive CallTarget where
  | method (index : Nat)
  | external (method : Host.Method)
  | intrinsic (builtin : Builtin) (args : Nat)
deriving DecidableEq, Repr

namespace CallTarget

def text : CallTarget → String
  | method index => s!"call method#{index}"
  | external m => s!"call {m.owner}.{m.name}"
  | intrinsic builtin args => s!"intrinsic {builtin.name}/{args}"

end CallTarget

inductive Instr where
  | const (value : Literal)
  | read (storage : Storage)
  | loadBase (ref : FieldRef)
  | loadElement (ref : FieldRef)
  | count (storage : Storage) (mode : Count)
  | store (storage : Storage)
  | unary (op : UnaryOp) (ty : Ty)
  | additive (op : AdditiveOp) (left right : Ty)
  | multiplicative (op : MultiplicativeOp) (left right : Ty)
  | concat
  | compare (relation : Relation) (ty : Ty)
  | cast (target source : Ty)
  | assignCast (target source : Ty)
  | pop
  | call (target : CallTarget)
  | branch (label : Label)
  /-- Taken when the value on the stack is false. -/
  | branchFalse (label : Label)
  | ret
deriving DecidableEq, Repr

namespace Instr

def branchTarget? : Instr → Option Label
  | branch l | branchFalse l => some l
  | _ => none

/-- Counts at a storage; nothing if no counting is asked for. -/
def count? (storage : Storage) (mode : Option Count) : Option Instr :=
  mode.map (count storage)

/-- Brings a value to the type it is stored with; nothing if it has that type. -/
def assignCast? (target source : Ty) : Option Instr :=
  if target = source then none else some (assignCast target source)

def text : Instr → String
  | const value => s!"const {value.text}"
  | read storage => s!"read {storage.text}"
  | loadBase ref => s!"ldbase {ref.text}"
  | loadElement ref => s!"ldelem {ref.text}"
  | count storage mode => s!"inc {storage.text} {mode.text}"
  | store storage => s!"store {storage.text}"
  | unary op ty => s!"{op.text}.{ty.text}"
  | additive op left right => s!"{op.text} {left.text} {right.text}"
  | multiplicative op left right => s!"{op.text} {left.text} {right.text}"
  | concat => "concat"
  | compare relation ty => s!"cmp.{relation.text} {ty.text}"
  | cast target source => s!"cast {source.text} -> {target.text}"
  | assignCast target source => s!"acast {source.text} -> {target.text}"
  | pop => "pop"
  | call target => target.text
  | branch l => s!"br {l.text}"
  | branchFalse l => s!"brfalse {l.text}"
  | ret => "ret"

end Instr
end OnePass
