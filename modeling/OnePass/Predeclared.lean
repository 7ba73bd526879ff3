import OnePass.Ty

/-!
Names that every program may use without declaring them: primitive types and builtin
functions.
-/

namespace OnePass

inductive Builtin where
  | abs | sqr | odd | ord | scanf | printf
deriving DecidableEq, Repr

namespace Builtin

def name : Builtin → String
  | abs => "abs"
  | sqr => "sqr"
  | odd => "odd"
  | ord => "ord"
  | scanf => "scanf"
  | printf => "printf"

def all : List Builtin :=
  [abs, sqr, odd, ord, scanf, printf]

def returnType : Builtin → Ty
  | odd => .bool
  | _ => .int

def params : Builtin → List Ty
  | abs | sqr | odd => [.int]
  | ord => [.char]
  | scanf | printf => [.string]

/-- Takes any number of further arguments behind its parameters. -/
def isVariadic : Builtin → Bool
  | scanf | printf => true
  | _ => false

def ofName? (s : String) : Option Builtin :=
  all.find? (·.name == s)

end Builtin

namespace Ty

/-- The primitive types by name. The opaque pointer has a mark in place of a name. -/
def primitives : List (String × Ty) :=
  [("int", .int), ("bool", .bool), ("double", .double), ("char", .char), ("string", .string),
   ("pchar", .pchar), ("void", .void), ("*", .pointer)]

def primitive? (name : String) : Option Ty :=
  primitives.lookup name

end Ty
end OnePass
