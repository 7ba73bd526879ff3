import OnePass.Text.Quoted

/-!
The types of the language: primitive types, arrays, and types that the host
provides. A value may be stored where its own type or, for host types, one of its
supertypes is declared; a cast also goes down to a subtype and between numbers.
-/

namespace OnePass

/-- A type that the host provides, with the names of all types that it also is. -/
structure HostType where
  name : String
  supertypes : List String := []
deriving DecidableEq, Repr

namespace HostType

def isSubtypeOf (a b : HostType) : Bool :=
  a.name == b.name || a.supertypes.contains b.name

def detail (h : HostType) : String :=
  let name := Text.quotedString h.name
  let supertypes := Text.bracketed (h.supertypes.map Text.quotedString)
  s!"HostType \x7b name: {name}, supertypes: {supertypes} \x7d"

end HostType

inductive Ty where
  | int | bool | double | char | string
  /-- The opaque pointer, spelled with a star. -/
  | pointer
  | pchar
  | array (element : Ty)
  /-- The type of no value; only a method may return it. -/
  | void
  | host (type : HostType)
deriving DecidableEq, Repr

namespace Ty

def element? : Ty → Option Ty
  | array t => some t
  | _ => none

def isArray (t : Ty) : Bool :=
  t.element?.isSome

/-- Numbers may be cast to each other, and counted up and down. -/
def isNumeric : Ty → Bool
  | int | double | char => true
  | _ => false

/-- Whether a value of type `source` may be stored where `target` is declared. -/
def assignable : (target source : Ty) → Bool
  | host target, host source => source.isSubtypeOf target
  | target, source => target == source

def castable (target source : Ty) : Bool :=
  assignable target source || assignable source target ||
    (target.isNumeric && source.isNumeric)

def text : Ty → String
  | int => "int"
  | bool => "bool"
  | double => "double"
  | char => "char"
  | string => "string"
  | pointer => "*"
  | pchar => "pchar"
  | array t => t.text ++ "[]"
  | void => "void"
  | host h => h.name

def detail : Ty → String
  | int => "Int"
  | bool => "Bool"
  | double => "Double"
  | char => "Char"
  | string => "String"
  | pointer => "Pointer"
  | pchar => "NativeCharPtr"
  | array t => "Array(" ++ t.detail ++ ")"
  | void => "Void"
  | host h => "Host(" ++ h.detail ++ ")"

def listText (ts : List Ty) : String :=
  ", ".intercalate (ts.map text)

end Ty
end OnePass
