import OnePass.Instr

/-!
Symbols: what a name means where it is visible.
-/

namespace OnePass

inductive Meaning where
  | type (ty : Ty)
  | field (ref : FieldRef) (ty : Ty)
  | localVar (index : Nat) (ty : Ty)
  /-- A parameter has no index before its method is opened. -/
  | param (index : Option Nat) (ty : Ty) (ordinal : Nat)
  /-- A method has no index before its signature is complete. -/
  | method (returnType : Ty) (params : List Ty) (index : Option Nat)
  | function (builtin : Builtin) (returnType : Ty) (params : List Ty) (variadic : Bool)
  | external (overloads : List Host.Method)
deriving DecidableEq, Repr

structure Symbol where
  name : String
  meaning : Meaning
deriving DecidableEq, Repr

namespace Symbol

def ofBuiltin (b : Builtin) : Symbol :=
  ⟨b.name, .function b b.returnType b.params b.isVariadic⟩

def kind (s : Symbol) : String :=
  match s.meaning with
  | .type _ => "type"
  | .field .. => "field"
  | .localVar .. => "local"
  | .param .. => "parameter"
  | .method .. => "method"
  | .function .. => "function"
  | .external _ => "external method"

def isCallable (s : Symbol) : Bool :=
  match s.meaning with
  | .method .. | .function .. | .external _ => true
  | _ => false

def text (s : Symbol) : String :=
  match s.meaning with
  | .type ty => s!"type {s.name} = {ty.text}"
  | .field _ ty => s!"field {ty.text} {s.name}"
  | .localVar _ ty => s!"local {ty.text} {s.name}"
  | .param _ ty ordinal => s!"param #{ordinal} {ty.text} {s.name}"
  | .method returnType params _ =>
    s!"method {returnType.text} {s.name}({Ty.listText params})"
  | .function _ returnType params variadic =>
    let rest := if variadic then ", ..." else ""
    s!"function {returnType.text} {s.name}({Ty.listText params}{rest})"
  | .external overloads => s!"external {s.name} ({overloads.length} overloads)"

end Symbol
end OnePass
