import OnePass.Catalog
import OnePass.Location
import OnePass.Scope.Symbol

/-!
Tables of symbols. Below all block scopes lie two scopes that are never closed: the
universe of predeclared names and the scope of fields and methods. A name that no scope
declares may still be a member of a host type, written behind the type and a dot.
-/

namespace OnePass

structure Binding where
  symbol : Symbol
  location : Location
deriving DecidableEq, Repr

abbrev Frame := Catalog Binding

namespace Frame

def declare (f : Frame) (symbol : Symbol) (location : Location) : Frame :=
  f.put symbol.name ⟨symbol, location⟩

/-- Gives a declared name another symbol. Name and location stay as declared, whatever
the symbol's own name is. -/
def overwrite (f : Frame) (name : String) (symbol : Symbol) : Frame :=
  match f.find? name with
  | some b => f.put name { b with symbol }
  | none => f

def lines (f : Frame) (title : String) : List String :=
  s!"[{title}]" :: f.values.map fun b => s!"  {b.symbol.text} @{b.location.text}"

end Frame

structure Table where
  predeclared : Frame := {}
  fields : Frame := {}
  /-- The open block scopes, the innermost first. -/
  blocks : List Frame := []
  /-- Namespaces in which types may be named without them. -/
  namespaces : List String := []
  host : Host.Registry
deriving DecidableEq, Repr

namespace Table

def frames (t : Table) : List Frame :=
  t.blocks ++ [t.fields, t.predeclared]

/-- The depth of the innermost scope; the universe has depth zero. -/
def depth (t : Table) : Nat :=
  t.blocks.length + 1

def innermost (t : Table) : Frame :=
  t.blocks.headD t.fields

def updateInnermost (t : Table) (f : Frame → Frame) : Table :=
  match t.blocks with
  | b :: rest => { t with blocks := f b :: rest }
  | [] => { t with fields := f t.fields }

def openScope (t : Table) : Table :=
  { t with blocks := {} :: t.blocks }

def closeScope (t : Table) : Table :=
  { t with blocks := t.blocks.tail }

def declare (t : Table) (symbol : Symbol) (location : Location) : Table :=
  t.updateInnermost (·.declare symbol location)

/-- Declares a field of the module, from inside of any scope. -/
def declareField (t : Table) (symbol : Symbol) (location : Location) : Table :=
  { t with fields := t.fields.declare symbol location }

def predeclare (t : Table) (symbol : Symbol) : Table :=
  { t with predeclared := t.predeclared.declare symbol .builtin }

def addUsing (t : Table) (ns : String) : Table :=
  if t.namespaces.contains ns then t else { t with namespaces := t.namespaces ++ [ns] }

def declaredAt? (t : Table) (name : String) : Option Location :=
  (t.innermost.find? name).map Binding.location

def lookup (t : Table) (name : String) : Option Symbol :=
  (t.frames.findSome? (·.find? name)).map Binding.symbol

/-- A type of the host, by its full name or below one of the namespaces in use. -/
def hostType? (t : Table) (name : String) : Option HostType :=
  (t.host.resolveType name).or
    (t.namespaces.findSome? fun ns => t.host.resolveType (ns ++ "." ++ name))

def splitAtLastDot : List Char → Option (List Char × List Char)
  | [] => none
  | c :: rest => match splitAtLastDot rest with
    | some (container, member) => some (c :: container, member)
    | none => if c = '.' then some ([], rest) else none

/-- A name as a member of a host type: the type and the symbol for the member. -/
def external? (t : Table) (name : String) : Option (HostType × Symbol) :=
  match splitAtLastDot name.toList with
  | none | some ([], _) | some (_, []) => none
  | some (container, member) => match t.hostType? (String.ofList container) with
    | none => none
    | some owner => match t.host.resolveMember owner (String.ofList member) with
      | none => none
      | some (.field f) => some (owner, ⟨name, .field (.host f.owner f.name) f.ty⟩)
      | some (.methods overloads) => some (owner, ⟨name, .external overloads⟩)

/-- What a name means: its innermost declaration, or else a member of a host type. -/
def resolve (t : Table) (name : String) : Option Symbol :=
  (t.lookup name).or ((t.external? name).map Prod.snd)

/-- What a name means where a type is expected. A declared name that is no type hides a
host type. -/
def resolveType (t : Table) (name : String) : Option Ty :=
  match t.lookup name with
  | some ⟨_, .type ty⟩ => some ty
  | some _ => none
  | none => (t.hostType? name).map .host

def symbolAt? (t : Table) (depth : Nat) (name : String) : Option Symbol :=
  (t.frames.reverse[depth]?.bind (·.find? name)).map Binding.symbol

def overwriteAt (t : Table) (depth : Nat) (name : String) (symbol : Symbol) : Table :=
  match depth with
  | 0 => { t with predeclared := t.predeclared.overwrite name symbol }
  | 1 => { t with fields := t.fields.overwrite name symbol }
  | n + 2 =>
    if n < t.blocks.length then
      { t with blocks := t.blocks.modify (t.blocks.length - 1 - n) (·.overwrite name symbol) }
    else t

inductive Edit where
  | openScope
  | closeScope
  | declare (symbol : Symbol) (location : Location)
  | declareField (symbol : Symbol) (location : Location)
  | predeclare (symbol : Symbol)
deriving DecidableEq, Repr

def edit (t : Table) : Edit → Table
  | .openScope => t.openScope
  | .closeScope => t.closeScope
  | .declare symbol location => t.declare symbol location
  | .declareField symbol location => t.declareField symbol location
  | .predeclare symbol => t.predeclare symbol

def title : Nat → String
  | 0 => "universe"
  | 1 => "fields"
  | n => s!"scope {n}"

def text (t : Table) : String :=
  let n := t.frames.length
  String.join ((t.frames.zipIdx.flatMap fun (f, i) => f.lines (title (n - 1 - i))).map (· ++ "\n"))

def summary (t : Table) : String :=
  let namespaces := Text.bracketed (t.namespaces.map Text.quotedString)
  s!"SymbolTable \x7b depth: {t.frames.length}, using: {namespaces} \x7d"

end Table
end OnePass
