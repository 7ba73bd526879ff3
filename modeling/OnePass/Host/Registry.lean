import OnePass.Directory
import OnePass.Ty

/-!
What the host provides: types, their static fields and their static methods, which
may be overloaded.
-/

namespace OnePass
namespace Host

structure Field where
  owner : String
  name : String
  ty : Ty
deriving DecidableEq, Repr

/-- One overload of a static method of a host type. -/
structure Method where
  owner : String
  name : String
  params : List Ty
  returnType : Ty
deriving DecidableEq, Repr

namespace Method

/-- Every argument may be stored in its parameter. -/
def isApplicable (m : Method) (args : List Ty) : Bool :=
  m.params.length == args.length && (m.params.zip args).all fun (p, a) => p.assignable a

def isExact (m : Method) (args : List Ty) : Bool :=
  m.params == args

end Method

/-- The overload that a call with arguments of these types means: the first one with
exactly these parameters, or else the first applicable one. -/
def selectOverload (candidates : List Method) (args : List Ty) : Option Method :=
  (candidates.find? (·.isExact args)).or (candidates.find? (·.isApplicable args))

inductive Member where
  | field (f : Field)
  | methods (overloads : List Method)
deriving DecidableEq, Repr

structure Entry where
  type : HostType
  fields : Directory Field := {}
  methods : Directory (List Method) := {}
deriving DecidableEq, Repr

structure Registry where
  types : Directory Entry := {}
deriving DecidableEq, Repr

inductive Registration where
  | type (t : HostType)
  | field (owner : HostType) (name : String) (ty : Ty)
  | method (owner : HostType) (name : String) (params : List Ty) (returnType : Ty)
deriving DecidableEq, Repr

namespace Registry

/-- A type that is declared again keeps its members. -/
def addType (r : Registry) (t : HostType) : Registry :=
  let entry : Entry := match r.types.find? t.name with
    | some e => { e with type := t }
    | none => { type := t }
  ⟨r.types.put t.name entry⟩

/-- The members of a type; a type that is not yet declared is declared by its first
member. -/
def entryOf (r : Registry) (owner : HostType) : Entry :=
  (r.types.find? owner.name).getD { type := owner }

def addField (r : Registry) (owner : HostType) (name : String) (ty : Ty) : Registry :=
  let e := r.entryOf owner
  ⟨r.types.put owner.name { e with fields := e.fields.put name ⟨owner.name, name, ty⟩ }⟩

/-- A further method of the same name is a further overload. -/
def addMethod (r : Registry) (owner : HostType) (name : String) (params : List Ty)
    (returnType : Ty) : Registry :=
  let e := r.entryOf owner
  let overloads := (e.methods.find? name).getD [] ++ [⟨owner.name, name, params, returnType⟩]
  ⟨r.types.put owner.name { e with methods := e.methods.put name overloads }⟩

def add (r : Registry) : Registration → Registry
  | .type t => r.addType t
  | .field owner name ty => r.addField owner name ty
  | .method owner name params returnType => r.addMethod owner name params returnType

def ofRegistrations (rs : List Registration) : Registry :=
  rs.foldl add {}

def resolveType (r : Registry) (qualifiedName : String) : Option HostType :=
  (r.types.find? qualifiedName).map Entry.type

/-- A field hides the methods of its name. -/
def resolveMember (r : Registry) (t : HostType) (name : String) : Option Member :=
  match r.types.find? t.name with
  | none => none
  | some e => match e.fields.find? name with
    | some f => some (.field f)
    | none => ((e.methods.find? name).filter (!·.isEmpty)).map .methods

theorem resolveMember_cases {r : Registry} {t : HostType} {name : String} {m : Member}
    (h : r.resolveMember t name = some m) :
    ∃ e, r.types.find? t.name = some e ∧
      ((∃ f, e.fields.find? name = some f ∧ m = .field f) ∨
        ∃ overloads, e.methods.find? name = some overloads ∧ m = .methods overloads) := by
  unfold resolveMember at h
  split at h
  · cases h
  · rename_i e he
    refine ⟨e, he, ?_⟩
    split at h
    · rename_i f hf
      exact .inl ⟨f, hf, (Option.some.inj h).symm⟩
    · obtain ⟨overloads, hoverloads, rfl⟩ := Option.map_eq_some_iff.mp h
      exact .inr ⟨overloads, (Option.filter_eq_some_iff.mp hoverloads).1, rfl⟩

end Registry
end Host
end OnePass
