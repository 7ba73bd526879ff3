import Mathlib.Data.List.Induction
import OnePass.Proofs.Namespaces

/-!
What a host provides, told by its registrations in the order in which they were made. A type is what
it was declared as last, or else what its first member says of it; a field has the type that was
given last; a method has all of its overloads. The registry keeps just that for every name, and a
qualified name means the same in every table over it.
-/

namespace OnePass
namespace Host
namespace Registration

/-- The type that is declared or gets a member. -/
def owner : Registration → HostType
  | type t => t
  | field owner _ _ => owner
  | method owner _ _ _ => owner

/-- The type of this name that is declared. -/
def declares? (q : String) : Registration → Option HostType
  | type t => if t.name = q then some t else none
  | field .. | method .. => none

/-- The type of this name that gets a member. -/
def extends? (q : String) : Registration → Option HostType
  | type _ => none
  | field owner _ _ | method owner _ _ _ => if owner.name = q then some owner else none

/-- The type that is given to the field `m` of the type `q`. -/
def fieldType? (q m : String) : Registration → Option Ty
  | field owner name ty => if owner.name = q ∧ name = m then some ty else none
  | type _ | method .. => none

/-- The overload that is given to the method `m` of the type `q`. -/
def overload? (q m : String) : Registration → Option Method
  | method owner name params returnType =>
    if owner.name = q ∧ name = m then some ⟨q, m, params, returnType⟩ else none
  | type _ | field .. => none

/-! What a history of registrations says of a name -/

/-- The last declaration of a type, or else the owner of its first member. -/
def type? (rs : List Registration) (q : String) : Option HostType :=
  (rs.reverse.findSome? (declares? q)).or (rs.findSome? (extends? q))

def lastFieldType? (rs : List Registration) (q m : String) : Option Ty :=
  rs.reverse.findSome? (fieldType? q m)

def overloads (rs : List Registration) (q m : String) : List Method :=
  rs.filterMap (overload? q m)

/-- The overloads of a method that has some. -/
def overloads? (rs : List Registration) (q m : String) : Option (List Method) :=
  if overloads rs q m = [] then none else some (overloads rs q m)

/-- A field hides the methods of its name. -/
def meaning? (rs : List Registration) (q m : String) : Option Meaning :=
  ((lastFieldType? rs q m).map (.field (.host q m))).or ((overloads? rs q m).map .external)

variable (rs : List Registration) (x : Registration) (q m : String)

theorem type?_concat :
    type? (rs ++ [x]) q = (x.declares? q).or ((type? rs q).or (x.extends? q)) := by
  rw [type?, type?, List.reverse_append, List.reverse_singleton, List.findSome?_append,
    List.findSome?_append, List.findSome?_singleton, List.findSome?_singleton, Option.or_assoc,
    Option.or_assoc]

theorem lastFieldType?_concat :
    lastFieldType? (rs ++ [x]) q m = (x.fieldType? q m).or (lastFieldType? rs q m) := by
  rw [lastFieldType?, lastFieldType?, List.reverse_append, List.reverse_singleton,
    List.findSome?_append, List.findSome?_singleton]

theorem overloads_concat :
    overloads (rs ++ [x]) q m = overloads rs q m ++ (x.overload? q m).toList := by
  rw [overloads, overloads, List.filterMap_append, List.filterMap_cons]
  cases overload? q m x <;> rfl

theorem overloads?_concat : overloads? (rs ++ [x]) q m =
    ((x.overload? q m).map fun o => (overloads? rs q m).getD [] ++ [o]).or (overloads? rs q m) := by
  simp only [overloads?, overloads_concat]
  cases x.overload? q m with
  | none => simp
  | some o => by_cases h : overloads rs q m = [] <;> simp [h]

theorem filter_overloads? : (overloads? rs q m).filter (!·.isEmpty) = overloads? rs q m := by
  rw [overloads?]
  split
  · rfl
  · rename_i h
    simp [h]

variable {rs x q m}

/-- A registration says nothing of other types than its own. -/
theorem silent_of_ne (h : x.owner.name ≠ q) :
    x.declares? q = none ∧ x.extends? q = none ∧ (∀ m, x.fieldType? q m = none) ∧
      ∀ m, x.overload? q m = none := by
  cases x <;> simp_all [owner, declares?, extends?, fieldType?, overload?]

/-- A type with a registration of its own is known by its name. -/
theorem exists_type? (h : ∃ x ∈ rs, x.owner.name = q) : ∃ t, type? rs q = some t ∧ t.name = q := by
  have hdeclares (x : Registration) (t : HostType) (h : x.declares? q = some t) : t.name = q := by
    cases x <;> simp only [declares?, Option.ite_none_right_eq_some, reduceCtorEq] at h
    exact Option.some.inj h.2 ▸ h.1
  have hextends (x : Registration) (t : HostType) (h : x.extends? q = some t) : t.name = q := by
    cases x <;> simp only [extends?, Option.ite_none_right_eq_some, reduceCtorEq] at h
    all_goals exact Option.some.inj h.2 ▸ h.1
  cases htype : type? rs q with
  | some t =>
      refine ⟨t, rfl, ?_⟩
      rcases Option.or_eq_some_iff.mp htype with ht | ⟨-, ht⟩
      · obtain ⟨x, -, hx⟩ := List.exists_of_findSome?_eq_some ht
        exact hdeclares x t hx
      · obtain ⟨x, -, hx⟩ := List.exists_of_findSome?_eq_some ht
        exact hextends x t hx
  | none =>
      obtain ⟨x, hx, rfl⟩ := h
      obtain ⟨hnone, hnone'⟩ := Option.or_eq_none_iff.mp htype
      have hx₁ := List.findSome?_eq_none_iff.mp hnone x (List.mem_reverse.mpr hx)
      have hx₂ := List.findSome?_eq_none_iff.mp hnone' x hx
      cases x <;> simp [declares?, extends?, owner] at hx₁ hx₂

/-- What a registration does to the entry of its type. -/
def amend (e : Entry) : Registration → Entry
  | type t => { e with type := t }
  | field owner name ty => { e with fields := e.fields.put name ⟨owner.name, name, ty⟩ }
  | method owner name params returnType =>
    let overload : Method := ⟨owner.name, name, params, returnType⟩
    { e with methods := e.methods.put name ((e.methods.find? name).getD [] ++ [overload]) }

end Registration

namespace Registry

open Registration

/-- The field `m` of the type `q`. -/
def field? (r : Registry) (q m : String) : Option Field :=
  (r.types.find? q).bind (·.fields.find? m)

/-- The methods `m` of the type `q`. -/
def methods? (r : Registry) (q m : String) : Option (List Method) :=
  (r.types.find? q).bind (·.methods.find? m)

variable (r : Registry) (x : Registration) (t : HostType) (q m : String)

theorem type_entryOf : (r.entryOf t).type = (r.resolveType t.name).getD t := by
  rw [entryOf, resolveType]
  cases r.types.find? t.name <;> rfl

theorem field?_entryOf : (r.entryOf t).fields.find? m = r.field? t.name m := by
  rw [entryOf, field?]
  cases r.types.find? t.name <;> rfl

theorem methods?_entryOf : (r.entryOf t).methods.find? m = r.methods? t.name m := by
  rw [entryOf, methods?]
  cases r.types.find? t.name <;> rfl

/-- One step of a registration: the entry of its own type is amended, all others stay. -/
theorem find?_add : (r.add x).types.find? q =
    if x.owner.name = q then some (x.amend (r.entryOf x.owner)) else r.types.find? q := by
  cases x with
  | type t =>
      rw [add, addType, Directory.find?_put, owner, amend, entryOf]
      cases r.types.find? t.name <;> rfl
  | field owner name ty => exact Directory.find?_put ..
  | method owner name params returnType => exact Directory.find?_put ..

theorem resolveType_add :
    (r.add x).resolveType q = (x.declares? q).or ((r.resolveType q).or (x.extends? q)) := by
  rw [resolveType, find?_add]
  by_cases h : x.owner.name = q
  · subst h
    rw [if_pos rfl, Option.map_some]
    cases x with
    | type t => simp [owner, amend, declares?]
    | field _ _ _ | method _ _ _ _ =>
        simp [owner, amend, declares?, extends?, type_entryOf]
  · obtain ⟨hdeclares, hextends, -⟩ := silent_of_ne h
    rw [if_neg h, hdeclares, hextends, Option.none_or, Option.or_none]
    rfl

theorem field?_add : (r.add x).field? q m =
    ((x.fieldType? q m).map fun ty => ⟨q, m, ty⟩).or (r.field? q m) := by
  rw [field?, find?_add]
  by_cases h : x.owner.name = q
  · subst h
    rw [if_pos rfl, Option.bind_some]
    cases x with
    | type t => simp [owner, amend, fieldType?, field?_entryOf]
    | method owner _ _ _ => simp [Registration.owner, amend, fieldType?, field?_entryOf]
    | field owner name ty =>
        by_cases hm : name = m <;>
          simp [Registration.owner, amend, fieldType?, field?_entryOf, Directory.find?_put, hm]
  · obtain ⟨-, -, hfield, -⟩ := silent_of_ne h
    rw [if_neg h, hfield]
    rfl

theorem methods?_add : (r.add x).methods? q m =
    ((x.overload? q m).map fun o => (r.methods? q m).getD [] ++ [o]).or (r.methods? q m) := by
  rw [methods?, find?_add]
  by_cases h : x.owner.name = q
  · subst h
    rw [if_pos rfl, Option.bind_some]
    cases x with
    | type t => simp [owner, amend, overload?, methods?_entryOf]
    | field owner _ _ => simp [Registration.owner, amend, overload?, methods?_entryOf]
    | method owner name params returnType =>
        by_cases hm : name = m <;>
          simp [Registration.owner, amend, overload?, methods?_entryOf, Directory.find?_put, hm]
  · obtain ⟨-, -, -, hoverload⟩ := silent_of_ne h
    rw [if_neg h, hoverload]
    rfl

/-! The registry after all registrations -/

theorem ofRegistrations_concat (rs : List Registration) :
    ofRegistrations (rs ++ [x]) = (ofRegistrations rs).add x :=
  List.foldl_append

variable (rs : List Registration)

theorem resolveType_ofRegistrations : (ofRegistrations rs).resolveType q = type? rs q := by
  induction rs using List.reverseRecOn with
  | nil => rfl
  | append_singleton rs x ih => rw [ofRegistrations_concat, resolveType_add, ih, type?_concat]

theorem field?_ofRegistrations : (ofRegistrations rs).field? q m =
    (lastFieldType? rs q m).map fun ty => ⟨q, m, ty⟩ := by
  induction rs using List.reverseRecOn with
  | nil => rfl
  | append_singleton rs x ih =>
      rw [ofRegistrations_concat, field?_add, ih, lastFieldType?_concat, Option.map_or]

theorem methods?_ofRegistrations : (ofRegistrations rs).methods? q m = overloads? rs q m := by
  induction rs using List.reverseRecOn with
  | nil => rfl
  | append_singleton rs x ih => rw [ofRegistrations_concat, methods?_add, ih, overloads?_concat]

theorem resolveMember_eq : r.resolveMember t m =
    ((r.field? t.name m).map .field).or
      (((r.methods? t.name m).filter (!·.isEmpty)).map .methods) := by
  rw [resolveMember, field?, methods?]
  cases r.types.find? t.name with
  | none => rfl
  | some e => cases he : e.fields.find? m <;> simp [he]

end Registry
end Host

/-! Qualified names -/

namespace Table

theorem splitAtLastDot_eq_none {cs : List Char} (h : '.' ∉ cs) : splitAtLastDot cs = none := by
  induction cs with
  | nil => rfl
  | cons c cs ih =>
      obtain ⟨hc, hcs⟩ := not_or.mp (mt List.mem_cons.mpr h)
      rw [splitAtLastDot, ih hcs]
      exact if_neg (Ne.symm hc)

theorem splitAtLastDot_qualified (q : List Char) {m : List Char} (h : '.' ∉ m) :
    splitAtLastDot (q ++ '.' :: m) = some (q, m) := by
  have hmember : splitAtLastDot ('.' :: m) = some ([], m) := by
    rw [splitAtLastDot, splitAtLastDot_eq_none h]
    rfl
  have hqualified := splitAtLastDot_append hmember q
  rwa [List.append_nil] at hqualified

/-- A member that is written behind the full name of its type, whatever namespaces are in use. -/
theorem external?_qualified {t : Table} {q m : String} {owner : HostType}
    (howner : t.host.resolveType q = some owner) (hq : q ≠ "") (hm : m ≠ "")
    (hdot : '.' ∉ m.toList) :
    (t.external? (q ++ "." ++ m)).map Prod.snd =
      ((t.host.field? owner.name m).map fun f =>
          ⟨q ++ "." ++ m, .field (.host f.owner f.name) f.ty⟩).or
        (((t.host.methods? owner.name m).filter (!·.isEmpty)).map fun ms =>
          ⟨q ++ "." ++ m, .external ms⟩) := by
  have hsplit : splitAtLastDot (q ++ "." ++ m).toList = some (q.toList, m.toList) := by
    rw [String.toList_append, String.toList_append, List.append_assoc]
    exact splitAtLastDot_qualified q.toList hdot
  have htype : t.hostType? (String.ofList q.toList) = some owner := by
    rw [String.ofList_toList, hostType?, howner, Option.some_or]
  obtain ⟨c, cs, hcs⟩ := List.exists_cons_of_ne_nil (mt String.toList_eq_nil_iff.mp hq)
  obtain ⟨d, ds, hds⟩ := List.exists_cons_of_ne_nil (mt String.toList_eq_nil_iff.mp hm)
  rw [hcs] at hsplit htype
  rw [external?, hsplit, hds]
  simp only [htype, ← hds, String.ofList_toList, Host.Registry.resolveMember_eq]
  cases t.host.field? owner.name m with
  | some f => rfl
  | none => cases (t.host.methods? owner.name m).filter (!·.isEmpty) <;> rfl

/-- After any registrations a type of the host is what was declared last under its name, or else
what its first member was registered with. A member behind the full name of its type means the field
that was registered last, or else all overloads in the order of their registrations, where no scope
declares the name; the namespaces in use do not matter. -/
theorem resolve_registered (rs : List Host.Registration) :
    (∀ q, (Host.Registry.ofRegistrations rs).resolveType q = Host.Registration.type? rs q) ∧
    ∀ (t : Table) (q m : String), t.host = .ofRegistrations rs → (∃ x ∈ rs, x.owner.name = q) →
      q ≠ "" → m ≠ "" → '.' ∉ m.toList → (∀ f ∈ t.frames, f.find? (q ++ "." ++ m) = none) →
      t.resolve (q ++ "." ++ m) =
        (Host.Registration.meaning? rs q m).map fun meaning => ⟨q ++ "." ++ m, meaning⟩ := by
  refine ⟨fun q => Host.Registry.resolveType_ofRegistrations q rs, ?_⟩
  intro t q m ht hregistered hq hm hdot hframes
  obtain ⟨owner, howner, hname⟩ := Host.Registration.exists_type? hregistered
  have hlookup : t.lookup (q ++ "." ++ m) = none := by
    rw [lookup, List.findSome?_eq_none_iff.mpr hframes, Option.map_none]
  rw [← Host.Registry.resolveType_ofRegistrations, ← ht] at howner
  rw [resolve, hlookup, Option.none_or, external?_qualified howner hq hm hdot, hname, ht,
    Host.Registry.field?_ofRegistrations, Host.Registry.methods?_ofRegistrations,
    Host.Registration.filter_overloads?, Host.Registration.meaning?, Option.map_or,
    Option.map_map, Option.map_map, Option.map_map]
  rfl

/-- A type that gets a method before it is declared, and members with other supertypes after it. -/
theorem resolve_registered_redeclared :
    let rs : List Host.Registration :=
      [.method ⟨"A.B", ["X"]⟩ "f" [.int] .int, .type ⟨"A.B", ["Y"]⟩,
        .field ⟨"A.B", ["Z"]⟩ "c" .int, .method ⟨"A.B", []⟩ "f" [] .void,
        .field ⟨"A.B", []⟩ "c" .double, .method ⟨"A.B", []⟩ "c" [] .int]
    let t : Table := { host := .ofRegistrations rs, namespaces := ["A"] }
    t.host.resolveType "A.B" = some ⟨"A.B", ["Y"]⟩ ∧
    t.resolve "A.B.f" = some ⟨"A.B.f", .external
      [⟨"A.B", "f", [.int], .int⟩, ⟨"A.B", "f", [], .void⟩]⟩ ∧
    t.resolve "A.B.c" = some ⟨"A.B.c", .field (.host "A.B" "c") .double⟩ := by
  intro rs t
  have hresolve (m : String) (hm : m ≠ "") (hdot : '.' ∉ m.toList) :=
    (resolve_registered rs).2 t "A.B" m rfl (by decide) (by decide) hm hdot
      (List.forall_mem_cons.mpr ⟨rfl, List.forall_mem_singleton.mpr rfl⟩)
  refine ⟨((resolve_registered rs).1 "A.B").trans ?_, (hresolve "f" ?_ ?_).trans ?_,
    (hresolve "c" ?_ ?_).trans ?_⟩
  all_goals decide

end Table
end OnePass
