import OnePass.Proofs.Lockstep
import OnePass.Proofs.Validity

/-!
Further namespaces in use. A namespace that is added behind the others is asked last, so every
name that had a meaning keeps it. A name without one may get one, also as a type; but then the
program without the namespace has an error. The one case left is a member of a host type that is
read as a type of the host with the new namespace: the standard host has no type with the name
of a member.
-/

namespace OnePass

/-! Types and members -/

namespace Host.Registry

/-- The names of all members of a host. -/
def memberNames (r : Registry) : List String :=
  r.types.values.flatMap fun e => e.fields.names ++ e.methods.names

theorem mem_memberNames {r : Registry} {owner : HostType} {name : String} {m : Member}
    (h : r.resolveMember owner name = some m) : name ∈ r.memberNames := by
  obtain ⟨e, he, hmember⟩ := resolveMember_cases h
  refine List.mem_flatMap.mpr ⟨e, Directory.mem_values_of_find? he, List.mem_append.mpr ?_⟩
  rcases hmember with ⟨f, hf, -⟩ | ⟨overloads, hoverloads, -⟩
  · exact .inl (List.mem_map_of_mem (Directory.mem_entries_of_find? hf))
  · exact .inr (List.mem_map_of_mem (Directory.mem_entries_of_find? hoverloads))

/-- No type is named like a member behind its last dot. -/
def Apart (r : Registry) : Prop :=
  ∀ name ∈ r.types.names, ∀ container member,
    Table.splitAtLastDot name.toList = some (container, member) →
      String.ofList member ∉ r.memberNames

theorem resolveType_eq_none {r : Registry} (hr : r.Apart) {owner : HostType} {name : String}
    {container member : List Char} {m : Member}
    (hm : r.resolveMember owner (String.ofList member) = some m)
    (hname : Table.splitAtLastDot name.toList = some (container, member)) :
    r.resolveType name = none := by
  refine Option.map_eq_none_iff.mpr (Option.eq_none_iff_forall_ne_some.mpr fun e he => ?_)
  have hmem : name ∈ r.types.names := List.mem_map_of_mem (Directory.mem_entries_of_find? he)
  exact hr name hmem container member hname (mem_memberNames hm)

end Host.Registry

theorem Host.apart_standard : Host.standard.Apart := by
  have hnames : ∀ name ∈ standard.types.names, ∀ member ∈ standard.memberNames,
      (Table.splitAtLastDot name.toList).map (fun x => String.ofList x.2) ≠ some member := by
    decide +kernel
  intro name hname container member hsplit hmember
  refine hnames name hname _ hmember ?_
  rw [hsplit]
  rfl

/-! Tables with further namespaces -/

namespace Table

theorem splitAtLastDot_append {cs : List Char} {container member : List Char}
    (h : splitAtLastDot cs = some (container, member)) (before : List Char) :
    splitAtLastDot (before ++ cs) = some (before ++ container, member) := by
  induction before with
  | nil => exact h
  | cons c before ih => simp [splitAtLastDot, ih]

/-- The table with further namespaces behind those in use. -/
def useMore (t : Table) (more : List String) : Table :=
  { t with namespaces := t.namespaces ++ more }

variable {t : Table} {more : List String} {name : String}

/-- A name that is a type of the host stays this type. -/
theorem hostType?_useMore {ty : HostType} (h : t.hostType? name = some ty) :
    (t.useMore more).hostType? name = some ty := by
  unfold hostType? useMore at *
  simp only [List.findSome?_append]
  rw [← Option.or_assoc, h, Option.some_or]

/-- A member of the host is written behind its type and a dot. -/
theorem split_of_external? {owner : HostType} {symbol : Symbol}
    (h : t.external? name = some (owner, symbol)) :
    ∃ container member m, splitAtLastDot name.toList = some (container, member) ∧
      t.host.resolveMember owner (String.ofList member) = some m := by
  unfold external? at h
  split at h
  · cases h
  · cases h
  · cases h
  · rename_i container member _ _ hsplit
    split at h
    · cases h
    · split at h <;> cases h <;> exact ⟨container, member, _, hsplit, ‹_›⟩

theorem external?_useMore {owner : HostType} {symbol : Symbol}
    (h : t.external? name = some (owner, symbol)) :
    (t.useMore more).external? name = some (owner, symbol) := by
  revert h
  unfold external?
  split
  · exact id
  · exact id
  · exact id
  · rename_i container member _ _ hsplit
    cases htype : t.hostType? (String.ofList container) with
    | none => exact fun h => by cases h
    | some ty =>
        rw [hostType?_useMore htype]
        exact id

theorem resolve_useMore (name : String) :
    (t.useMore more).resolve name = t.resolve name ∨ t.resolve name = none := by
  show (t.lookup name).or _ = _ ∨ _
  unfold resolve
  cases t.lookup name with
  | some symbol => exact .inl rfl
  | none =>
      cases hexternal : t.external? name with
      | none => exact .inr rfl
      | some found => exact .inl (by rw [external?_useMore hexternal])

/-- A member of the host gets no type of the host. -/
theorem hostType?_of_external? (ht : t.host.Apart) {owner : HostType} {symbol : Symbol}
    (h : t.external? name = some (owner, symbol)) :
    (t.useMore more).hostType? name = t.hostType? name := by
  obtain ⟨container, member, m, hsplit, hm⟩ := split_of_external? h
  have hmore : (more.findSome? fun ns => t.host.resolveType (ns ++ "." ++ name)) = none := by
    refine List.findSome?_eq_none_iff.mpr fun ns _ => ?_
    have hbelow : splitAtLastDot (ns ++ "." ++ name).toList =
        some (ns.toList ++ ('.' :: container), member) := by
      rw [String.toList_append, String.toList_append, List.append_assoc]
      exact splitAtLastDot_append (splitAtLastDot_append hsplit ['.']) ns.toList
    exact Host.Registry.resolveType_eq_none ht hm hbelow
  unfold hostType? useMore
  simp only [List.findSome?_append, hmore, Option.or_none]

/-- A name that gets to be a type was no name of anything. -/
theorem resolveType_useMore (ht : t.host.Apart) (name : String) :
    (t.useMore more).resolveType name = t.resolveType name ∨
      t.resolveType name = none ∧ t.resolve name = none := by
  have hlookup : (t.useMore more).lookup name = t.lookup name := rfl
  unfold resolveType resolve
  rw [hlookup]
  cases t.lookup name with
  | some symbol =>
      obtain ⟨own, meaning⟩ := symbol
      cases meaning <;> exact .inl rfl
  | none =>
      cases htype : t.hostType? name with
      | some ty => exact .inl (by simp only [hostType?_useMore htype])
      | none =>
          -- The name is no type so far. It stays none if it is a member of the host; otherwise it
          -- has no meaning at all.
          cases hexternal : t.external? name with
          | none => exact .inr ⟨rfl, rfl⟩
          | some found => exact .inl (by simp only [hostType?_of_external? ht hexternal, htype])

theorem looksLike_useMore (ht : t.host.Apart) : t.LooksLike Eq True (t.useMore more) where
  depth := rfl
  symbolAt _ _ := rfl
  declaredAt := (LooksLike.refl (fun _ => rfl) True t).declaredAt
  resolve name := (resolve_useMore name).imp_right (⟨trivial, ·⟩)
  resolveType name := (resolveType_useMore ht name).imp_right (⟨trivial, ·⟩)

/-! Edits -/

theorem edit_useMore (t : Table) (more : List String) (e : Edit) :
    (t.useMore more).edit e = (t.edit e).useMore more := by
  cases e with
  | declare s l =>
      simp only [edit, declare, updateInnermost, useMore]
      cases t.blocks <;> rfl
  | openScope => rfl
  | closeScope => rfl
  | declareField s l => rfl
  | predeclare s => rfl

theorem host_edit (t : Table) (e : Edit) : (t.edit e).host = t.host := by
  cases e with
  | declare s l =>
      simp only [edit, declare, updateInnermost]
      cases t.blocks <;> rfl
  | openScope => rfl
  | closeScope => rfl
  | declareField s l => rfl
  | predeclare s => rfl

theorem overwriteAt_useMore (t : Table) (more : List String) (depth : Nat) (name : String)
    (s : Symbol) :
    (t.useMore more).overwriteAt depth name s = (t.overwriteAt depth name s).useMore more := by
  match depth with
  | 0 => rfl
  | 1 => rfl
  | n + 2 =>
      unfold overwriteAt useMore
      dsimp only
      split <;> rfl

theorem host_overwriteAt (t : Table) (depth : Nat) (name : String) (s : Symbol) :
    (t.overwriteAt depth name s).host = t.host := by
  match depth with
  | 0 => rfl
  | 1 => rfl
  | n + 2 =>
      simp only [overwriteAt]
      split <;> rfl

end Table

/-! Two compilations, one with further namespaces -/

/-- Passes of which the second has further namespaces in use. -/
structure Pass.Widens (more : List String) (p q : Pass) : Prop where
  table : q.table = p.table.useMore more
  apart : p.table.host.Apart
  code : q.code = p.code
  diagnostics : q.diagnostics = p.diagnostics
  input : q.input = p.input

/-- A pass without errors does not meet the names that only the further namespaces give a
meaning. -/
def Coupling.namespaces (more : List String) : Coupling where
  toReach := .clean
  toPlaces := .exact
  Coupled := Pass.Widens more
  surplus := 0
  remaining h := congrArg Tokens.remaining h.input
  current h _ := by rw [h.input]
  current_else h _ helse := h.input ▸ helse
  here h _ := by rw [h.input]
  errorCount h := by rw [h.diagnostics]
  code {p _} h := ⟨p.code.entry.name, h.code⟩
  table h := by
    rw [h.table]
    exact Table.looksLike_useMore h.apart
  advance h _ :=
    ⟨by simp [h.table], by simpa using h.apart, by simp [h.code], by simp [h.diagnostics],
      by simp [Pass.input_advance, h.input]⟩
  perform h r :=
    ⟨by simp [h.table], by simpa using h.apart, by simp [h.code], by simp [h.diagnostics], h.input⟩
  edit {p q e e'} h he := by
    obtain rfl : e = e' := he.eq
    exact ⟨by simp [h.table, Table.edit_useMore], by simpa [Table.host_edit] using h.apart,
      by simp [h.code], by simp [h.diagnostics], h.input⟩
  report {p q l l'} h hl severity message := by
    subst hl
    exact ⟨by simp [h.table], by simpa using h.apart, by simp [h.code], by simp [h.diagnostics],
      h.input⟩
  resolved h name :=
    ⟨by simp [h.table], by simpa using h.apart, by simp [h.code], by simp [h.diagnostics], h.input⟩
  bound h name m := ⟨h.table, h.apart, h.code, h.diagnostics, h.input⟩
  complete {p q} h depth name symbol := by
    refine ⟨?_, ?_, h.code, h.diagnostics, h.input⟩
    · show q.table.overwriteAt depth name symbol = _
      rw [h.table, Table.overwriteAt_useMore]
    · show (p.table.overwriteAt depth name symbol).host.Apart
      rw [Table.host_overwriteAt]
      exact h.apart

namespace Table

theorem predeclareAll_useMore (t : Table) (more : List String) :
    (t.useMore more).predeclareAll = t.predeclareAll.useMore more := by
  unfold predeclareAll
  dsimp only
  generalize _ ++ Builtin.all.map Symbol.ofBuiltin = symbols
  induction symbols generalizing t with
  | nil => rfl
  | cons symbol symbols ih => exact ih (t.predeclare symbol)

theorem addUsing_eq_useMore (t : Table) (ns : String) : ∃ more, t.addUsing ns = t.useMore more := by
  unfold addUsing
  split
  · exact ⟨[], by simp [useMore]⟩
  · exact ⟨[ns], rfl⟩

end Table

theorem Session.table_start_addUsing (config : Config) (ns : String) (host : Host.Registry) :
    ∃ more, (start (config.addUsing ns) host).table = (start config host).table.useMore more := by
  unfold start Config.addUsing
  split
  · exact ⟨[], by simp [Table.useMore]⟩
  · simp only [List.foldl_append, List.foldl_cons, List.foldl_nil]
    exact Table.addUsing_eq_useMore _ ns

theorem Pass.widens_final {source : String} {config : Config} {host : Host.Registry}
    (hhost : host.Apart) (ns : String)
    (h : (final source config host).diagnostics.errorCount = 0) :
    ∃ more, Widens more (final source config host) (final source (config.addUsing ns) host) := by
  obtain ⟨more, hmore⟩ := Session.table_start_addUsing config ns host
  refine ⟨more, (((Coupling.namespaces more).follows_programItems (k := .whole)
    (fun _ => id) _).coupled _ ?_ h).2⟩
  have hlimit : (config.addUsing ns).maxErrors = config.maxErrors ∧
      (config.addUsing ns).entryMethod = config.entryMethod := by
    unfold Config.addUsing
    split <;> exact ⟨rfl, rfl⟩
  refine ⟨?_, ?_, ?_, ?_, ?_⟩
  · simp [initial, start, hmore, Table.predeclareAll_useMore]
  · obtain ⟨_, _, htable, -⟩ := table_initial source config host
    rw [htable]
    exact hhost
  · simp [hlimit]
  · simp [hlimit]
  · simp [initial, start, input_meet]

/-- A further namespace does not change a program that compiles, nor its diagnostics. -/
theorem compile_addUsing (source : String) (config : Config) (ns : String) (m : Module)
    (h : (compile source config).result = .ok m) :
    (compile source (config.addUsing ns)).result = .ok m ∧
      (check source (config.addUsing ns)).result = (check source config).result := by
  simp only [compile, result_compileWith, result_check, Pass.diagnostics_run, Pass.code_run] at h ⊢
  split at h
  · rename_i hzero
    obtain ⟨more, hfinal⟩ := Pass.widens_final Host.apart_standard ns hzero
    rw [hfinal.code, hfinal.diagnostics, if_pos hzero]
    exact ⟨h, rfl⟩
  · cases h

/-- A program that declares a name which is also the last part of the name of a type. -/
def mathField : String :=
  "double Math; Math = 1 + System.Math.PI; " ++
  "int abs2(int n) \x7b return System.Math.Abs(n) * 2; \x7d Math = (Math) - abs2(2);"

theorem compile_addUsing_mathField :
    ∃ m, (compile mathField {}).result = .ok m ∧
      (compile mathField (Config.addUsing {} "System")).result = .ok m ∧
      (check mathField (Config.addUsing {} "System")).result = (check mathField {}).result ∧
      (check mathField {}).result.items.size = 2 := by
  have hok : (compile mathField {}).result.isOk = true := by decide +kernel
  cases h : (compile mathField {}).result with
  | error e =>
      rw [h] at hok
      cases hok
  | ok m =>
      obtain ⟨hm, hcheck⟩ := compile_addUsing mathField {} "System" m h
      exact ⟨m, rfl, hm, hcheck, by decide +kernel⟩

end OnePass
