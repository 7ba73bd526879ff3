import OnePass.Proofs.Agreement

/-!
Every reference in the code of a compilation is valid, also after errors: variables,
parameters, fields and methods exist and have the types that their uses ask for, and no
local variable is used behind the end of its block.
-/

namespace OnePass

theorem Ty.eq_array_of_element {ty element : Ty} (h : ty.element? = some element) :
    ty = .array element := by
  cases ty <;> cases h
  rfl

/-- A member name of some type of the host means the static field. -/
def Host.Registry.HasField (r : Registry) (owner name : String) (ty : Ty) : Prop :=
  ∃ t member, r.resolveMember t member = some (.field ⟨owner, name, ty⟩)

/-- The type of a field of the module or of the host. -/
def FieldRef.Typed (c : Code) (host : Host.Registry) : FieldRef → Ty → Prop
  | .module index, ty => ∃ f, c.fields[index]? = some f ∧ f.ty = ty
  | .host owner name, ty => host.HasField owner name ty

/-- The type of the values of a storage that a method uses. -/
def Storage.Typed (c : Code) (host : Host.Registry) (m : Method) : Storage → Ty → Prop
  | .localVar index, ty => ∃ v, m.locals[index]? = some v ∧ v.ty = ty
  | .param index, ty => ∃ v, m.params[index]? = some v ∧ v.ty = ty
  | .field ref, ty => ref.Typed c host ty
  | .element ref, ty => ref.Typed c host (.array ty)

namespace Instr

/-- What an instruction of the method with the given index refers to exists. Methods other
than the entry method call themselves and earlier ones only. -/
def Valid (c : Code) (host : Host.Registry) (index : Nat) (m : Method) : Instr → Prop
  | .read storage | .store storage => ∃ ty, storage.Typed c host m ty
  | .count storage _ => ∃ ty, storage.Typed c host m ty ∧ ty.isNumeric
  | .loadBase ref | .loadElement ref => ∃ ty, ref.Typed c host (.array ty)
  | .call (.method callee) => 1 ≤ callee ∧ callee < c.methods.size ∧ (0 < index → callee ≤ index)
  | _ => True

def UsesLocal (i : Instr) (index : Nat) : Prop :=
  match i with
  | .read storage | .store storage | .count storage _ => storage = .localVar index
  | _ => False

end Instr

section Growth

variable {c d : Code} {host : Host.Registry} {m m' : Method} {ty : Ty}

theorem FieldRef.Typed.mono {ref : FieldRef} (h : ref.Typed c host ty) (hext : c.Extends d) :
    ref.Typed d host ty := by
  match ref, h with
  | .module index, ⟨f, hf, hty⟩ => exact ⟨f, hext.getElem_fields hf, hty⟩
  | .host _ _, h => exact h

theorem Storage.Typed.mono {storage : Storage} (h : storage.Typed c host m ty)
    (hext : c.Extends d) (hm : m.Extends m') : storage.Typed d host m' ty := by
  match storage, h with
  | .localVar index, ⟨v, hv, hty⟩ => exact ⟨v, hm.getElem_locals hv, hty⟩
  | .param index, ⟨v, hv, hty⟩ => exact ⟨v, by rw [hm.params, hv], hty⟩
  | .field _, h | .element _, h => exact FieldRef.Typed.mono h hext

theorem Instr.Valid.mono {i : Instr} {index : Nat} (h : i.Valid c host index m)
    (hext : c.Extends d) (hm : m.Extends m') : i.Valid d host index m' := by
  match i, h with
  | .read _, ⟨ty, hty⟩ | .store _, ⟨ty, hty⟩ => exact ⟨ty, hty.mono hext hm⟩
  | .count _ _, ⟨ty, hty, hnum⟩ => exact ⟨ty, hty.mono hext hm, hnum⟩
  | .loadBase _, ⟨ty, hty⟩ | .loadElement _, ⟨ty, hty⟩ => exact ⟨ty, hty.mono hext⟩
  | .call (.method _), ⟨hpos, hlt, hle⟩ =>
      exact ⟨hpos, Nat.lt_of_lt_of_le hlt hext.size_methods, hle⟩
  | .const _, _ | .unary _ _, _ | .additive _ _ _, _ | .multiplicative _ _ _, _ | .concat, _
  | .compare _ _, _ | .cast _ _, _ | .assignCast _ _, _ | .pop, _ | .call (.external _), _
  | .call (.intrinsic _ _), _ | .branch _, _ | .branchFalse _, _ | .ret, _ => trivial

end Growth

/-! The instructions that a table allows -/

namespace Table

variable {t : Table} {c : Code} {storage : Storage} {ty : Ty}

theorem external_eq_some {name : String} {owner : HostType} {symbol : Symbol}
    (h : t.external? name = some (owner, symbol)) :
    (∃ f member, t.host.resolveMember owner member = some (.field f) ∧
      symbol.meaning = .field (.host f.owner f.name) f.ty) ∨
    ∃ overloads member, t.host.resolveMember owner member = some (.methods overloads) ∧
      symbol.meaning = .external overloads := by
  unfold external? at h
  split at h
  · cases h
  · cases h
  · cases h
  · split at h
    · cases h
    · split at h
      · cases h
      · rename_i f hmember
        cases h
        exact .inl ⟨f, _, hmember, rfl⟩
      · rename_i overloads hmember
        cases h
        exact .inr ⟨overloads, _, hmember, rfl⟩

/-- What a name means is declared, or a member of the host. -/
theorem resolve_eq_some {name : String} {symbol : Symbol} (h : t.resolve name = some symbol) :
    t.lookup name = some symbol ∨
      (∃ f owner member, t.host.resolveMember owner member = some (.field f) ∧
        symbol.meaning = .field (.host f.owner f.name) f.ty) ∨
      ∃ overloads owner member, t.host.resolveMember owner member = some (.methods overloads) ∧
        symbol.meaning = .external overloads := by
  unfold resolve at h
  rw [Option.or_eq_some_iff] at h
  obtain h | ⟨-, h⟩ := h
  · exact .inl h
  · obtain ⟨⟨owner, symbol⟩, hext, rfl⟩ := Option.map_eq_some_iff.mp h
    obtain ⟨f, member, h⟩ | ⟨overloads, member, h⟩ := external_eq_some hext
    · exact .inr (.inl ⟨f, owner, member, h⟩)
    · exact .inr (.inr ⟨overloads, owner, member, h⟩)

theorem Offers.typed (h : t.Offers storage ty) (ha : t.Agrees c) :
    storage.Typed c t.host c.current ty := by
  obtain ⟨name, symbol, hs, hholds⟩ := h
  obtain hs | ⟨f, owner, member, hmember, hm⟩ | ⟨_, _, _, _, hm⟩ := resolve_eq_some hs
  · have hagrees := ha.lookup hs
    cases symbol with
    | mk own meaning =>
        cases hholds with
        | field ref ty =>
            cases ref with
            | module index => exact hagrees
            | host _ _ => exact hagrees.elim
        | element ref he =>
            cases ref with
            | module index =>
                obtain ⟨f, hf, rfl⟩ := hagrees
                exact ⟨f, hf, Ty.eq_array_of_element he⟩
            | host _ _ => exact hagrees.elim
        | localVar index ty => exact hagrees
        | param index ty ordinal => exact hagrees
  · rw [hm] at hholds
    cases hholds with
    | field ref ty => exact ⟨owner, member, hmember⟩
    | element ref he => exact ⟨owner, member, by rw [hmember, ← Ty.eq_array_of_element he]⟩
  · rw [hm] at hholds
    cases hholds

/-- An instruction that the table allows refers to what there is. -/
theorem Allows.valid {i : Instr} (h : t.Allows i) (ha : t.Agrees c) :
    i.Valid c t.host c.currentIndex c.current := by
  match i, h with
  | .read _, ⟨ty, hty⟩ | .store _, ⟨ty, hty⟩ => exact ⟨ty, hty.typed ha⟩
  | .count _ _, ⟨ty, hty, hnum⟩ => exact ⟨ty, hty.typed ha, hnum⟩
  | .loadBase _, ⟨ty, hty⟩ | .loadElement _, ⟨ty, hty⟩ => exact ⟨ty, hty.typed ha⟩
  | .call (.method index), ⟨name, symbol, returnType, params, hs, hm⟩ =>
      obtain hs | ⟨_, _, _, _, hm'⟩ | ⟨_, _, _, _, hm'⟩ := resolve_eq_some hs
      · have hagrees := ha.lookup hs
        rw [hm] at hagrees
        obtain ⟨hpos, m, hmethod, -⟩ := hagrees
        have hlt := (Array.getElem?_eq_some_iff.mp hmethod).1
        refine ⟨hpos, hlt, fun hdeclared => ?_⟩
        rw [c.size_methods_of_pos hdeclared] at hlt
        exact Nat.le_of_lt_succ hlt
      · cases hm.symm.trans hm'
      · cases hm.symm.trans hm'
  | .const _, _ | .unary _ _, _ | .additive _ _ _, _ | .multiplicative _ _ _, _ | .concat, _
  | .compare _ _, _ | .cast _ _, _ | .assignCast _ _, _ | .call (.external _), _
  | .call (.intrinsic _ _), _ => trivial

end Table

/-! The scopes of local variables -/

def Frame.Binds (f : Frame) (index : Nat) : Prop :=
  ∃ b ∈ f.values, ∃ ty, b.symbol.meaning = .localVar index ty

namespace Table

variable {t : Table} {c : Code}

/-- A block that is open declares the local variable. -/
def Binds (t : Table) (index : Nat) : Prop :=
  ∃ f ∈ t.blocks, f.Binds index

theorem mem_innermostLocals {index : Nat} :
    index ∈ t.innermostLocals ↔ t.innermost.Binds index := by
  simp only [innermostLocals, List.mem_filterMap, Frame.Binds]
  constructor
  · rintro ⟨b, hb, hindex⟩
    split at hindex <;> cases hindex
    exact ⟨b, hb, _, ‹_›⟩
  · rintro ⟨b, hb, ty, hm⟩
    exact ⟨b, hb, by rw [hm]⟩

theorem Binds.lt_size {index : Nat} (h : t.Binds index) (ha : t.Agrees c) :
    index < c.current.locals.size := by
  obtain ⟨f, hf, b, hb, ty, hm⟩ := h
  have hagrees := ha.blocks f hf b hb
  rw [hm] at hagrees
  obtain ⟨v, hv, -⟩ := hagrees
  exact (Array.getElem?_eq_some_iff.mp hv).1

theorem Offers.binds {index : Nat} {ty : Ty} (h : t.Offers (.localVar index) ty)
    (ha : t.Agrees c) : t.Binds index := by
  obtain ⟨name, ⟨own, meaning⟩, hs, hholds⟩ := h
  cases hholds
  obtain hs | ⟨_, _, _, _, hm⟩ | ⟨_, _, _, _, hm⟩ := resolve_eq_some hs
  · obtain ⟨b, hfind, hb⟩ := Option.map_eq_some_iff.mp hs
    obtain ⟨f, hf, hfb⟩ := List.exists_of_findSome?_eq_some hfind
    have hmem := Catalog.mem_values_of_find? hfb
    simp only [frames, List.mem_append, List.mem_cons, List.not_mem_nil, or_false] at hf
    rcases hf with hf | rfl | rfl
    · exact ⟨f, hf, b, hmem, ty, by rw [hb]⟩
    · have hglobal := (ha.fields b hmem).2
      rw [hb] at hglobal
      exact hglobal.elim
    · have hglobal := (ha.predeclared b hmem).2
      rw [hb] at hglobal
      exact hglobal.elim
  · cases hm
  · cases hm

/-- An allowed instruction uses local variables of open blocks only. -/
theorem Allows.binds {i : Instr} {index : Nat} (h : t.Allows i) (ha : t.Agrees c)
    (hu : i.UsesLocal index) : t.Binds index := by
  match i, h, hu with
  | .read _, ⟨ty, hty⟩, rfl | .store _, ⟨ty, hty⟩, rfl => exact hty.binds ha
  | .count _ _, ⟨ty, hty, _⟩, rfl => exact hty.binds ha

end Table

/-- The trail counts the instructions of every method. -/
structure Trail.Counts (trail : Trail) (c : Code) : Prop where
  entry : trail.entry = c.entry.code.size
  closed : trail.closed = c.closed.toList.map (·.code.size)
  body : trail.body = c.body.map (·.code.size)

namespace Trail.Counts

variable {trail : Trail} {c : Code}

theorem current (h : trail.Counts c) : trail.current = c.current.code.size := by
  unfold Trail.current Code.current
  rw [h.entry, h.body]
  cases c.body <;> rfl

theorem currentIndex (h : trail.Counts c) : trail.currentIndex = c.currentIndex := by
  unfold Trail.currentIndex Code.currentIndex
  rw [h.closed, h.body]
  simp

theorem emit (h : trail.Counts c) (i : Instr) : trail.emit.Counts (c.emit i) := by
  have hbody := h.body
  unfold Trail.emit Code.emit Code.updateCurrent
  cases hb : c.body with
  | none =>
      rw [hb] at hbody
      rw [hbody]
      exact ⟨by simp [h.entry, Method.emit], h.closed, by simp⟩
  | some m =>
      rw [hb] at hbody
      rw [hbody]
      exact ⟨h.entry, h.closed, by simp [Method.emit]⟩

theorem closeMethod (h : trail.Counts c) : trail.closeMethod.Counts c.closeMethod := by
  refine ⟨h.entry, ?_, rfl⟩
  simp only [Trail.closeMethod, Code.closeMethod, h.closed, h.body]
  cases c.body <;> simp

end Trail.Counts

end OnePass
