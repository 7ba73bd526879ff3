import OnePass.Proofs.Methods

/-!
What the table says of local variables, parameters, fields and methods agrees with the code
that has been written, and goes on to do so while the code grows.
-/

namespace OnePass

namespace Directory

variable {α : Type}

theorem mem_entries_of_find? {d : Directory α} {name : String} {value : α}
    (h : d.find? name = some value) : (name, value) ∈ d.entries := by
  obtain ⟨entries⟩ := d
  unfold find? at h
  induction entries with
  | nil => cases h
  | cons entry rest ih =>
      obtain ⟨key, old⟩ := entry
      simp only [findIn] at h
      split at h
      · rename_i hkey
        cases h
        exact hkey ▸ List.mem_cons_self
      · exact List.mem_cons_of_mem _ (ih h)

theorem mem_values_of_find? {d : Directory α} {name : String} {value : α}
    (h : d.find? name = some value) : value ∈ d.values :=
  List.mem_map_of_mem (mem_entries_of_find? h)

end Directory

namespace Catalog

variable {α : Type} {c : Catalog α} {name : String} {value v : α}

theorem mem_values_of_find? (h : c.find? name = some value) : value ∈ c.values := by
  obtain ⟨i, -, hi⟩ := Option.bind_eq_some_iff.mp h
  exact Array.mem_toList_iff.mpr (Array.mem_of_getElem? hi)

theorem mem_values_put (h : v ∈ (c.put name value).values) : v = value ∨ v ∈ c.values := by
  rw [values, Array.mem_toList_iff] at h ⊢
  cases hname : c.index.find? name with
  | none =>
      rw [put_of_none hname, add] at h
      exact (Array.mem_push.mp h).symm
  | some i =>
      rw [entries_put_of_some hname] at h
      exact (Array.mem_or_eq_of_mem_setIfInBounds h).symm

/-- A value stays unless the name that is entered had it. -/
theorem mem_values_put_of_mem (h : v ∈ c.values) (name : String) (value : α) :
    v ∈ (c.put name value).values ∨ c.find? name = some v := by
  rw [values, Array.mem_toList_iff] at h ⊢
  obtain ⟨j, hj⟩ := Array.mem_iff_getElem?.mp h
  cases hname : c.index.find? name with
  | none =>
      rw [put_of_none hname, add]
      exact .inl (Array.mem_push_of_mem _ h)
  | some i =>
      by_cases hij : i = j
      · exact .inr (by rw [find?, hname, Option.bind_some, hij, hj])
      · rw [entries_put_of_some hname]
        refine .inl (Array.mem_of_getElem? (i := j) ?_)
        rw [Array.getElem?_setIfInBounds_ne hij, hj]

theorem mem_values_put_self (c : Catalog α) (name : String) (value : α) :
    value ∈ (c.put name value).values :=
  mem_values_of_find? (by rw [find?_put, if_pos rfl])

end Catalog

/-! Growing code -/

namespace Method

variable (m : Method)

@[simp] theorem returnType_closeScope : m.closeScope.returnType = m.returnType := by
  unfold closeScope
  split <;> rfl

@[simp] theorem params_closeScope : m.closeScope.params = m.params := by
  unfold closeScope
  split <;> rfl

@[simp] theorem locals_closeScope : m.closeScope.locals = m.locals := by
  unfold closeScope
  split <;> rfl

@[simp] theorem code_closeScope : m.closeScope.code = m.code := by
  unfold closeScope
  split <;> rfl

end Method

/-- The later state of a method. -/
structure Method.Extends (m m' : Method) : Prop where
  returnType : m'.returnType = m.returnType
  params : m'.params = m.params
  locals : ∃ vs, m'.locals = m.locals ++ vs
  code : ∃ is, m'.code = m.code ++ is

namespace Method.Extends

variable {m m' m'' : Method}

theorem refl (m : Method) : m.Extends m :=
  ⟨rfl, rfl, ⟨#[], by simp⟩, ⟨#[], by simp⟩⟩

theorem emit (m : Method) (i : Instr) : m.Extends (m.emit i) :=
  ⟨rfl, rfl, ⟨#[], by simp [Method.emit]⟩, ⟨#[i], by simp [Method.emit]⟩⟩

theorem addLocal (m : Method) (name : String) (ty : Ty) : m.Extends (m.addLocal name ty) :=
  ⟨rfl, rfl, ⟨#[⟨name, ty, m.depth⟩], by simp [Method.addLocal]⟩,
    ⟨#[], by simp [Method.addLocal]⟩⟩

theorem openScope (m : Method) : m.Extends m.openScope :=
  ⟨rfl, rfl, ⟨#[], by simp [Method.openScope]⟩, ⟨#[], by simp [Method.openScope]⟩⟩

theorem closeScope (m : Method) : m.Extends m.closeScope :=
  ⟨by simp, by simp, ⟨#[], by simp⟩, ⟨#[], by simp⟩⟩

theorem getElem_locals (h : m.Extends m') {index : Nat} {v : Local}
    (hv : m.locals[index]? = some v) : m'.locals[index]? = some v := by
  obtain ⟨vs, hvs⟩ := h.locals
  rw [hvs, Array.getElem?_append_left (Array.getElem?_eq_some_iff.mp hv).1, hv]

end Method.Extends

/-- The later state of code: fields, methods and what they contain are added behind others. -/
structure Code.Extends (c d : Code) : Prop where
  fields : ∃ fs, d.fields = c.fields ++ fs
  methods : ∀ (index : Nat) (m : Method), c.methods[index]? = some m →
    ∃ m', d.methods[index]? = some m' ∧ m.Extends m'

namespace Code.Extends

variable {c d e : Code}

theorem refl (c : Code) : c.Extends c :=
  ⟨⟨#[], by simp⟩, fun _ m hm => ⟨m, hm, .refl m⟩⟩

theorem getElem_fields (h : c.Extends d) {index : Nat} {f : Field}
    (hf : c.fields[index]? = some f) : d.fields[index]? = some f := by
  obtain ⟨fs, hfs⟩ := h.fields
  rw [hfs, Array.getElem?_append_left (Array.getElem?_eq_some_iff.mp hf).1, hf]

theorem size_methods (h : c.Extends d) : c.methods.size ≤ d.methods.size := by
  refine Nat.le_of_not_lt fun hlt => ?_
  obtain ⟨m', hm', -⟩ := h.methods d.methods.size _ (Array.getElem?_eq_getElem hlt)
  simp at hm'

theorem current (h : c.Extends d) (hi : d.currentIndex = c.currentIndex) :
    c.current.Extends d.current := by
  obtain ⟨m', hm', hext⟩ := h.methods _ _ c.getElem_currentIndex
  rw [← hi, d.getElem_currentIndex] at hm'
  cases hm'
  exact hext

theorem update {f : Method → Method} (hf : c.current.Extends (f c.current)) :
    c.Extends (c.updateCurrent f) := by
  refine ⟨⟨#[], by simp⟩, ?_⟩
  intro index m hm
  obtain ⟨-, rfl, hm'⟩ | ⟨-, hm'⟩ := c.updateCurrent_getElem (f := f) hm
  · exact ⟨f c.current, hm', hf⟩
  · exact ⟨m, hm', .refl m⟩

theorem emit (c : Code) (i : Instr) : c.Extends (c.emit i) :=
  update (.emit c.current i)

theorem of_methods (hfields : d.fields = c.fields) (hmethods : d.methods = c.methods) :
    c.Extends d :=
  ⟨⟨#[], by simp [hfields]⟩, fun _ m hm => ⟨m, hmethods ▸ hm, .refl m⟩⟩

theorem addField (c : Code) (name : String) (ty : Ty) (size : Option Nat) :
    c.Extends (c.addField name ty size) :=
  ⟨⟨#[⟨name, ty, size⟩], by simp [Code.addField]⟩, fun _ m hm => ⟨m, hm, .refl m⟩⟩

theorem push {m : Method} (hfields : d.fields = c.fields) (hm : d.methods = c.methods.push m) :
    c.Extends d := by
  refine ⟨⟨#[], by simp [hfields]⟩, ?_⟩
  intro index m' hm'
  exact ⟨m', getElem_push hm hm', .refl m'⟩

end Code.Extends

/-! Symbols and code -/

namespace Meaning

/-- What a declared name means is in the code. Members of the host are not declared, and no
array type has a name. -/
def Agrees (c : Code) : Meaning → Prop
  | .type ty => ty.element? = none
  | .param none _ _ | .method _ _ none => True
  | .field (.module index) ty => ∃ f, c.fields[index]? = some f ∧ f.ty = ty
  | .localVar index ty => ∃ v, c.current.locals[index]? = some v ∧ v.ty = ty
  | .param (some index) ty _ => ∃ v, c.current.params[index]? = some v ∧ v.ty = ty
  | .method returnType params (some index) => 0 < index ∧ ∃ m, c.methods[index]? = some m ∧
      m.returnType = returnType ∧ m.params.toList.map Param.ty = params
  | .function builtin returnType params variadic => returnType = builtin.returnType ∧
      params = builtin.params ∧ variadic = builtin.isVariadic
  | .field (.host _ _) _ | .external _ => False

/-- Not bound to a method. -/
def IsGlobal : Meaning → Prop
  | .localVar _ _ | .param _ _ _ => False
  | _ => True

variable {c d : Code} {meaning : Meaning}

theorem Agrees.mono_global (h : meaning.Agrees c) (hg : meaning.IsGlobal) (hext : c.Extends d) :
    meaning.Agrees d := by
  match meaning, h with
  | .method _ _ none, _ => trivial
  | .type _, h | .function _ _ _ _, h => exact h
  | .field (.module index) ty, ⟨f, hf, hty⟩ => exact ⟨f, hext.getElem_fields hf, hty⟩
  | .method returnType params (some index), ⟨hpos, m, hm, hreturn, hparams⟩ =>
      obtain ⟨m', hm', hmext⟩ := hext.methods index m hm
      exact ⟨hpos, m', hm', hmext.returnType.trans hreturn, by rw [hmext.params, hparams]⟩
  | .localVar _ _, _ | .param _ _ _, _ => exact hg.elim

/-- Inside of one method, agreement is kept while the code grows. -/
theorem Agrees.mono (h : meaning.Agrees c) (hext : c.Extends d)
    (hi : d.currentIndex = c.currentIndex) : meaning.Agrees d := by
  have hcurrent := hext.current hi
  match meaning, h with
  | .localVar index ty, ⟨v, hv, hty⟩ => exact ⟨v, hcurrent.getElem_locals hv, hty⟩
  | .param none _ _, _ => trivial
  | .param (some index) ty _, ⟨v, hv, hty⟩ => exact ⟨v, by rw [hcurrent.params, hv], hty⟩
  | .type _, h | .method _ _ _, h | .function _ _ _ _, h | .field (.module _) _, h =>
      exact h.mono_global trivial hext

end Meaning

/-- The declarations of the table agree with the code. Those below all blocks are not bound to
a method. -/
structure Table.Agrees (t : Table) (c : Code) : Prop where
  blocks : ∀ f ∈ t.blocks, ∀ b ∈ f.values, b.symbol.meaning.Agrees c
  fields : ∀ b ∈ t.fields.values, b.symbol.meaning.Agrees c ∧ b.symbol.meaning.IsGlobal
  predeclared : ∀ b ∈ t.predeclared.values, b.symbol.meaning.Agrees c ∧ b.symbol.meaning.IsGlobal

namespace Table.Agrees

variable {t : Table} {c d : Code}

theorem mono (h : t.Agrees c) (hext : c.Extends d) (hi : d.currentIndex = c.currentIndex) :
    t.Agrees d where
  blocks f hf b hb := (h.blocks f hf b hb).mono hext hi
  fields b hb := ⟨(h.fields b hb).1.mono hext hi, (h.fields b hb).2⟩
  predeclared b hb := ⟨(h.predeclared b hb).1.mono hext hi, (h.predeclared b hb).2⟩

/-- Another method may be opened where no block is. -/
theorem mono_global (h : t.Agrees c) (hext : c.Extends d) (hb : t.blocks = []) : t.Agrees d where
  blocks := by simp [hb]
  fields b hb := ⟨(h.fields b hb).1.mono_global (h.fields b hb).2 hext, (h.fields b hb).2⟩
  predeclared b hb :=
    ⟨(h.predeclared b hb).1.mono_global (h.predeclared b hb).2 hext, (h.predeclared b hb).2⟩

theorem openScope (h : t.Agrees c) : t.openScope.Agrees c := by
  refine ⟨?_, h.fields, h.predeclared⟩
  intro f hf
  rcases List.mem_cons.mp hf with rfl | hf
  · intro b hb
    cases hb
  · exact h.blocks f hf

theorem closeScope (h : t.Agrees c) : t.closeScope.Agrees c :=
  ⟨fun f hf => h.blocks f (List.mem_of_mem_tail hf), h.fields, h.predeclared⟩

theorem declare {symbol : Symbol} (h : t.Agrees c) (hs : symbol.meaning.Agrees c)
    (hg : t.blocks = [] → symbol.meaning.IsGlobal) (l : Location) :
    (t.declare symbol l).Agrees c := by
  unfold Table.declare updateInnermost
  split
  · rename_i f rest hb
    refine ⟨?_, h.fields, h.predeclared⟩
    intro g hg b hb'
    rcases List.mem_cons.mp hg with rfl | hg
    · rcases Catalog.mem_values_put hb' with rfl | hb'
      · exact hs
      · exact h.blocks f (by simp [hb]) b hb'
    · exact h.blocks g (by simp [hb, hg]) b hb'
  · rename_i hb
    refine ⟨by simp [hb], ?_, h.predeclared⟩
    intro b hb'
    rcases Catalog.mem_values_put hb' with rfl | hb'
    · exact ⟨hs, hg hb⟩
    · exact h.fields b hb'

theorem declareField {symbol : Symbol} (h : t.Agrees c) (hs : symbol.meaning.Agrees c)
    (hg : symbol.meaning.IsGlobal) (l : Location) : (t.declareField symbol l).Agrees c := by
  refine ⟨h.blocks, ?_, h.predeclared⟩
  intro b hb
  rcases Catalog.mem_values_put hb with rfl | hb
  · exact ⟨hs, hg⟩
  · exact h.fields b hb

/-- A declared name means something that agrees with the code. -/
theorem lookup {name : String} {symbol : Symbol} (h : t.Agrees c)
    (hs : t.lookup name = some symbol) : symbol.meaning.Agrees c := by
  obtain ⟨b, hfind, rfl⟩ := Option.map_eq_some_iff.mp hs
  obtain ⟨f, hf, hb⟩ := List.exists_of_findSome?_eq_some hfind
  have hb := Catalog.mem_values_of_find? hb
  simp only [frames, List.mem_append, List.mem_cons, List.not_mem_nil, or_false] at hf
  rcases hf with hf | rfl | rfl
  · exact h.blocks f hf b hb
  · exact (h.fields b hb).1
  · exact (h.predeclared b hb).1

end Table.Agrees
end OnePass
