import OnePass.Proofs.Recognition
import OnePass.Proofs.References

/-!
The types on the stack of the machine. Every instruction takes the types of its operands from
the top of the stack and leaves that of its result. The code of an expression leaves what is
below it as it was, with a value of its type on top, or nothing if its type is void.
-/

namespace OnePass

namespace Ty

/-- A value of a type on the stack; the void type has none. -/
def values (ty : Ty) : List Ty :=
  if ty = .void then [] else [ty]

@[simp] theorem values_void : values .void = [] := rfl

theorem values_eq {ty : Ty} (h : ty ≠ .void) : ty.values = [ty] :=
  if_neg h

/-- A type of variables: it has values, and so has the type of the elements of an array. -/
def Proper : Ty → Prop
  | .void => False
  | .array element => element ≠ .void
  | _ => True

instance : DecidablePred Proper
  | .void => .isFalse id
  | .array element => inferInstanceAs (Decidable (element ≠ .void))
  | .int | .bool | .double | .char | .string | .pointer | .pchar | .host _ => .isTrue trivial

theorem Proper.ne_void {ty : Ty} (h : ty.Proper) : ty ≠ .void := by
  rintro rfl
  exact h

theorem assignable_self (ty : Ty) : ty.assignable ty := by
  unfold assignable
  split
  · simp [HostType.isSubtypeOf]
  · exact beq_self_eq_true _

theorem ne_void_of_assignable {target source : Ty} (h : target.assignable source)
    (ht : target ≠ .void) : source ≠ .void := by
  rintro rfl
  cases target <;> first | exact ht rfl | cases h

end Ty

def Storage.IsScalar : Storage → Prop
  | .element _ => False
  | _ => True

/-- What an instruction of the method `m` does to the types on the stack, the top first. -/
inductive Instr.Effect (c : Code) (host : Host.Registry) (m : Method) :
    Instr → List Ty → List Ty → Prop
  | const (value : Literal) (s : List Ty) : Effect c host m (.const value) s (value.ty :: s)
  | read {storage : Storage} {ty : Ty} (s : List Ty) :
      storage.IsScalar → storage.Typed c host m ty →
      Effect c host m (.read storage) s (ty :: s)
  | loadBase {ref : FieldRef} {ty : Ty} (s : List Ty) :
      ref.Typed c host (.array ty) → Effect c host m (.loadBase ref) s (.array ty :: s)
  | loadElement {ref : FieldRef} {ty : Ty} (s : List Ty) :
      ref.Typed c host (.array ty) →
      Effect c host m (.loadElement ref) (.int :: .array ty :: s) (ty :: s)
  | count {storage : Storage} {ty : Ty} (mode : Count) (s : List Ty) :
      storage.IsScalar → storage.Typed c host m ty → ty.isNumeric →
      Effect c host m (.count storage mode) (ty :: s) (ty :: s)
  | countElement {ref : FieldRef} {ty : Ty} (mode : Count) (s : List Ty) :
      ref.Typed c host (.array ty) → ty.isNumeric →
      Effect c host m (.count (.element ref) mode) (.int :: .array ty :: s) (ty :: s)
  | store {storage : Storage} {ty : Ty} (s : List Ty) :
      storage.IsScalar → storage.Typed c host m ty →
      Effect c host m (.store storage) (ty :: s) s
  | storeElement {ref : FieldRef} {ty : Ty} (s : List Ty) :
      ref.Typed c host (.array ty) →
      Effect c host m (.store (.element ref)) (ty :: .int :: .array ty :: s) s
  | unary {op : UnaryOp} {ty : Ty} (s : List Ty) :
      op.accepts ty → Effect c host m (.unary op ty) (ty :: s) (ty :: s)
  | additive {op : AdditiveOp} {left right : Ty} {r : OperandRule.Result} (s : List Ty) :
      op.rule.result? left right = some r →
      Effect c host m (.additive op left right) (right :: left :: s) (r.ty :: s)
  | multiplicative {op : MultiplicativeOp} {left right : Ty} {r : OperandRule.Result}
      (s : List Ty) :
      op.rule.result? left right = some r →
      Effect c host m (.multiplicative op left right) (right :: left :: s) (r.ty :: s)
  | concat {left right : Ty} (s : List Ty) :
      left ≠ .void → right ≠ .void → left = .string ∨ right = .string →
      Effect c host m .concat (right :: left :: s) (.string :: s)
  | compare {ty : Ty} (relation : Relation) (s : List Ty) :
      ty ≠ .void → Effect c host m (.compare relation ty) (ty :: ty :: s) (.bool :: s)
  | cast {target source : Ty} (s : List Ty) :
      target.castable source →
      Effect c host m (.cast target source) (source.values ++ s) (target.values ++ s)
  | assignCast {target source : Ty} (s : List Ty) :
      target.assignable source →
      Effect c host m (.assignCast target source) (source :: s) (target :: s)
  | pop (ty : Ty) (s : List Ty) : Effect c host m .pop (ty :: s) s
  | callMethod {index : Nat} {callee : Method} (s : List Ty) :
      c.methods[index]? = some callee →
      Effect c host m (.call (.method index)) ((callee.params.toList.map Param.ty).reverse ++ s)
        (callee.returnType.values ++ s)
  | callExternal {callee : Host.Method} {args : List Ty} (s : List Ty) :
      callee.isApplicable args →
      Effect c host m (.call (.external callee)) (args.reverse ++ s)
        (callee.returnType.values ++ s)
  /-- Of the arguments behind the parameters, those with a value are on the stack. -/
  | callBuiltin {builtin : Builtin} {args : Nat} (surplus s : List Ty) :
      builtin.params.length + surplus.length ≤ args →
      (builtin.isVariadic = false → args = builtin.params.length) → .void ∉ surplus →
      Effect c host m (.call (.intrinsic builtin args))
        (surplus.reverse ++ (builtin.params.reverse ++ s)) (builtin.returnType.values ++ s)
  | branch (l : Label) : Effect c host m (.branch l) [] []
  | branchFalse (l : Label) : Effect c host m (.branchFalse l) [.bool] []
  | ret : Effect c host m .ret m.returnType.values []

/-- What instructions do to the stack one after another. -/
def Instr.Effects (c : Code) (host : Host.Registry) (m : Method) :
    List Instr → List Ty → List Ty → Prop
  | [], s, s' => s = s'
  | i :: is, s, s' => ∃ u, i.Effect c host m s u ∧ Effects c host m is u s'

namespace Instr

variable {c d : Code} {host : Host.Registry} {m m' : Method} {i : Instr} {is is' : List Instr}
  {s s' u : List Ty}

theorem Effect.mono (h : i.Effect c host m s s') (hext : c.Extends d) (hm : m.Extends m') :
    i.Effect d host m' s s' := by
  cases h with
  | const value => exact .const value s
  | read _ hs hty => exact .read s hs (hty.mono hext hm)
  | loadBase _ hty => exact .loadBase s (hty.mono hext)
  | loadElement s hty => exact .loadElement s (hty.mono hext)
  | count mode s hs hty hnum => exact .count mode s hs (hty.mono hext hm) hnum
  | countElement mode s hty hnum => exact .countElement mode s (hty.mono hext) hnum
  | store s hs hty => exact .store _ hs (hty.mono hext hm)
  | storeElement s hty => exact .storeElement _ (hty.mono hext)
  | unary s h => exact .unary s h
  | additive s h => exact .additive s h
  | multiplicative s h => exact .multiplicative s h
  | concat s hl hr hstring => exact .concat s hl hr hstring
  | compare relation s hty => exact .compare relation s hty
  | cast s h => exact .cast s h
  | assignCast s h => exact .assignCast s h
  | pop ty => exact .pop ty _
  | callMethod s hcallee =>
      obtain ⟨callee', hcallee', hext'⟩ := hext.methods _ _ hcallee
      rw [← hext'.params, ← hext'.returnType]
      exact .callMethod s hcallee'
  | callExternal s h => exact .callExternal s h
  | callBuiltin surplus s hargs hfixed hvoid => exact .callBuiltin surplus s hargs hfixed hvoid
  | branch l => exact .branch l
  | branchFalse l => exact .branchFalse l
  | ret =>
      rw [← hm.returnType]
      exact .ret

theorem Effect.ret_of {ty : Ty} (h : m.returnType = ty) :
    Instr.ret.Effect c host m ty.values [] :=
  h ▸ .ret

theorem Effect.effects (h : i.Effect c host m s s') : Effects c host m [i] s s' :=
  ⟨s', h, rfl⟩

namespace Effects

theorem nil (s : List Ty) : Effects c host m [] s s :=
  rfl

theorem append (h : Effects c host m is s u) (h' : Effects c host m is' u s') :
    Effects c host m (is ++ is') s s' := by
  induction is generalizing s with
  | nil =>
      cases h
      exact h'
  | cons i is ih =>
      obtain ⟨v, hi, h⟩ := h
      exact ⟨v, hi, ih h⟩

theorem concat (h : Effects c host m is s u) (h' : i.Effect c host m u s') :
    Effects c host m (is ++ [i]) s s' :=
  h.append h'.effects

theorem mono (h : Effects c host m is s s') (hext : c.Extends d) (hm : m.Extends m') :
    Effects d host m' is s s' := by
  induction is generalizing s with
  | nil => exact h
  | cons i is ih =>
      obtain ⟨u, hi, h⟩ := h
      exact ⟨u, hi.mono hext hm, ih h⟩

/-- A value is brought to the type of the place that it is given to. -/
theorem assignCast {target source : Ty} (h : target.assignable source) (ht : target ≠ .void)
    (s : List Ty) :
    Effects c host m (assignCast? target source).toList (source.values ++ s) (target :: s) := by
  rw [Ty.values_eq (Ty.ne_void_of_assignable h ht)]
  unfold assignCast?
  split
  · rename_i heq
    rw [heq]
    exact .nil _
  · exact (Effect.assignCast s h).effects

end Effects
end Instr

/-! Types of variables -/

/-- Fields of the host have values, and so have the parameters of its methods. -/
structure Host.Registry.Proper (r : Registry) : Prop where
  fields : ∀ owner name f, r.resolveMember owner name = some (.field f) → f.ty.Proper
  params : ∀ owner name overloads, r.resolveMember owner name = some (.methods overloads) →
    ∀ m ∈ overloads, ∀ ty ∈ m.params, ty ≠ .void

/-- Parameters and local variables have values. -/
structure Method.Proper (m : Method) : Prop where
  params : ∀ v ∈ m.params, v.ty ≠ .void
  locals : ∀ v ∈ m.locals, v.ty ≠ .void

structure Code.Proper (c : Code) : Prop where
  fields : ∀ f ∈ c.fields, f.ty.Proper
  methods : ∀ m ∈ c.methods, m.Proper

section Proper

variable {c : Code} {host : Host.Registry} {ty : Ty}

theorem Code.Proper.current (h : c.Proper) : c.current.Proper :=
  h.methods c.current (Array.mem_of_getElem? c.getElem_currentIndex)

theorem FieldRef.Typed.proper {ref : FieldRef} (h : ref.Typed c host ty) (hc : c.Proper)
    (hh : host.Proper) : ty.Proper := by
  match ref, h with
  | .module _, ⟨f, hf, hty⟩ => exact hty ▸ hc.fields f (Array.mem_of_getElem? hf)
  | .host _ _, ⟨owner, name, hf⟩ => exact hh.fields owner name _ hf

theorem Storage.Typed.ne_void {storage : Storage} (h : storage.Typed c host c.current ty)
    (hc : c.Proper) (hh : host.Proper) : ty ≠ .void := by
  match storage, h with
  | .localVar _, ⟨v, hv, hty⟩ => exact hty ▸ hc.current.locals v (Array.mem_of_getElem? hv)
  | .param _, ⟨v, hv, hty⟩ => exact hty ▸ hc.current.params v (Array.mem_of_getElem? hv)
  | .field _, h => exact (FieldRef.Typed.proper h hc hh).ne_void
  | .element _, h => exact FieldRef.Typed.proper h hc hh

end Proper

/-! Expressions -/

namespace Tree

open Instr (Effect Effects)

variable {c : Code} {host : Host.Registry} {m : Method} {s : List Ty}

/-- The code of an expression leaves its value. -/
def Translation.Leaves (c : Code) (host : Host.Registry) (m : Method) (r : Translation) : Prop :=
  ∀ s, Effects c host m r.code s (r.ty.values ++ s)

/-- The code of a place leaves what its storage needs: nothing, or an array and an index. -/
inductive Target.Reaches (c : Code) (host : Host.Registry) (m : Method) : Target → Prop
  | scalar {storage : Storage} {ty : Ty} (ws : List Warning) :
      storage.IsScalar → storage.Typed c host m ty → ty ≠ .void →
      Reaches c host m ⟨storage, ty, [], ws⟩
  | element {ref : FieldRef} {ty : Ty} {code : List Instr} (ws : List Warning) :
      ref.Typed c host (.array ty) → ty ≠ .void →
      (∀ s, Effects c host m code s (.int :: .array ty :: s)) →
      Reaches c host m ⟨.element ref, ty, code, ws⟩

theorem Target.loadCode_scalar {storage : Storage} (h : storage.IsScalar) (mode : Option Count) :
    loadCode storage mode = .read storage :: (Instr.count? storage mode).toList := by
  cases storage with
  | element _ => exact h.elim
  | localVar _ | param _ | field _ => rfl

theorem Target.Reaches.load {x : Target} {mode : Option Count} {r : Translation}
    (hx : x.Reaches c host m) (h : x.load mode = some r) : r.Leaves c host m := by
  unfold Target.load at h
  split at h
  · rename_i hnum
    cases h
    intro s
    cases hx with
    | scalar ws hscalar hty hvoid =>
        rw [Ty.values_eq hvoid, List.nil_append, loadCode_scalar hscalar]
        refine ⟨_, .read s hscalar hty, ?_⟩
        cases mode with
        | none => exact .nil _
        | some mode =>
            refine (Effect.count mode s hscalar hty ?_).effects
            simpa using hnum
    | element ws href hvoid hcode =>
        rw [Ty.values_eq hvoid]
        refine (hcode s).append ?_
        cases mode with
        | none => exact (Effect.loadElement s href).effects
        | some mode =>
            refine (Effect.countElement mode s href ?_).effects
            simpa using hnum
  · cases h

theorem Target.Reaches.store {x : Target} {value r : Translation} (hx : x.Reaches c host m)
    (hv : value.Leaves c host m) (h : x.store value = some r) : r.Leaves c host m := by
  unfold Target.store at h
  split at h
  · rename_i hassign
    cases h
    intro s
    cases hx with
    | scalar ws hscalar hty hvoid =>
        exact ((hv s).append (.assignCast hassign hvoid s)).concat (.store s hscalar hty)
    | element ws href hvoid hcode =>
        refine (((hcode s).append (hv _)).append (.assignCast hassign hvoid _)).concat ?_
        exact .storeElement s href
  · cases h

namespace Translation

variable {a b r : Translation} {l : Location}

theorem Leaves.operate {rule : OperandRule} {instr : Ty → Ty → Instr} (ha : a.Leaves c host m)
    (hb : b.Leaves c host m) (hi : ∀ left right res s, rule.result? left right = some res →
      (instr left right).Effect c host m (right :: left :: s) (res.ty :: s))
    (h : operate rule instr l a b = some r) : r.Leaves c host m := by
  obtain ⟨res, hres, rfl⟩ := Option.map_eq_some_iff.mp h
  intro s
  have hvoid : a.ty ≠ .void ∧ b.ty ≠ .void ∧ res.ty ≠ .void := by
    unfold OperandRule.result? at hres
    split at hres <;> cases hres <;> simp_all
  obtain ⟨hleft, hright, hresult⟩ := hvoid
  have hcode := (ha s).append (hb _)
  rw [Ty.values_eq hleft, Ty.values_eq hright] at hcode
  rw [Ty.values_eq hresult]
  exact hcode.concat (hi _ _ res s hres)

theorem Leaves.multiply {op : MultiplicativeOp} (ha : a.Leaves c host m) (hb : b.Leaves c host m)
    (h : multiply op l a b = some r) : r.Leaves c host m :=
  ha.operate hb (fun _ _ _ s hres => .multiplicative s hres) h

theorem Leaves.add {op : AdditiveOp} (ha : a.Leaves c host m) (hb : b.Leaves c host m)
    (h : add op l a b = some r) : r.Leaves c host m := by
  unfold Translation.add at h
  split at h
  · rename_i hstring
    cases h
    intro s
    simp only [AdditiveOp.concatenates, Bool.and_eq_true, bne_iff_ne, Bool.or_eq_true,
      beq_iff_eq] at hstring
    obtain ⟨⟨⟨-, hleft⟩, hright⟩, hstring⟩ := hstring
    have hcode := (ha s).append (hb _)
    rw [Ty.values_eq hleft, Ty.values_eq hright] at hcode
    exact hcode.concat (.concat s hleft hright hstring)
  · exact ha.operate hb (fun _ _ _ s hres => .additive s hres) h

theorem Leaves.sign {sign : Sign} (ha : a.Leaves c host m) (h : a.sign sign = some r) :
    r.Leaves c host m := by
  cases sign with
  | none =>
      cases h
      exact ha
  | plus _ =>
      simp only [Translation.sign] at h
      split at h <;> cases h
      exact ha
  | minus _ =>
      simp only [Translation.sign] at h
      split at h <;> cases h
      rename_i hnum
      intro s
      have hcode := ha s
      have hvoid : a.ty ≠ .void := by rcases hnum with h | h <;> simp [h]
      rw [Ty.values_eq hvoid] at hcode ⊢
      refine hcode.concat (.unary s ?_)
      simpa [UnaryOp.accepts] using hnum

theorem Leaves.negate {op : UnaryOp} (ha : a.Leaves c host m) (h : a.negate op = some r) :
    r.Leaves c host m := by
  unfold Translation.negate at h
  split at h <;> cases h
  rename_i haccepts
  intro s
  have hcode := ha s
  have hvoid : a.ty ≠ .void := by
    intro hvoid
    rw [hvoid] at haccepts
    cases op <;> cases haccepts
  rw [Ty.values_eq hvoid] at hcode ⊢
  exact hcode.concat (.unary s haccepts)

theorem Leaves.cast {target : Ty} (ha : a.Leaves c host m) (h : a.cast target = some r) :
    r.Leaves c host m := by
  unfold Translation.cast at h
  split at h <;> cases h
  rename_i hcast
  exact fun s => (ha s).concat (.cast s hcast)

theorem Leaves.compare {relation : Relation} (ha : a.Leaves c host m) (hb : b.Leaves c host m)
    (h : compare relation a b = some r) : r.Leaves c host m := by
  unfold Translation.compare at h
  split at h <;> cases h
  rename_i hty
  intro s
  have hcode := (ha s).append (hb _)
  rw [← hty.2, Ty.values_eq hty.1] at hcode
  exact hcode.concat (.compare relation s hty.1)

end Translation

/-! Calls -/

namespace Passed

/-- What the arguments of a call are on the stack, the last one first: values of the parameters
that they are given to, or else their own. -/
def given : (params args : List Ty) → List Ty
  | _, [] => []
  | [], arg :: args => given [] args ++ arg.values
  | param :: params, _ :: args => given params args ++ [param]

/-- The code of arguments leaves them on the stack. -/
def Leaves (c : Code) (host : Host.Registry) (m : Method) (params : List Ty) (r : Passed) :
    Prop :=
  ∀ s, Effects c host m r.code s (given params r.types ++ s)

theorem Leaves.cons {params : List Ty} {arg : Translation} {rest r : Passed}
    (hp : ∀ ty ∈ params, ty ≠ .void) (ha : arg.Leaves c host m)
    (hr : rest.Leaves c host m params.tail) (h : cons params.head? arg rest = some r) :
    r.Leaves c host m params := by
  cases params with
  | nil =>
      cases h
      intro s
      simpa [given] using (ha s).append (hr _)
  | cons param params =>
      simp only [List.head?_cons, Passed.cons] at h
      split at h <;> cases h
      rename_i hassign
      intro s
      have hcast := (ha s).append (.assignCast hassign (hp param List.mem_cons_self) s)
      simpa [given] using hcast.append (hr _)

theorem given_eq_reverse {params args : List Ty} (h : args.length = params.length) :
    given params args = params.reverse := by
  induction params generalizing args with
  | nil =>
      cases args with
      | nil => rfl
      | cons _ _ => cases h
  | cons param params ih =>
      cases args with
      | nil => cases h
      | cons arg args => simp [given, ih (Nat.succ.inj h)]

theorem given_nil_eq_reverse {args : List Ty} (h : ∀ ty ∈ args, ty ≠ .void) :
    given [] args = args.reverse := by
  induction args with
  | nil => rfl
  | cons arg args ih =>
      simp [given, ih fun ty hty => h ty (List.mem_cons_of_mem _ hty),
        Ty.values_eq (h arg List.mem_cons_self)]

/-- Arguments behind the parameters are below the top as far as they have values. -/
theorem given_surplus {params args : List Ty} (h : params.length ≤ args.length) :
    ∃ surplus : List Ty, given params args = surplus.reverse ++ params.reverse ∧
      params.length + surplus.length ≤ args.length ∧ .void ∉ surplus := by
  induction params generalizing args with
  | nil =>
      induction args with
      | nil => exact ⟨[], by simp [given]⟩
      | cons arg args ih =>
          obtain ⟨surplus, hgiven, hlength, hvoid⟩ := ih (Nat.zero_le _)
          simp only [List.reverse_nil, List.append_nil, List.length_nil, Nat.zero_add] at *
          by_cases harg : arg = .void
          · exact ⟨surplus, by simp [given, hgiven, harg], by simp; omega, hvoid⟩
          · refine ⟨arg :: surplus, by simp [given, hgiven, Ty.values_eq harg], by simpa, ?_⟩
            simpa [Ne.symm harg] using hvoid
  | cons param params ih =>
      cases args with
      | nil => cases h
      | cons arg args =>
          obtain ⟨surplus, hgiven, hlength, hvoid⟩ := ih (Nat.le_of_succ_le_succ h)
          refine ⟨surplus, by simp [given, hgiven], ?_, hvoid⟩
          simp only [List.length_cons]
          omega

end Passed

end Tree

namespace Host

variable {m : Method} {args : List Ty}

theorem Method.isApplicable_of_isExact (h : m.isExact args) : m.isApplicable args := by
  obtain rfl : m.params = args := by simpa [isExact] using h
  simp only [isApplicable, beq_self_eq_true, Bool.true_and, List.all_eq_true]
  intro x hx
  obtain ⟨index, hindex, rfl⟩ := List.mem_iff_getElem.mp hx
  rw [List.getElem_zip]
  exact Ty.assignable_self _

theorem selectOverload_eq_some {candidates : List Method}
    (h : selectOverload candidates args = some m) : m ∈ candidates ∧ m.isApplicable args := by
  rcases Option.or_eq_some_iff.mp h with h | ⟨-, h⟩
  · have hexact : m.isExact args := by simpa using List.find?_some h
    exact ⟨List.mem_of_find?_eq_some h, Method.isApplicable_of_isExact hexact⟩
  · exact ⟨List.mem_of_find?_eq_some h, by simpa using List.find?_some h⟩

theorem Method.ne_void_of_isApplicable (h : m.isApplicable args)
    (hp : ∀ ty ∈ m.params, ty ≠ .void) : ∀ ty ∈ args, ty ≠ .void := by
  simp only [isApplicable, Bool.and_eq_true, beq_iff_eq, List.all_eq_true] at h
  intro ty hty
  obtain ⟨index, hindex, rfl⟩ := List.mem_iff_getElem.mp hty
  have hparam : index < m.params.length := h.1 ▸ hindex
  have hmem : (m.params[index], args[index]) ∈ m.params.zip args := by
    refine List.mem_iff_getElem.mpr ⟨index, ?_, List.getElem_zip⟩
    rw [List.length_zip]
    omega
  exact Ty.ne_void_of_assignable (h.2 _ hmem) (hp _ (List.getElem_mem hparam))

end Host

/-- The symbols of a table agree with the code, and all variables have values. -/
structure Table.Describes (t : Table) (c : Code) : Prop where
  agrees : t.Agrees c
  code : c.Proper
  host : t.host.Proper

namespace Table.Describes

open Instr (Effect Effects)
open OnePass.Tree

variable {t : Table} {c : Code} {name : String} {symbol : Symbol} {r : Translation}

theorem scalar {x : Target} (h : t.Describes c) (hs : t.resolve name = some symbol)
    (hx : scalar? symbol.meaning = some x) : x.Reaches c t.host c.current := by
  have hreach {storage : Storage} {ty : Ty} (hscalar : storage.IsScalar)
      (hholds : symbol.meaning.Holds storage ty) :
      Target.Reaches c t.host c.current ⟨storage, ty, [], []⟩ := by
    have htyped := Table.Offers.typed ⟨name, symbol, hs, hholds⟩ h.agrees
    exact .scalar [] hscalar htyped (htyped.ne_void h.code h.host)
  obtain ⟨own, meaning⟩ := symbol
  match meaning, hx with
  | .field ref ty, rfl => exact hreach trivial (.field ref ty)
  | .localVar index ty, rfl => exact hreach trivial (.localVar index ty)
  | .param (some index) ty ordinal, rfl => exact hreach trivial (.param index ty ordinal)

theorem element {index : Translation} {x : Target} (h : t.Describes c)
    (hs : t.resolve name = some symbol) (hi : index.Leaves c t.host c.current)
    (hx : element? index symbol.meaning = some x) : x.Reaches c t.host c.current := by
  obtain ⟨own, meaning⟩ := symbol
  match meaning, hx with
  | .field ref ty, hx =>
      simp only [element?] at hx
      split at hx
      · rename_i element helement
        split at hx <;> cases hx
        rename_i hint
        have htyped : ref.Typed c t.host (.array element) :=
          Table.Offers.typed ⟨name, _, hs, .element ref helement⟩ h.agrees
        refine .element _ htyped (htyped.proper h.code h.host) fun s => ?_
        have hcode := hi (.array element :: s)
        rw [hint] at hcode
        exact ⟨_, .loadBase s htyped, hcode⟩
      · cases hx

/-- What a call of a declared method needs. -/
theorem method {returnType : Ty} {params : List Ty} {index : Nat} (h : t.Describes c)
    (hs : t.resolve name = some symbol)
    (hm : symbol.meaning = .method returnType params (some index)) :
    ∃ callee, c.methods[index]? = some callee ∧ callee.returnType = returnType ∧
      callee.params.toList.map Param.ty = params ∧ ∀ ty ∈ params, ty ≠ .void := by
  obtain hs | ⟨_, _, _, _, hm'⟩ | ⟨_, _, _, _, hm'⟩ := Table.resolve_eq_some hs
  · have hagrees := h.agrees.lookup hs
    rw [hm] at hagrees
    obtain ⟨-, callee, hcallee, hreturn, hparams⟩ := hagrees
    refine ⟨callee, hcallee, hreturn, hparams, ?_⟩
    rw [← hparams]
    intro ty hty
    obtain ⟨v, hv, rfl⟩ := List.mem_map.mp hty
    have hproper := h.code.methods callee (Array.mem_of_getElem? hcallee)
    exact hproper.params v (Array.mem_toList_iff.mp hv)
  · cases hm.symm.trans hm'
  · cases hm.symm.trans hm'

theorem function {builtin : Builtin} {returnType : Ty} {params : List Ty} {variadic : Bool}
    (h : t.Describes c) (hs : t.resolve name = some symbol)
    (hm : symbol.meaning = .function builtin returnType params variadic) :
    returnType = builtin.returnType ∧ params = builtin.params ∧ variadic = builtin.isVariadic := by
  obtain hs | ⟨_, _, _, _, hm'⟩ | ⟨_, _, _, _, hm'⟩ := Table.resolve_eq_some hs
  · have hagrees := h.agrees.lookup hs
    rw [hm] at hagrees
    exact hagrees
  · cases hm.symm.trans hm'
  · cases hm.symm.trans hm'

theorem external {overloads : List Host.Method} (h : t.Describes c)
    (hs : t.resolve name = some symbol) (hm : symbol.meaning = .external overloads) :
    ∀ callee ∈ overloads, ∀ ty ∈ callee.params, ty ≠ .void := by
  obtain hs | ⟨_, _, _, _, hm'⟩ | ⟨overloads', owner, member, hmember, hm'⟩ :=
    Table.resolve_eq_some hs
  · have hagrees := h.agrees.lookup hs
    rw [hm] at hagrees
    exact hagrees.elim
  · cases hm.symm.trans hm'
  · cases hm.symm.trans hm'
    exact h.host.params owner member overloads hmember

/-- Arguments are passed where a call has parameters with values. -/
theorem params {args : Passed} (h : t.Describes c) (hs : t.resolve name = some symbol)
    (hr : args.call symbol.meaning = some r) :
    ∀ ty ∈ Passed.params symbol.meaning, ty ≠ .void := by
  generalize hm : symbol.meaning = meaning at hr
  match meaning, hr with
  | .method returnType params (some index), _ =>
      obtain ⟨_, -, -, -, hvoid⟩ := h.method hs hm
      exact hvoid
  | .function builtin returnType params variadic, _ =>
      obtain ⟨-, rfl, -⟩ := h.function hs hm
      cases builtin <;> simp [Passed.params, Builtin.params]
  | .external _, _ => exact fun _ => nofun

theorem call {args : Passed} (h : t.Describes c) (hs : t.resolve name = some symbol)
    (ha : args.Leaves c t.host c.current (Passed.params symbol.meaning))
    (hr : args.call symbol.meaning = some r) : r.Leaves c t.host c.current := by
  generalize hm : symbol.meaning = meaning at ha hr
  match meaning, hr with
  | .method returnType params (some index), hr =>
      obtain ⟨callee, hcallee, rfl, rfl, -⟩ := h.method hs hm
      simp only [Passed.call] at hr
      split at hr <;> cases hr
      rename_i hlength
      intro s
      have hcode := ha s
      rw [Passed.params, Passed.given_eq_reverse hlength] at hcode
      exact hcode.concat (.callMethod s hcallee)
  | .function builtin returnType params variadic, hr =>
      obtain ⟨rfl, rfl, rfl⟩ := h.function hs hm
      simp only [Passed.call] at hr
      split at hr <;> cases hr
      rename_i harity
      intro s
      have hcode := ha s
      have hle : builtin.params.length ≤ args.types.length := by omega
      obtain ⟨surplus, hgiven, hlength, hvoid⟩ := Passed.given_surplus hle
      rw [Passed.params, hgiven, List.append_assoc] at hcode
      refine hcode.concat (.callBuiltin surplus s hlength ?_ hvoid)
      intro hfixed
      exact harity.resolve_right (by simp [hfixed])
  | .external overloads, hr =>
      simp only [Passed.call] at hr
      split at hr <;> cases hr
      rename_i callee hselect
      obtain ⟨hmem, happlicable⟩ := Host.selectOverload_eq_some hselect
      intro s
      have hcode := ha s
      have hvoid := Host.Method.ne_void_of_isApplicable happlicable (h.external hs hm callee hmem)
      simp only [Passed.params, Passed.given_nil_eq_reverse hvoid] at hcode
      exact hcode.concat (.callExternal s happlicable)

end Table.Describes

/-! The code of a tree -/

namespace Tree

variable {t : Table} {c : Code}

mutual

theorem Simple.leaves (h : t.Describes c) (e : Simple) {r : Translation}
    (hr : e.translate t = some r) : r.Leaves c t.host c.current := by
  cases e with
  | literal l v =>
      cases hr
      intro s
      have hvoid : v.ty ≠ .void := by cases v <;> nofun
      rw [Ty.values_eq hvoid]
      exact (Instr.Effect.const v s).effects
  | value place | countBefore l d place | countAfter place l d =>
      obtain ⟨x, hx, hr⟩ := Option.bind_eq_some_iff.mp hr
      exact (place.reaches h hx).load hr
  | assign place l e =>
      obtain ⟨x, hx, hr⟩ := Option.bind_eq_some_iff.mp hr
      obtain ⟨v, hv, hr⟩ := Option.bind_eq_some_iff.mp hr
      exact (place.reaches h hx).store (e.leaves h hv) hr
  | call l name o args cl =>
      obtain ⟨symbol, hs, hr⟩ := Option.bind_eq_some_iff.mp hr
      obtain ⟨a, ha, hr⟩ := Option.bind_eq_some_iff.mp hr
      exact h.call hs (args.leaves h (h.params hs hr) ha) hr
  | cast o type cl e =>
      obtain ⟨target, -, hr⟩ := Option.bind_eq_some_iff.mp hr
      obtain ⟨a, ha, hr⟩ := Option.bind_eq_some_iff.mp hr
      exact (e.leaves h ha).cast hr
  | paren o e cl => exact e.leaves h hr
  | unary l op e =>
      obtain ⟨a, ha, hr⟩ := Option.bind_eq_some_iff.mp hr
      exact (e.leaves h ha).negate hr

theorem Place.reaches (h : t.Describes c) (place : Place) {x : Target}
    (hx : place.translate t = some x) : x.Reaches c t.host c.current := by
  cases place with
  | name l name =>
      obtain ⟨symbol, hs, hx⟩ := Option.bind_eq_some_iff.mp hx
      exact h.scalar hs hx
  | element l name o e cl =>
      obtain ⟨symbol, hs, hx⟩ := Option.bind_eq_some_iff.mp hx
      obtain ⟨index, hi, hx⟩ := Option.bind_eq_some_iff.mp hx
      exact h.element hs (e.leaves h hi) hx

theorem Arguments.leaves (h : t.Describes c) (args : Arguments) {params : List Ty} {r : Passed}
    (hp : ∀ ty ∈ params, ty ≠ .void) (hr : args.translate t params = Option.some r) :
    r.Leaves c t.host c.current params := by
  cases args with
  | none =>
      cases hr
      intro s
      cases params <;> exact .nil s
  | some list => exact list.leaves h hp hr

theorem ArgumentList.leaves (h : t.Describes c) (list : ArgumentList) {params : List Ty}
    {r : Passed} (hp : ∀ ty ∈ params, ty ≠ .void) (hr : list.translate t params = some r) :
    r.Leaves c t.host c.current params := by
  cases list with
  | last e =>
      obtain ⟨a, ha, hr⟩ := Option.bind_eq_some_iff.mp hr
      refine .cons hp (e.leaves h ha) (fun s => ?_) hr
      cases params.tail <;> exact .nil s
  | more e l rest =>
      obtain ⟨a, ha, hr⟩ := Option.bind_eq_some_iff.mp hr
      obtain ⟨b, hb, hr⟩ := Option.bind_eq_some_iff.mp hr
      have hp' : ∀ ty ∈ params.tail, ty ≠ .void := fun ty hty => hp ty (List.mem_of_mem_tail hty)
      exact .cons hp (e.leaves h ha) (rest.leaves h hp' hb) hr

theorem Product.leaves (h : t.Describes c) (a : Product) {r : Translation}
    (hr : a.translate t = some r) : r.Leaves c t.host c.current := by
  match a with
  | .simple e => exact e.leaves h hr
  | .times a l op b =>
      obtain ⟨x, hx, hr⟩ := Option.bind_eq_some_iff.mp hr
      obtain ⟨y, hy, hr⟩ := Option.bind_eq_some_iff.mp hr
      exact (a.leaves h hx).multiply (b.leaves h hy) hr

theorem Sum.leaves (h : t.Describes c) (a : Sum) {r : Translation}
    (hr : a.translate t = some r) : r.Leaves c t.host c.current := by
  match a with
  | .product sign a =>
      obtain ⟨x, hx, hr⟩ := Option.bind_eq_some_iff.mp hr
      exact (a.leaves h hx).sign hr
  | .plus a l op b =>
      obtain ⟨x, hx, hr⟩ := Option.bind_eq_some_iff.mp hr
      obtain ⟨y, hy, hr⟩ := Option.bind_eq_some_iff.mp hr
      exact (a.leaves h hx).add (b.leaves h hy) hr

theorem Expr.leaves (h : t.Describes c) (e : Expr) {r : Translation}
    (hr : e.translate t = some r) : r.Leaves c t.host c.current := by
  cases e with
  | sum a => exact a.leaves h hr
  | compare a l relation b =>
      obtain ⟨x, hx, hr⟩ := Option.bind_eq_some_iff.mp hr
      obtain ⟨y, hy, hr⟩ := Option.bind_eq_some_iff.mp hr
      exact (a.leaves h hx).compare (b.leaves h hy) hr

end

end Tree
end OnePass
