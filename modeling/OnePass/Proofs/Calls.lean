import OnePass.Proofs.StackSafety

/-!
Calls and their arguments. In compiled code every call stands directly behind the code of its
arguments, which leaves a value for each argument that has one. Parameters are never void, and so
no argument is that is given to one. Arguments behind the parameters of a variadic builtin are
taken as they are: one that is void counts, but leaves no value.
-/

namespace OnePass

open Instr (Effect Effects)

namespace CallTarget

/-- A call of the target names a number of arguments. -/
def Takes (c : Code) : CallTarget → Nat → Prop
  | .method index, n => ∃ callee, c.methods[index]? = some callee ∧ callee.params.size = n
  | .external m, n => m.params.length = n
  | .intrinsic _ args, n => args = n

/-- There is no parameter for the argument at an index, and it may still be given. -/
def IsSurplus (target : CallTarget) (i : Nat) : Prop :=
  ∃ builtin args, target = .intrinsic builtin args ∧ builtin.isVariadic ∧
    builtin.params.length ≤ i

theorem Takes.mono {c d : Code} {target : CallTarget} {n : Nat} (h : target.Takes c n)
    (hext : c.Extends d) : target.Takes d n := by
  cases target with
  | method index =>
      obtain ⟨callee, hcallee, hsize⟩ := h
      obtain ⟨callee', hcallee', hgrown⟩ := hext.methods index callee hcallee
      exact ⟨callee', hcallee', by rw [hgrown.params, hsize]⟩
  | external _ | intrinsic _ _ => exact h

end CallTarget

/-! Arguments -/

namespace Tree

variable {c d : Code} {host : Host.Registry} {m m' : Method} {t : Table} {target : CallTarget}

/-- Arguments that are passed to a call: as many as it names, none of them void but for those
without a parameter, and with a value on the stack for each one that is not void. -/
structure Passed.Supplies (c : Code) (host : Host.Registry) (m : Method) (target : CallTarget)
    (args : Passed) : Prop where
  translated : ∃ (t : Table) (params : List Ty) (list : Arguments),
    list.translate t params = some args
  takes : target.Takes c args.types.length
  surplus : ∀ i : Nat, args.types[i]? = some .void → target.IsSurplus i
  leaves : ∃ values : List Ty, values.length + args.types.count .void = args.types.length ∧
    ∀ s, Effects c host m args.code s (values ++ s)

namespace Passed

theorem Supplies.mono {args : Passed} (h : args.Supplies c host m target) (hext : c.Extends d)
    (hm : m.Extends m') : args.Supplies d host m' target := by
  obtain ⟨values, hlength, heffects⟩ := h.leaves
  exact ⟨h.translated, h.takes.mono hext, h.surplus, values, hlength,
    fun s => (heffects s).mono hext hm⟩

/-- Every argument with a parameter leaves one value, and the others do if they are not void. -/
theorem length_given {params args : List Ty}
    (h : ∀ i < params.length, args[i]? ≠ some .void) :
    (given params args).length + args.count .void = args.length := by
  induction args generalizing params with
  | nil => simp [given]
  | cons arg args ih =>
      cases params with
      | nil =>
          have hrest := @ih [] (by simp)
          by_cases harg : arg = .void
          · simp [given, harg]
            omega
          · simp [given, Ty.values_eq harg, List.count_cons_of_ne harg]
            omega
      | cons param params =>
          have harg : arg ≠ .void := by simpa using h 0 (by simp)
          have hrest := @ih params fun i hi => by simpa using h (i + 1) (by simpa using hi)
          simp [given, List.count_cons_of_ne harg]
          omega

theorem types_cons {param : Option Ty} {arg : Translation} {rest r : Passed}
    (h : cons param arg rest = some r) :
    r.types = arg.ty :: rest.types ∧ ∀ ty, param = some ty → ty.assignable arg.ty := by
  cases param with
  | none =>
      cases h
      exact ⟨rfl, nofun⟩
  | some ty =>
      simp only [cons] at h
      split at h <;> cases h
      rename_i hassign
      refine ⟨rfl, ?_⟩
      rintro _ ⟨⟩
      exact hassign

end Passed

theorem ArgumentList.ne_void (list : ArgumentList) {params : List Ty} {args : Passed}
    (hp : ∀ ty ∈ params, ty ≠ .void) (h : list.translate t params = some args) :
    ∀ i < params.length, args.types[i]? ≠ some .void := by
  -- The first argument is given to the first parameter, and the others to those behind it.
  have hfirst {arg : Translation} {rest : Passed}
      (hrest : ∀ i < params.tail.length, rest.types[i]? ≠ some .void)
      (h : Passed.cons params.head? arg rest = some args) :
      ∀ i < params.length, args.types[i]? ≠ some .void := by
    obtain ⟨htypes, hassign⟩ := Passed.types_cons h
    rw [htypes]
    intro i hi
    cases params with
    | nil => cases hi
    | cons param params =>
        cases i with
        | zero =>
            have harg := Ty.ne_void_of_assignable (hassign param rfl) (hp param List.mem_cons_self)
            simpa using harg
        | succ i => simpa using hrest i (by simpa using hi)
  match list with
  | .last e =>
      obtain ⟨a, -, h⟩ := Option.bind_eq_some_iff.mp h
      exact hfirst (by simp [Passed.nil]) h
  | .more e l rest =>
      obtain ⟨a, -, h⟩ := Option.bind_eq_some_iff.mp h
      obtain ⟨b, hb, h⟩ := Option.bind_eq_some_iff.mp h
      exact hfirst (rest.ne_void (fun ty hty => hp ty (List.mem_of_mem_tail hty)) hb) h

theorem Arguments.ne_void (list : Arguments) {params : List Ty} {args : Passed}
    (hp : ∀ ty ∈ params, ty ≠ .void) (h : list.translate t params = Option.some args) :
    ∀ i < params.length, args.types[i]? ≠ Option.some .void := by
  cases list with
  | none =>
      cases h
      simp [Passed.nil]
  | some list => exact list.ne_void hp h

end Tree

open OnePass.Tree in
/-- A call is written behind arguments that are fit for it. -/
theorem Table.Describes.supplies {t : Table} {c : Code} {name : String} {symbol : Symbol}
    {list : Arguments} {args : Passed} {r : Translation} (h : t.Describes c)
    (hs : t.resolve name = some symbol)
    (ha : list.translate t (Passed.params symbol.meaning) = some args)
    (hr : args.call symbol.meaning = some r) :
    ∃ target, r.code = args.code ++ [.call target] ∧
      args.Supplies c t.host c.current target := by
  have hp := h.params hs hr
  have hvoid := list.ne_void hp ha
  have hleaves := list.leaves h hp ha
  have hvalues := Passed.length_given hvoid
  generalize hm : symbol.meaning = meaning at ha hr hvoid hleaves hvalues
  match meaning, hr with
  | .method returnType params (some index), hr =>
      obtain ⟨callee, hcallee, -, hparams, -⟩ := h.method hs hm
      simp only [Passed.call] at hr
      split at hr <;> cases hr
      rename_i hlength
      refine ⟨_, rfl, ⟨t, _, list, ha⟩, ⟨callee, hcallee, ?_⟩, ?_, _, hvalues, hleaves⟩
      · rw [hlength, ← hparams]
        simp
      · intro i hi
        refine absurd hi (hvoid i ?_)
        exact hlength ▸ (List.getElem?_eq_some_iff.mp hi).1
  | .function builtin returnType params variadic, hr =>
      obtain ⟨-, rfl, rfl⟩ := h.function hs hm
      simp only [Passed.call] at hr
      split at hr <;> cases hr
      rename_i harity
      refine ⟨_, rfl, ⟨t, _, list, ha⟩, rfl, ?_, _, hvalues, hleaves⟩
      intro i hi
      have hsize := (List.getElem?_eq_some_iff.mp hi).1
      have hbehind : builtin.params.length ≤ i := Nat.le_of_not_lt fun hlt => hvoid i hlt hi
      exact ⟨builtin, _, rfl, (harity.resolve_left (by omega)).1, hbehind⟩
  | .external overloads, hr =>
      simp only [Passed.call] at hr
      split at hr <;> cases hr
      rename_i callee hselect
      obtain ⟨hmem, happlicable⟩ := Host.selectOverload_eq_some hselect
      have hnone := Host.Method.ne_void_of_isApplicable happlicable (h.external hs hm callee hmem)
      refine ⟨_, rfl, ⟨t, _, list, ha⟩, ?_, ?_, _, hvalues, hleaves⟩
      · simp only [Host.Method.isApplicable, Bool.and_eq_true, beq_iff_eq] at happlicable
        exact happlicable.1
      · exact fun i hi => absurd rfl (hnone _ (List.mem_of_getElem? hi))

/-! Code -/

/-- Every call stands directly behind the code of its arguments. -/
def Instr.Supplied (c : Code) (host : Host.Registry) (m : Method) (is : List Instr) : Prop :=
  ∀ before target after, is = before ++ .call target :: after →
    ∃ (front : List Instr) (args : Tree.Passed),
      before = front ++ args.code ∧ args.Supplies c host m target

namespace Instr.Supplied

variable {c d : Code} {host : Host.Registry} {m m' : Method} {is is' : List Instr}

theorem mono (h : Supplied c host m is) (hext : c.Extends d) (hm : m.Extends m') :
    Supplied d host m' is := by
  intro before target after heq
  obtain ⟨front, args, hbefore, hargs⟩ := h before target after heq
  exact ⟨front, args, hbefore, hargs.mono hext hm⟩

theorem append (h : Supplied c host m is) (h' : Supplied c host m is') :
    Supplied c host m (is ++ is') := by
  intro before target after heq
  -- The call is among the later instructions, or among the first ones.
  rcases List.append_eq_append_iff.mp heq with ⟨us, rfl, hlater⟩ | ⟨us, hfirst, hrest⟩
  · obtain ⟨front, args, rfl, hargs⟩ := h' us target after hlater
    exact ⟨is ++ front, args, (List.append_assoc ..).symm, hargs⟩
  · cases us with
    | nil =>
        obtain ⟨front, args, hnil, hargs⟩ := h' [] target after hrest.symm
        exact ⟨before ++ front, args, by rw [List.append_assoc, ← hnil, List.append_nil], hargs⟩
    | cons i us =>
        obtain ⟨rfl, -⟩ := List.cons_eq_cons.mp hrest
        exact h before target us hfirst

theorem of_plain (h : ∀ target, .call target ∉ is) : Supplied c host m is := by
  rintro before target after rfl
  exact absurd (by simp) (h target)

theorem call {args : Tree.Passed} {target : CallTarget} (h : Supplied c host m args.code)
    (hargs : args.Supplies c host m target) : Supplied c host m (args.code ++ [.call target]) := by
  intro before target' after heq
  have hlast : before = args.code → target' = target → ∃ (front : List Instr) (args : Tree.Passed),
      before = front ++ args.code ∧ args.Supplies c host m target' := by
    rintro rfl rfl
    exact ⟨[], args, rfl, hargs⟩
  rcases List.append_eq_append_iff.mp heq with ⟨us, hbefore, hlater⟩ | ⟨us, hfirst, hrest⟩
  · cases us with
    | nil =>
        obtain ⟨heq, -⟩ := List.cons_eq_cons.mp hlater
        exact hlast (by simpa using hbefore) (by simpa using heq.symm)
    | cons i us => simp at hlater
  · cases us with
    | nil =>
        obtain ⟨heq, -⟩ := List.cons_eq_cons.mp hrest
        exact hlast (by simpa using hfirst.symm) (by simpa using heq)
    | cons i us =>
        obtain ⟨rfl, -⟩ := List.cons_eq_cons.mp hrest
        exact h before target' us hfirst

end Instr.Supplied

namespace Tree

open Instr (Supplied)

variable {c : Code} {host : Host.Registry} {m : Method} {t : Table}

theorem Target.plain_loadCode (storage : Storage) (mode : Option Count) (target : CallTarget) :
    .call target ∉ loadCode storage mode := by
  cases storage <;> cases mode <;> simp [loadCode, Instr.count?]

theorem Target.supplied_load {x : Target} {mode : Option Count} {r : Translation}
    (hx : Supplied c host m x.code) (h : x.load mode = some r) : Supplied c host m r.code := by
  unfold Target.load at h
  split at h <;> cases h
  exact hx.append (.of_plain (plain_loadCode _ _))

theorem supplied_assignCast (target source : Ty) :
    Supplied c host m (Instr.assignCast? target source).toList := by
  refine .of_plain fun _ => ?_
  unfold Instr.assignCast?
  split <;> simp

theorem Target.supplied_store {x : Target} {value r : Translation}
    (hx : Supplied c host m x.code) (hv : Supplied c host m value.code)
    (h : x.store value = some r) : Supplied c host m r.code := by
  unfold Target.store at h
  split at h <;> cases h
  exact ((hx.append hv).append (supplied_assignCast _ _)).append (.of_plain (by simp))

namespace Translation

variable {a b r : Translation} {l : Location}

theorem supplied_operate {rule : OperandRule} {instr : Ty → Ty → Instr}
    (hi : ∀ left right target, instr left right ≠ .call target) (ha : Supplied c host m a.code)
    (hb : Supplied c host m b.code) (h : operate rule instr l a b = some r) :
    Supplied c host m r.code := by
  obtain ⟨res, -, rfl⟩ := Option.map_eq_some_iff.mp h
  refine (ha.append hb).append (.of_plain fun target hmem => ?_)
  exact hi _ _ target (List.mem_singleton.mp hmem).symm

theorem supplied_add {op : AdditiveOp} (ha : Supplied c host m a.code)
    (hb : Supplied c host m b.code) (h : add op l a b = some r) : Supplied c host m r.code := by
  unfold Translation.add at h
  split at h
  · cases h
    exact (ha.append hb).append (.of_plain (by simp))
  · exact supplied_operate (by simp) ha hb h

theorem supplied_sign {sign : Sign} (ha : Supplied c host m a.code) (h : a.sign sign = some r) :
    Supplied c host m r.code := by
  cases sign with
  | none =>
      cases h
      exact ha
  | plus _ =>
      simp only [Translation.sign] at h
      split at h <;> cases h
      exact ha
  | minus _ =>
      simp only [Translation.sign] at h
      split at h <;> cases h
      exact ha.append (.of_plain (by simp))

theorem supplied_negate {op : UnaryOp} (ha : Supplied c host m a.code)
    (h : a.negate op = some r) : Supplied c host m r.code := by
  unfold Translation.negate at h
  split at h <;> cases h
  exact ha.append (.of_plain (by simp))

theorem supplied_cast {target : Ty} (ha : Supplied c host m a.code)
    (h : a.cast target = some r) : Supplied c host m r.code := by
  unfold Translation.cast at h
  split at h <;> cases h
  exact ha.append (.of_plain (by simp))

theorem supplied_compare {relation : Relation} (ha : Supplied c host m a.code)
    (hb : Supplied c host m b.code) (h : compare relation a b = some r) :
    Supplied c host m r.code := by
  unfold Translation.compare at h
  split at h <;> cases h
  exact (ha.append hb).append (.of_plain (by simp))

end Translation

theorem Passed.supplied_cons {param : Option Ty} {arg : Translation} {rest r : Passed}
    (ha : Supplied c host m arg.code) (hr : Supplied c host m rest.code)
    (h : Passed.cons param arg rest = some r) : Supplied c host m r.code := by
  cases param with
  | none =>
      cases h
      exact ha.append hr
  | some ty =>
      simp only [Passed.cons] at h
      split at h <;> cases h
      exact (ha.append (supplied_assignCast _ _)).append hr

theorem supplied_element {index : Translation} {meaning : Meaning} {x : Target}
    (hi : Supplied c host m index.code) (h : element? index meaning = some x) :
    Supplied c host m x.code := by
  cases meaning with
  | field ref ty =>
      simp only [element?] at h
      split at h
      · split at h <;> cases h
        have hbase : Supplied c host m [.loadBase ref] := .of_plain (by simp)
        exact hbase.append hi
      · cases h
  | _ => cases h

theorem scalar_code {meaning : Meaning} {x : Target} (h : scalar? meaning = some x) :
    x.code = [] := by
  unfold scalar? at h
  split at h <;> cases h <;> rfl

mutual

theorem Simple.supplied (h : t.Describes c) (e : Simple) {r : Translation}
    (hr : e.translate t = some r) : Supplied c t.host c.current r.code := by
  cases e with
  | literal l v =>
      cases hr
      exact .of_plain (by simp)
  | value place | countBefore l d place | countAfter place l d =>
      obtain ⟨x, hx, hr⟩ := Option.bind_eq_some_iff.mp hr
      exact Target.supplied_load (place.supplied h hx) hr
  | assign place l e =>
      obtain ⟨x, hx, hr⟩ := Option.bind_eq_some_iff.mp hr
      obtain ⟨v, hv, hr⟩ := Option.bind_eq_some_iff.mp hr
      exact Target.supplied_store (place.supplied h hx) (e.supplied h hv) hr
  | call l name o args cl =>
      obtain ⟨symbol, hs, hr⟩ := Option.bind_eq_some_iff.mp hr
      obtain ⟨a, ha, hr⟩ := Option.bind_eq_some_iff.mp hr
      obtain ⟨target, hcode, hsupplies⟩ := h.supplies hs ha hr
      rw [hcode]
      exact .call (args.supplied h ha) hsupplies
  | cast o type cl e =>
      obtain ⟨target, -, hr⟩ := Option.bind_eq_some_iff.mp hr
      obtain ⟨a, ha, hr⟩ := Option.bind_eq_some_iff.mp hr
      exact Translation.supplied_cast (e.supplied h ha) hr
  | paren o e cl => exact e.supplied h hr
  | unary l op e =>
      obtain ⟨a, ha, hr⟩ := Option.bind_eq_some_iff.mp hr
      exact Translation.supplied_negate (e.supplied h ha) hr

theorem Place.supplied (h : t.Describes c) (place : Place) {x : Target}
    (hx : place.translate t = some x) : Supplied c t.host c.current x.code := by
  cases place with
  | name l name =>
      obtain ⟨symbol, -, hx⟩ := Option.bind_eq_some_iff.mp hx
      rw [scalar_code hx]
      exact .of_plain (by simp)
  | element l name o e cl =>
      obtain ⟨symbol, -, hx⟩ := Option.bind_eq_some_iff.mp hx
      obtain ⟨index, hi, hx⟩ := Option.bind_eq_some_iff.mp hx
      exact supplied_element (e.supplied h hi) hx

theorem Arguments.supplied (h : t.Describes c) (args : Arguments) {params : List Ty} {r : Passed}
    (hr : args.translate t params = Option.some r) : Supplied c t.host c.current r.code := by
  cases args with
  | none =>
      cases hr
      exact .of_plain (by simp [Passed.nil])
  | some list => exact list.supplied h hr

theorem ArgumentList.supplied (h : t.Describes c) (list : ArgumentList) {params : List Ty}
    {r : Passed} (hr : list.translate t params = some r) :
    Supplied c t.host c.current r.code := by
  cases list with
  | last e =>
      obtain ⟨a, ha, hr⟩ := Option.bind_eq_some_iff.mp hr
      exact Passed.supplied_cons (e.supplied h ha) (.of_plain (by simp [Passed.nil])) hr
  | more e l rest =>
      obtain ⟨a, ha, hr⟩ := Option.bind_eq_some_iff.mp hr
      obtain ⟨b, hb, hr⟩ := Option.bind_eq_some_iff.mp hr
      exact Passed.supplied_cons (e.supplied h ha) (rest.supplied h hb) hr

theorem Product.supplied (h : t.Describes c) (a : Product) {r : Translation}
    (hr : a.translate t = some r) : Supplied c t.host c.current r.code := by
  match a with
  | .simple e => exact e.supplied h hr
  | .times a l op b =>
      obtain ⟨x, hx, hr⟩ := Option.bind_eq_some_iff.mp hr
      obtain ⟨y, hy, hr⟩ := Option.bind_eq_some_iff.mp hr
      exact Translation.supplied_operate (by simp) (a.supplied h hx) (b.supplied h hy) hr

theorem Sum.supplied (h : t.Describes c) (a : Sum) {r : Translation}
    (hr : a.translate t = some r) : Supplied c t.host c.current r.code := by
  match a with
  | .product sign a =>
      obtain ⟨x, hx, hr⟩ := Option.bind_eq_some_iff.mp hr
      exact Translation.supplied_sign (a.supplied h hx) hr
  | .plus a l op b =>
      obtain ⟨x, hx, hr⟩ := Option.bind_eq_some_iff.mp hr
      obtain ⟨y, hy, hr⟩ := Option.bind_eq_some_iff.mp hr
      exact Translation.supplied_add (a.supplied h hx) (b.supplied h hy) hr

theorem Expr.supplied (h : t.Describes c) (e : Expr) {r : Translation}
    (hr : e.translate t = some r) : Supplied c t.host c.current r.code := by
  cases e with
  | sum a => exact a.supplied h hr
  | compare a l relation b =>
      obtain ⟨x, hx, hr⟩ := Option.bind_eq_some_iff.mp hr
      obtain ⟨y, hy, hr⟩ := Option.bind_eq_some_iff.mp hr
      exact Translation.supplied_compare (a.supplied h hx) (b.supplied h hy) hr

end

end Tree

/-! Compilations -/

/-- The calls of all methods have their arguments, and variables have values. -/
structure Code.Supplied (host : Host.Registry) (c : Code) : Prop where
  proper : c.Proper
  calls : ∀ (index : Nat) (m : Method), c.methods[index]? = some m →
    Instr.Supplied c host m m.code.toList

namespace Code.Supplied

variable {c d : Code} {host : Host.Registry} {is : List Instr}

/-- Instructions are written behind those of the open method, which may change otherwise. -/
theorem update {f : Method → Method} (h : c.Supplied host)
    (hext : c.current.Extends (f c.current)) (hproper : (c.updateCurrent f).Proper)
    (hcode : (f c.current).code = c.current.code ++ is.toArray)
    (his : Instr.Supplied c host c.current is) : (c.updateCurrent f).Supplied host := by
  have hgrows := Extends.update hext
  refine ⟨hproper, ?_⟩
  intro index m hm
  obtain ⟨-, rfl⟩ | ⟨-, hm⟩ := c.getElem_updateCurrent hm
  · rw [hcode, Array.toList_append]
    exact ((h.calls _ _ c.getElem_currentIndex).append his).mono hgrows hext
  · exact (h.calls index m hm).mono hgrows (.refl m)

theorem update_plain {f : Method → Method} (h : c.Supplied host)
    (hext : c.current.Extends (f c.current)) (hproper : (c.updateCurrent f).Proper)
    (hcode : (f c.current).code = c.current.code) : (c.updateCurrent f).Supplied host :=
  have hnone : Instr.Supplied c host c.current [] := .of_plain (by simp)
  h.update hext hproper (by simp [hcode]) hnone

theorem emitAll (h : c.Supplied host) (his : Instr.Supplied c host c.current is) :
    (c.emitAll is).Supplied host := by
  rw [emitAll_eq]
  refine h.update ⟨rfl, rfl, ⟨#[], by simp⟩, ⟨is.toArray, rfl⟩⟩ ?_ rfl his
  exact h.proper.update ⟨h.proper.current.params, h.proper.current.locals⟩

/-- Other methods may be opened, and labels and fields added. -/
theorem turn (h : c.Supplied host) (hext : c.Extends d) (hproper : d.Proper)
    (hmethods : ∀ (index : Nat) (m : Method), d.methods[index]? = some m →
      c.methods[index]? = some m ∨ m.code = #[]) : d.Supplied host := by
  refine ⟨hproper, ?_⟩
  intro index m hm
  rcases hmethods index m hm with hm | hcode
  · exact (h.calls index m hm).mono hext (.refl m)
  · rw [hcode]
    exact .of_plain (by simp)

/-- Only expressions write calls. -/
theorem invariant (host : Host.Registry) : Invariant host fun _ _ c => c.Supplied host where
  proper := proper
  mono h _ := h
  value h ht hhost hr := h.emitAll (hhost ▸ Tree.Expr.supplied ht _ hr)
  emit h _ hi := h.emitAll (.of_plain fun target hmem =>
    hi target (List.mem_singleton.mp hmem).symm)
  update h hext hcode hproper := h.update_plain hext hproper hcode
  newLabel h := h.turn (.of_methods rfl rfl) (h.proper.of_methods rfl rfl) fun _ _ => .inl
  markLabel h _ := h.turn (.of_methods rfl rfl) (h.proper.of_methods rfl rfl) fun _ _ => .inl
  turn h hext hproper hmethods _ := h.turn hext hproper hmethods

theorem empty (host : Host.Registry) (entryName : String) :
    (Code.empty entryName).Supplied host := by
  refine ⟨(Code.stacked_empty host entryName).proper, ?_⟩
  intro index m hm
  rw [Code.eq_of_getElem_empty hm]
  exact .of_plain (by simp)

end Code.Supplied

/-- In a module that is compiled against the standard host, every call stands behind arguments
that are fit for it. Only arguments behind the parameters of a variadic builtin can be void, and
the call finds as many values as it names arguments exactly if none of them is. -/
theorem compile_supplies {source : String} {config : Config} {m : Module}
    (h : (compile source config).result = .ok m) {index : Nat} {method : Method}
    (hm : m.methods[index]? = some method) {before after : List Instr} {target : CallTarget}
    (hcall : method.code.toList = before ++ .call target :: after) :
    ∃ (front : List Instr) (args : Tree.Passed) (values : List Ty),
      before = front ++ args.code ∧
      (∃ t params list, Tree.Arguments.translate t params list = some args) ∧
      target.Takes m.code args.types.length ∧
      (∀ i : Nat, args.types[i]? = some .void → target.IsSurplus i) ∧
      (∀ s, Effects m.code Host.standard method args.code s (values ++ s)) ∧
      (values.length = args.types.length ↔ .void ∉ args.types) := by
  have hresult := h.symm.trans (result_compileWith Host.standard source config)
  by_cases hzero : (run source config Host.standard).2.diagnostics.errorCount = 0
  · rw [if_pos hzero] at hresult
    cases hresult
    have hc := finishable_run source config Host.standard
    rw [Code.methods_module hc.body] at hm
    have hsupplied := (Code.Supplied.invariant _).run Host.proper_standard (.empty _ _) hzero
    obtain ⟨front, args, hbefore, hargs⟩ :=
      hsupplied.calls index method hm before target after hcall
    obtain ⟨values, hlength, heffects⟩ := hargs.leaves
    rw [Code.code_module hc.body]
    refine ⟨front, args, values, hbefore, hargs.translated, hargs.takes, hargs.surplus, heffects,
      ?_⟩
    rw [← List.count_eq_zero]
    omega
  · rw [if_neg hzero] at hresult
    cases hresult

/-- A program with a call among the arguments of another one. -/
def adding : String :=
  "int add(int a, int b) \x7b return a + b; \x7d printf(\"%d\", add(1, 2));"

theorem compile_supplies_adding :
    ∃ (m : Module) (method : Method) (before after : List Instr),
      (compile adding {}).result = .ok m ∧ m.methods[0]? = some method ∧
      method.code.toList = before ++ .call (.intrinsic .printf 2) :: after ∧
      ∃ (front : List Instr) (args : Tree.Passed) (values : List Ty),
        before = front ++ args.code ∧ args.types.length = 2 ∧
        ∀ s, Effects m.code Host.standard method args.code s (values ++ s) := by
  have hcode : ((compile adding {}).result.toOption.bind (·.methods[0]?)).map (·.code.toList) =
      some ([.const (.str "%d"), .const (.int 1), .const (.int 2), .call (.method 1)] ++
        .call (.intrinsic .printf 2) :: [.pop]) := by
    decide +kernel
  cases h : (compile adding {}).result with
  | error e =>
      rw [h] at hcode
      cases hcode
  | ok m =>
      rw [h] at hcode
      obtain ⟨method, hmethod, hcall⟩ := Option.map_eq_some_iff.mp hcode
      obtain ⟨front, args, values, hbefore, -, htakes, -, heffects, -⟩ :=
        compile_supplies h hmethod hcall
      exact ⟨m, method, _, _, rfl, hmethod, hcall, front, args, values, hbefore, htakes.symm,
        heffects⟩

/-- A program with an assignment among the arguments behind a format. -/
def printingVoid : String :=
  "int g; printf(\"x\", g = 1);"

/-- The call names two arguments, and there is one value on the stack. -/
theorem compile_printingVoid :
    ∃ (m : Module) (before after : List Instr),
      (compile printingVoid {}).result = .ok m ∧
      m.entry.code.toList = before ++ .call (.intrinsic .printf 2) :: after ∧
      Effects m.code Host.standard m.entry before [] [.string] := by
  have hmodule : (compile printingVoid {}).result.toOption = some {
      fields := #[⟨"g", .int, none⟩]
      entry := {
        name := "<main>", returnType := .void
        code := #[.const (.str "x"), .const (.int 1), .store (.field (.module 0)),
          .call (.intrinsic .printf 2), .pop] }
      declared := #[], labels := #[] } := by
    decide +kernel
  cases h : (compile printingVoid {}).result with
  | error e =>
      rw [h] at hmodule
      cases hmodule
  | ok m =>
      rw [h] at hmodule
      cases hmodule
      refine ⟨_, [.const (.str "x"), .const (.int 1), .store (.field (.module 0))], [.pop], rfl,
        rfl, ?_⟩
      exact ⟨_, .const _ _, _, .const _ _, _, .store _ trivial ⟨⟨"g", .int, none⟩, rfl, rfl⟩, rfl⟩

end OnePass
