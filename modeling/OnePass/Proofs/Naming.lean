import Mathlib.Data.List.Nodup
import OnePass.Proofs.Environment
import OnePass.Proofs.Invariants

/-!
What a program declares is well formed, with or without errors. Names are looked up in the innermost
scope of the table before they are declared, and code takes what is declared behind what it has. So
the names of a module differ if the scopes of the table are those of the code: fields and methods
stand in the scope around all blocks, and a method has its parameters in the same block as its
outermost local variables.
-/

namespace OnePass

/-! Well-formed declarations -/

/-- The names of the local variables that were declared at a depth. -/
def Local.namesAt (depth : Nat) (vs : List Local) : List String :=
  (vs.filter (·.depth = depth)).map Local.name

theorem Local.namesAt_append (depth : Nat) (vs vs' : List Local) :
    namesAt depth (vs ++ vs') = namesAt depth vs ++ namesAt depth vs' := by
  simp [namesAt]

theorem Local.mem_namesAt {depth : Nat} {vs : List Local} {name : String} :
    name ∈ namesAt depth vs ↔ ∃ v ∈ vs, v.depth = depth ∧ v.name = name := by
  simp [namesAt, and_assoc]

/-- The names of the parameters, and of the local variables outside of inner blocks. -/
def Method.ownNames (m : Method) : List String :=
  m.params.toList.map Param.name ++ Local.namesAt 0 m.locals.toList

structure Field.WellFormed (f : Field) : Prop where
  ty : f.ty ≠ .void
  array : f.arraySize.isSome ↔ ∃ element, f.ty = .array element
  element : ∀ element, f.ty = .array element → element ≠ .void ∧ ∀ inner, element ≠ .array inner
  size : ∀ n, f.arraySize = some n → 1 ≤ n ∧ n ≤ 2147483647

/-- A declared method: its own names differ, and its parameters are counted from one. -/
structure Method.WellFormed (m : Method) : Prop where
  names : m.ownNames.Nodup
  ordinals : m.params.toList.map Param.ordinal = List.range' 1 m.params.size
  values : m.Proper

/-- The entry method: it takes and returns nothing, and declares only inside of blocks. -/
structure Method.IsEntry (m : Method) : Prop where
  returnType : m.returnType = .void
  params : m.params = #[]
  locals : ∀ v ∈ m.locals, v.depth ≠ 0
  values : m.Proper

/-- The names of all fields and methods but the entry method. -/
def Module.memberNames (m : Module) : List String :=
  m.fields.toList.map Field.name ++ m.declared.toList.map Method.name

structure Module.WellDeclared (m : Module) : Prop where
  names : m.memberNames.Nodup
  fields : ∀ f ∈ m.fields, f.WellFormed
  methods : ∀ x ∈ m.declared, x.WellFormed
  entry : m.entry.IsEntry

/-! Scopes and local variables -/

theorem Table.declaredAt?_declare (t : Table) (symbol : Symbol) (l : Location) (name : String) :
    (t.declare symbol l).declaredAt? name =
      if symbol.name = name then some l else t.declaredAt? name := by
  unfold declaredAt? innermost declare updateInnermost
  cases t.blocks with
  | nil =>
      simp only [List.headD_nil, Frame.declare, Catalog.find?_put]
      split <;> rfl
  | cons f rest =>
      simp only [List.headD_cons, Frame.declare, Catalog.find?_put]
      split <;> rfl

namespace Pass

/-- What statements declare: local variables with values. Those at the depth of the open block have
names of their own, which the innermost scope of the table has from then on. -/
structure Declares (p q : Pass) : Prop where
  outer : q.table.closeScope = p.table.closeScope
  blocks : q.table.blocks = [] ↔ p.table.blocks = []
  kept : ∀ name, q.table.declaredAt? name = none → p.table.declaredAt? name = none
  depth : q.code.current.depth = p.code.current.depth
  locals : ∃ vs : List Local, q.code.current.locals = p.code.current.locals ++ vs.toArray ∧
    (∀ v ∈ vs, v.ty ≠ .void ∧ p.code.current.depth ≤ v.depth) ∧
    (Local.namesAt p.code.current.depth vs).Nodup ∧
    ∀ name ∈ Local.namesAt p.code.current.depth vs, p.table.blocks ≠ [] ∧
      p.table.declaredAt? name = none ∧ q.table.declaredAt? name ≠ none

namespace Declares

variable {p q r : Pass} {is : List Instr}

theorem of_eq (htable : q.table = p.table) (hdepth : q.code.current.depth = p.code.current.depth)
    (hlocals : q.code.current.locals = p.code.current.locals) : p.Declares q where
  outer := by rw [htable]
  blocks := by rw [htable]
  kept name h := by rwa [htable] at h
  depth := hdepth
  locals := ⟨[], by simp [hlocals], by simp, by simp [Local.namesAt], by simp [Local.namesAt]⟩

theorem writes (h : p.Writes is q) : p.Declares q :=
  of_eq h.table (by simp [h.code, Code.emitAll_eq]) (by simp [h.code, Code.emitAll_eq])

theorem fields (h : p.Declares q) : q.table.fields = p.table.fields := by
  show q.table.closeScope.fields = p.table.closeScope.fields
  rw [h.outer]

theorem perform (p : Pass) {r : Code.Request} (hr : Asks r) : p.Declares (p.perform r) := by
  cases r with
  | emit i =>
      exact of_eq (by simp) (by simp [Code.emit, Method.emit]) (by simp [Code.emit, Method.emit])
  | newLabel | markLabel _ => exact of_eq (by simp) rfl rfl
  | _ => exact hr.elim

theorem trans (h : p.Declares q) (h' : q.Declares r) : p.Declares r := by
  obtain ⟨vs, hvs, hvalues, hnodup, hnew⟩ := h.locals
  obtain ⟨vs', hvs', hvalues', hnodup', hnew'⟩ := h'.locals
  rw [h.depth] at hvalues' hnodup' hnew'
  refine ⟨h'.outer.trans h.outer, h'.blocks.trans h.blocks, fun name hname => ?_,
    h'.depth.trans h.depth, vs ++ vs', by simp [hvs', hvs], ?_, ?_, ?_⟩
  · exact h.kept name (h'.kept name hname)
  · intro v hv
    exact (List.mem_append.mp hv).elim (hvalues v) (hvalues' v)
  · rw [Local.namesAt_append]
    refine List.nodup_append.mpr ⟨hnodup, hnodup', ?_⟩
    rintro name hname _ hname' rfl
    exact (hnew name hname).2.2 (hnew' name hname').2.1
  · intro name hname
    rw [Local.namesAt_append] at hname
    rcases List.mem_append.mp hname with hname | hname
    · obtain ⟨hblocks, hfresh, hdeclared⟩ := hnew name hname
      exact ⟨hblocks, hfresh, fun hnone => hdeclared (h'.kept name hnone)⟩
    · obtain ⟨hblocks, hfresh, hdeclared⟩ := hnew' name hname
      exact ⟨fun hnil => hblocks (h.blocks.mpr hnil), h.kept name hfresh, hdeclared⟩

theorem declareLocal {name : String} {ty : Ty} (l : Location) (hb : p.table.blocks ≠ [])
    (hfresh : p.table.declaredAt? name = none) (hty : ty ≠ .void) :
    p.Declares (p.declareLocal name ty l) := by
  obtain ⟨f, rest, hf⟩ := List.exists_cons_of_ne_nil hb
  have hblocks := Table.blocks_declare hf ⟨name, .localVar p.code.current.locals.size ty⟩ l
  refine ⟨?_, ?_, ?_, ?_, [⟨name, ty, p.code.current.depth⟩], ?_, ?_, ?_, ?_⟩
  · rw [table_declareLocal]
    simp [Table.closeScope, Table.declare, Table.updateInnermost, hf]
  · rw [table_declareLocal, hblocks, hf]
    simp
  · intro name' hname'
    rw [table_declareLocal, Table.declaredAt?_declare] at hname'
    split at hname'
    · cases hname'
    · exact hname'
  · simp [Pass.declareLocal, Code.addLocal, Method.addLocal]
  · simp [Pass.declareLocal, Code.addLocal, Method.addLocal]
  · simpa using hty
  · simp [Local.namesAt]
  · simpa [Local.namesAt, hb, Table.declaredAt?_declare] using hfresh

/-- What a block declares lies deeper, and is gone from the table behind it. -/
theorem block (h : p.openBlock.Declares q) : p.Declares q.closeBlock := by
  obtain ⟨vs, hvs, hvalues, -⟩ := h.locals
  have htable : q.closeBlock.table = p.table := by
    rw [table_closeBlock, h.outer, table_openBlock]
    rfl
  have hopened : p.openBlock.code.current = p.code.current.openScope := by
    simp [openBlock, Code.openScope]
  have hclosed : q.closeBlock.code.current = q.code.current.closeScope := by
    simp [closeBlock, Code.closeScope]
  have hdepth : q.code.current.depth = p.code.current.depth + 1 := by
    rw [h.depth, hopened, Method.openScope]
  rw [hopened] at hvs hvalues
  have hnone : Local.namesAt p.code.current.depth vs = [] := by
    refine List.eq_nil_iff_forall_not_mem.mpr fun name hname => ?_
    obtain ⟨v, hv, hequal, -⟩ := Local.mem_namesAt.mp hname
    have hdeeper : p.code.current.depth + 1 ≤ v.depth := (hvalues v hv).2
    omega
  refine ⟨by rw [htable], by rw [htable], fun name hname => by rwa [htable] at hname, ?_, vs, ?_,
    fun v hv => ⟨(hvalues v hv).1, Nat.le_of_succ_le (hvalues v hv).2⟩, by simp [hnone],
    by simp [hnone]⟩
  · rw [hclosed, Method.closeScope, hdepth]
    rfl
  · rw [hclosed, Method.locals_closeScope, hvs]
    rfl

end Declares

variable {part : Part} {loop : Option LoopLabels} {p q : Pass}

theorem stepwise_declares : Stepwise Declares where
  trans := Declares.trans
  writes h _ := .writes h
  perform p _ hr := .perform p hr
  declared := Declares.declareLocal
  block := Declares.block

theorem Ran.declares (h : Ran part loop p q) : p.Declares q :=
  stepwise_declares.ran h

end Pass

/-! Parameters -/

/-- Parameters with their positions. -/
def Param.numbered (first : Nat) (params : List (String × Ty)) : List Param :=
  (params.zipIdx first).map fun x => ⟨x.1.1, x.2, x.1.2⟩

namespace Param

variable (first : Nat) (params : List (String × Ty))

theorem map_numbered : (numbered first params).map (fun v => (v.name, v.ty)) = params := by
  rw [numbered, List.map_map]
  exact List.zipIdx_map_fst first params

theorem map_name_numbered : (numbered first params).map Param.name = params.map Prod.fst := by
  have hfirsts := congrArg (List.map Prod.fst) (map_numbered first params)
  rwa [List.map_map] at hfirsts

theorem map_ordinal_numbered :
    (numbered first params).map Param.ordinal = List.range' first params.length := by
  rw [numbered, List.map_map, ← List.zipIdx_map_snd]
  rfl

end Param

namespace Pass

theorem code_bindParameters (params : List (String × Ty)) (first : Nat) (p : Pass) :
    (Action.bindParameters params first p).code = p.code.updateCurrent fun m =>
      { m with params := m.params ++ (Param.numbered first params).toArray } := by
  induction params generalizing first p with
  | nil => simp [Action.bindParameters, Param.numbered, Code.updateCurrent_id]
  | cons x params ih =>
      rw [Action.bindParameters, ih, code_bindParameter, Code.addParam,
        Code.updateCurrent_updateCurrent]
      simp [Method.addParam, Param.numbered]

/-- A method is opened with its parameters, and nothing else. -/
theorem code_openMethod (p : Pass) (depth : Nat) (name : String) (returnType : Ty)
    (params : List (String × Ty)) :
    (p.openMethod depth name returnType params).code = { p.code.closeMethod with
      body := some { name, returnType, params := (Param.numbered 1 params).toArray } } := by
  rw [openMethod, code_completeMethod, code_bindParameters]
  simp [Code.addMethod, Code.updateCurrent]

/-- Parameters have different names, which the scope of the signature has. -/
theorem Parameters.nodup {params : List (String × Ty)} {p q : Pass} (h : Parameters params p q) :
    (params.map Prod.fst).Nodup ∧ ∀ x ∈ params, q.table.declaredAt? x.1 ≠ none := by
  induction h with
  | nil _ => simp
  | @snoc p q r params name ty l _ hfresh _ h' ih =>
      obtain ⟨hnodup, hdeclared⟩ := ih
      have htable (name' : String) : r.table.declaredAt? name' =
          if name = name' then some l else q.table.declaredAt? name' := by
        rw [h'.table, declareParam, table_edit]
        exact q.table.declaredAt?_declare _ l name'
      constructor
      · rw [List.map_append]
        refine List.nodup_append.mpr ⟨hnodup, List.nodup_singleton _, ?_⟩
        rintro _ hname _ hlast rfl
        obtain ⟨x, hx, rfl⟩ := List.mem_map.mp hname
        rw [List.map_singleton, List.mem_singleton] at hlast
        exact hdeclared x hx (hlast ▸ hfresh)
      · intro x hx
        rw [htable]
        split
        · exact Option.some_ne_none l
        · rcases List.mem_append.mp hx with hx | hx
          · exact hdeclared x hx
          · simp_all

end Pass

/-! The members of a module -/

/-- The fields and methods of code as it is, the open method apart. -/
def Code.gathered (c : Code) : Module :=
  ⟨c.fields, c.entry, c.closed, c.labels⟩

namespace Module

variable {m : Module} {name : String}

theorem mem_memberNames_addField {f : Field} :
    name ∈ { m with fields := m.fields.push f }.memberNames ↔
      name ∈ m.memberNames ∨ name = f.name := by
  simp only [memberNames, Array.toList_push, List.map_append, List.map_cons, List.map_nil,
    List.mem_append, List.mem_singleton]
  exact or_right_comm

theorem mem_memberNames_addMethod {x : Method} :
    name ∈ { m with declared := m.declared.push x }.memberNames ↔
      name ∈ m.memberNames ∨ name = x.name := by
  simp only [memberNames, Array.toList_push, List.map_append, List.map_cons, List.map_nil,
    List.mem_append, List.mem_singleton]
  exact or_assoc.symm

namespace WellDeclared

theorem addField {f : Field} (h : m.WellDeclared) (hf : f.WellFormed)
    (hname : f.name ∉ m.memberNames) : { m with fields := m.fields.push f }.WellDeclared := by
  refine ⟨?_, ?_, h.methods, h.entry⟩
  · simp only [memberNames, Array.toList_push, List.map_append, List.map_cons, List.map_nil,
      List.append_assoc, List.singleton_append]
    exact List.nodup_middle.mpr (List.nodup_cons.mpr ⟨hname, h.names⟩)
  · intro f' hf'
    rcases Array.mem_push.mp hf' with hf' | rfl
    · exact h.fields f' hf'
    · exact hf

theorem addMethod {x : Method} (h : m.WellDeclared) (hx : x.WellFormed)
    (hname : x.name ∉ m.memberNames) : { m with declared := m.declared.push x }.WellDeclared := by
  refine ⟨?_, h.fields, ?_, h.entry⟩
  · simp only [memberNames, Array.toList_push, List.map_append, List.map_cons, List.map_nil]
    rw [← List.append_assoc]
    exact List.nodup_append_comm.mpr (List.nodup_cons.mpr ⟨hname, h.names⟩)
  · intro x' hx'
    rcases Array.mem_push.mp hx' with hx' | rfl
    · exact h.methods x' hx'
    · exact hx

end WellDeclared
end Module

namespace Pass

/-- Between the items of a program its declarations are well formed, and the table has the names
of its fields and methods. -/
structure Named (p : Pass) : Prop where
  wellDeclared : p.code.gathered.WellDeclared
  known : ∀ name ∈ p.code.gathered.memberNames, p.table.fields.find? name ≠ none

variable {host : Host.Registry} {part : Part} {loop : Option LoopLabels} {p q : Pass}

theorem known_put {names : List String} {f : Frame} {name name' : String}
    (h : ∀ name ∈ names, f.find? name ≠ none) (hname : name' ∈ names ∨ name' = name)
    (b : Binding) : (f.put name b).find? name' ≠ none := by
  rw [Catalog.find?_put]
  split
  · exact Option.some_ne_none b
  · rename_i hne
    rcases hname with hname | rfl
    · exact h name' hname
    · exact absurd rfl hne

theorem Named.not_mem {name : String} (h : p.Named) (hb : p.table.blocks = [])
    (hfresh : p.table.declaredAt? name = none) : name ∉ p.code.gathered.memberNames := by
  intro hname
  refine h.known name hname ?_
  simpa [Table.declaredAt?, Table.innermost, hb] using hfresh

/-- What is added to the local variables of the open method. -/
theorem Ran.code_eq (h : Ran part loop p q) : ∃ g : Growth, q.code = p.code.grow g ∧
    (∀ v ∈ g.locals, v.ty ≠ .void ∧ p.code.current.depth ≤ v.depth) ∧
    (Local.namesAt p.code.current.depth g.locals).Nodup ∧
    ∀ name ∈ Local.namesAt p.code.current.depth g.locals, p.table.blocks ≠ [] ∧
      p.table.declaredAt? name = none := by
  obtain ⟨g, hcode, -⟩ := h.grows
  obtain ⟨vs, hvs, hvalues, hnodup, hnew⟩ := h.declares.locals
  have hlocals : vs = g.locals := by
    rw [hcode, Code.current_grow] at hvs
    simpa using (Array.append_right_inj _).mp hvs.symm
  subst hlocals
  exact ⟨g, hcode, hvalues, hnodup, fun name hname => ⟨(hnew name hname).1, (hnew name hname).2.1⟩⟩

/-- Outside of all blocks only the entry method changes, and it declares nothing there. -/
theorem Ran.named (h : Ran part loop p q) (hb : p.table.blocks = []) (hbody : p.code.body = none)
    (hp : p.Named) : q.Named := by
  obtain ⟨g, hcode, hvalues, -, hnew⟩ := h.code_eq
  have hcurrent : p.code.current = p.code.entry := by simp [Code.current, hbody]
  have hgathered : q.code.gathered = { p.code.gathered with
      entry := { p.code.entry with
        code := p.code.entry.code ++ g.code.toArray
        locals := p.code.entry.locals ++ g.locals.toArray }
      labels := p.code.labels ++ g.labels.toArray } := by
    simp [hcode, Code.gathered, Code.grow, Code.updateCurrent, hbody]
  have hfields := h.declares.fields
  have hentry := hp.wellDeclared.entry
  refine ⟨?_, ?_⟩
  · rw [hgathered]
    refine ⟨hp.wellDeclared.names, hp.wellDeclared.fields, hp.wellDeclared.methods,
      hentry.returnType, hentry.params, ?_, hentry.values.params, ?_⟩
    · intro v hv hzero
      rcases Array.mem_append.mp hv with hv | hv
      · exact hentry.locals v hv hzero
      · have hmem : v ∈ g.locals := by simpa using hv
        have hdepth : v.depth = p.code.current.depth :=
          Nat.le_antisymm (hzero ▸ Nat.zero_le _) (hvalues v hmem).2
        exact (hnew v.name (Local.mem_namesAt.mpr ⟨v, hmem, hdepth, rfl⟩)).1 hb
    · intro v hv
      rcases Array.mem_append.mp hv with hv | hv
      · exact hentry.values.locals v hv
      · exact (hvalues v (by simpa using hv)).1
  · rw [hgathered, hfields]
    exact hp.known

theorem Named.declareField {name : String} {ty : Ty} {size : Option Nat} (hp : p.Named)
    (hb : p.table.blocks = []) (hfresh : p.table.declaredAt? name = none)
    (hf : Field.WellFormed ⟨name, ty, size⟩) (l : Location) :
    (p.declareField name ty size l).Named := by
  have hgathered : (p.declareField name ty size l).code.gathered =
      { p.code.gathered with fields := p.code.gathered.fields.push ⟨name, ty, size⟩ } := by
    simp [Pass.declareField, Code.gathered, Code.addField]
  have hfields : (p.declareField name ty size l).table.fields =
      p.table.fields.put name ⟨⟨name, .field (.module p.code.fields.size) ty⟩, l⟩ := by
    simp [Pass.declareField, Table.edit, Table.declareField, Frame.declare]
  refine ⟨?_, ?_⟩
  · rw [hgathered]
    exact hp.wellDeclared.addField hf (hp.not_mem hb hfresh)
  · rw [hgathered, hfields]
    exact fun name' hname' => known_put hp.known (Module.mem_memberNames_addField.mp hname') _

theorem wellFormed_field {t : Table} {c : Code} {token : Option Token} {ty : Ty}
    {size : Option Nat} (ht : t.Agrees c) (htype : Action.typeOf? t token = some ty)
    (hty : ty ≠ .void) (hsize : ∀ n, size = some n → 0 < n ∧ n ≤ 2147483647) (name : String) :
    Field.WellFormed ⟨name, if size.isSome then ty.array else ty, size⟩ := by
  have hproper := proper_field ht htype hty size
  have helement := element?_of_typeOf? ht htype
  have hscalar (inner : Ty) : ty ≠ .array inner := by
    rintro rfl
    cases helement
  cases size with
  | none =>
      refine ⟨hproper.ne_void, by simpa using hscalar, ?_, by simp⟩
      exact fun element h => absurd h (hscalar element)
  | some n =>
      refine ⟨hproper.ne_void, by simp, ?_, ?_⟩
      · rintro _ ⟨⟩
        exact ⟨hty, hscalar⟩
      · rintro _ ⟨⟩
        have := hsize n rfl
        omega

/-- A signature declares its method, whether or not it is completed. -/
theorem Signed.named {name : String} {returnType : Ty} {l : Location}
    {params : List (String × Ty)} (h : Signed name returnType l params p q) (hp : p.Named) :
    (q.edit .closeScope).Named := by
  obtain ⟨f, -, htable⟩ := h.table
  refine ⟨?_, ?_⟩
  · rw [code_edit, h.code]
    exact hp.wellDeclared
  · rw [code_edit, h.code, table_edit, htable]
    exact fun name' hname' => known_put hp.known (.inl hname') _

/-- The method that a body has been read for. -/
def bodied (name : String) (returnType : Ty) (params : List (String × Ty)) (g : Growth) :
    Method where
  name := name
  returnType := returnType
  params := (Param.numbered 1 params).toArray
  locals := g.locals.toArray
  code := g.code.toArray

section Method

variable {name : String} {returnType : Ty} {l : Location} {params : List (String × Ty)} {r : Pass}

/-- The local variables of a body have other names than the parameters, since both are declared in
the same scope. -/
theorem Parameters.wellFormed (h : Parameters params (p.beginSignature name returnType l) q)
    {g : Growth} (hvalues : ∀ v ∈ g.locals, v.ty ≠ .void)
    (hnodup : (Local.namesAt 0 g.locals).Nodup)
    (hnew : ∀ name ∈ Local.namesAt 0 g.locals, name ∉ params.map Prod.fst) :
    (bodied name returnType params g).WellFormed where
  names := by
    show ((Param.numbered 1 params).map Param.name ++ Local.namesAt 0 g.locals).Nodup
    rw [Param.map_name_numbered]
    refine List.nodup_append.mpr ⟨h.nodup.1, hnodup, ?_⟩
    rintro name hname _ hlocal rfl
    exact hnew name hlocal hname
  ordinals := by
    show (Param.numbered 1 params).map Param.ordinal =
      List.range' 1 (Param.numbered 1 params).length
    rw [Param.map_ordinal_numbered, Param.numbered, List.length_map, List.length_zipIdx]
  values := by
    refine ⟨fun v hv => ?_, fun v hv => hvalues v (by simpa [bodied] using hv)⟩
    have hmem : (v.name, v.ty) ∈ params := by
      rw [← Param.map_numbered 1 params]
      exact List.mem_map_of_mem (by simpa [bodied] using hv)
    exact h.ne_void _ hmem

/-- A method is added behind the others when its body has been read. -/
theorem Named.method (hp : p.Named) (hb : p.table.blocks = []) (hbody : p.code.body = none)
    (hfresh : p.table.declaredAt? name = none)
    (h : Parameters params (p.beginSignature name returnType l) q)
    (hran : Ran part loop (q.openMethod p.table.depth name returnType params) r) :
    r.closeMethod.Named := by
  have hsigned := h.signed hb
  obtain ⟨f, places, hf, -, htable, -, -⟩ := hsigned.opened hb
  obtain ⟨g, hcode, hvalues, hnodup, hnew⟩ := hran.code_eq
  have hfields := hran.declares.fields
  rw [code_openMethod, hsigned.code] at hcode hvalues hnodup hnew
  have hparams (name : String) (hname : name ∈ Local.namesAt 0 g.locals) :
      name ∉ params.map Prod.fst := by
    intro hparam
    obtain ⟨x, hx, rfl⟩ := List.mem_map.mp hparam
    obtain ⟨b, -, -, hfind, -⟩ := hf.typed x hx
    have hnone := (hnew x.1 hname).2
    simp [htable, Table.declaredAt?, Table.innermost, hfind] at hnone
  have hx := h.wellFormed (fun v hv => (hvalues v hv).1) hnodup hparams
  have hgathered : r.closeMethod.code.gathered = { p.code.gathered with
      declared := p.code.gathered.declared.push (bodied name returnType params g)
      labels := r.code.labels } := by
    simp [closeMethod, hcode, Code.closeMethod, Code.gathered, Code.grow, Code.updateCurrent, hbody,
      bodied]
  obtain ⟨f', -, hsignature⟩ := hsigned.table
  have htable' : r.closeMethod.table.fields = (p.table.fields.put name
      ⟨⟨name, .method returnType [] none⟩, l⟩).put name
      ⟨⟨name, .method returnType (params.map Prod.snd) (some q.code.methods.size)⟩, l⟩ := by
    rw [closeMethod, table_edit, table_perform]
    show r.table.fields = _
    rw [hfields, htable, hsignature]
  refine ⟨?_, ?_⟩
  · rw [hgathered]
    obtain ⟨hnames, hwell, hmethods, hentry⟩ := hp.wellDeclared.addMethod hx
      (hp.not_mem hb hfresh)
    exact ⟨hnames, hwell, hmethods, hentry⟩
  · intro name' hname'
    rw [hgathered] at hname'
    rw [htable']
    have hknown : ∀ name'' ∈ p.code.gathered.memberNames,
        (p.table.fields.put name ⟨⟨name, .method returnType [] none⟩, l⟩).find? name'' ≠ none :=
      fun _ hname'' => known_put hp.known (.inl hname'') _
    exact known_put hknown (Module.mem_memberNames_addMethod.mp hname') _

end Method

/-- The items of a program keep its declarations well formed. -/
theorem Built.named (h : Built p q) (hp : p.Named) (hstep : p.InStep host)
    (hb : p.table.blocks = []) (hbody : p.code.body = none) : q.Named := by
  induction h with
  | ran h => exact h.named hb hbody hp
  | trans h h' ih ih' =>
      obtain ⟨hstep', hb'⟩ := h.inStep hstep hb
      exact ih' (ih hp hstep hb hbody) hstep' hb' (h.body_eq_none hbody)
  | field size l htype hfresh hty hsize =>
      obtain ⟨token, htype⟩ := htype
      exact hp.declareField hb hfresh (wellFormed_field hstep.table htype hty hsize _) l
  | signature l _ h _ => exact (h.signed hb).named hp
  | method l hfresh h hran => exact hp.method hb hbody hfresh h hran

theorem named_initial (source : String) (config : Config) (host : Host.Registry) :
    (initial source config host).Named := by
  have hgathered : (initial source config host).code.gathered =
      ⟨#[], { name := config.entryMethod, returnType := .void }, #[], #[]⟩ := by
    rw [code_initial]
    rfl
  refine ⟨?_, ?_⟩
  · rw [hgathered]
    exact ⟨by simp [Module.memberNames], by simp, by simp, rfl, rfl, by simp, by simp, by simp⟩
  · rw [hgathered]
    simp [Module.memberNames]

end Pass

/-! Lookups -/

/-- Where no two elements have the same name, the first one with a name is the only one. -/
theorem find?_eq_some_iff_of_nodup {α : Type} {key : α → String} {xs : List α}
    (h : (xs.map key).Nodup) {name : String} {x : α} :
    xs.find? (key · == name) = some x ↔ x ∈ xs ∧ key x = name := by
  constructor
  · intro hfind
    exact ⟨List.mem_of_find?_eq_some hfind, by simpa using List.find?_some hfind⟩
  · rintro ⟨hx, rfl⟩
    cases hfind : xs.find? (key · == key x) with
    | none => simpa using List.find?_eq_none.mp hfind x hx
    | some y =>
        have hkey : key y = key x := by simpa using List.find?_some hfind
        rw [List.inj_on_of_nodup_map h (List.mem_of_find?_eq_some hfind) hx hkey]

namespace Module.WellDeclared

variable {m : Module} {name : String}

theorem field?_eq_some_iff (h : m.WellDeclared) {f : Field} :
    m.field? name = some f ↔ f ∈ m.fields ∧ f.name = name := by
  rw [field?, ← Array.find?_toList,
    find?_eq_some_iff_of_nodup (List.nodup_append.mp h.names).1, Array.mem_toList_iff]

/-- The entry method comes first, so only a method with its name is hidden by it. -/
theorem method?_eq_some_iff (h : m.WellDeclared) (hname : name ≠ m.entry.name) {x : Method} :
    m.method? name = some x ↔ x ∈ m.declared ∧ x.name = name := by
  have hentry : (m.entry.name == name) = false := beq_eq_false_iff_ne.mpr (Ne.symm hname)
  have hrest : m.methods.toList.find? (·.name == name) =
      m.declared.toList.find? (·.name == name) := by
    rw [Module.methods, Array.toList_append, List.find?_append]
    simp only [List.find?_cons, hentry, List.find?_nil, Option.none_or]
  rw [method?, ← Array.find?_toList, hrest,
    find?_eq_some_iff_of_nodup (List.nodup_append.mp h.names).2.1, Array.mem_toList_iff]

end Module.WellDeclared

/-- What a compilation declares is well formed, with or without errors, so that a name has at most
one field and one method besides the entry method. -/
theorem run_wellDeclared (source : String) (config : Config) (host : Host.Registry) :
    ∃ m, (run source config host).2.code.finish = .ok m ∧ m.WellDeclared ∧
      (∀ name f, m.field? name = some f ↔ f ∈ m.fields ∧ f.name = name) ∧
      ∀ name x, name ≠ m.entry.name →
        (m.method? name = some x ↔ x ∈ m.declared ∧ x.name = name) := by
  obtain ⟨predeclared, used, htable, -⟩ := Pass.table_initial source config host
  have hnamed := (Pass.built_run source config host).1.named (Pass.named_initial source config host)
    (Pass.inStep_initial source config host) (by rw [htable]) (by rw [Pass.code_initial]; rfl)
  have hdeclared : (run source config host).2.code.gathered.WellDeclared := by
    rw [Pass.code_run]
    exact hnamed.wellDeclared
  exact ⟨_, (finishable_run source config host).finish, hdeclared,
    fun name f => hdeclared.field?_eq_some_iff,
    fun name x hname => hdeclared.method?_eq_some_iff hname⟩

end OnePass
