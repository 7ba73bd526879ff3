import OnePass.Proofs.Linking

/-!
Methods that are opened, and whole programs. The symbol of a method is declared before its
parameters are read and completed behind them. After a whole program, with or without errors,
all references in its code are valid.
-/

namespace OnePass

/-- A scope holds nothing but the parameters of a method, those of the list among them. Where one
has an index already, it is that of a place with its type. -/
structure Frame.Passes (f : Frame) (params : List (String × Ty)) (places : Array Param) :
    Prop where
  bound : ∀ b ∈ f.values, ∃ index ty ordinal, b.symbol.meaning = .param index ty ordinal ∧
    ∀ i, index = some i → ∃ v, places[i]? = some v ∧ v.ty = ty
  typed : ∀ x ∈ params, ∃ b index ordinal, f.find? x.1 = some b ∧
    b.symbol.meaning = .param index x.2 ordinal

namespace Frame.Passes

variable {f : Frame} {params : List (String × Ty)} {places : Array Param}

theorem empty : Frame.Passes {} [] places :=
  ⟨by simp [Catalog.values_empty], by simp⟩

theorem declare (h : f.Passes params places) {name : String} (hfresh : f.find? name = none)
    (own : String) (ty : Ty) (ordinal : Nat) (l : Location) :
    Passes (f.put name ⟨⟨own, .param none ty ordinal⟩, l⟩) (params ++ [(name, ty)]) places := by
  constructor
  · intro b hb
    rcases Catalog.mem_values_put hb with rfl | hb
    · exact ⟨none, ty, ordinal, rfl, nofun⟩
    · exact h.bound b hb
  · intro x hx
    rcases List.mem_append.mp hx with hx | hx
    · obtain ⟨b, index, ordinal', hfind, hm⟩ := h.typed x hx
      have hne : name ≠ x.1 := by
        rintro rfl
        cases hfresh.symm.trans hfind
      exact ⟨b, index, ordinal', by rw [Catalog.find?_put, if_neg hne, hfind], hm⟩
    · obtain rfl := List.mem_singleton.mp hx
      exact ⟨_, none, ordinal, by rw [Catalog.find?_put, if_pos rfl], rfl⟩

/-- A parameter gets the next place. -/
theorem bind (h : f.Passes params places) {name : String} {ty : Ty} {b : Binding}
    {index : Option Nat} {ordinal : Nat} (hfind : f.find? name = some b)
    (hm : b.symbol.meaning = .param index ty ordinal) (own : String) (place : Param)
    (hplace : place.ty = ty) :
    Passes (f.put name { b with symbol := ⟨own, .param (some places.size) ty ordinal⟩ }) params
      (places.push place) := by
  constructor
  · intro b' hb'
    rcases Catalog.mem_values_put hb' with rfl | hb'
    · refine ⟨_, ty, ordinal, rfl, ?_⟩
      rintro i ⟨⟩
      exact ⟨place, by simp, hplace⟩
    · obtain ⟨index', ty', ordinal', hm', hplaced⟩ := h.bound b' hb'
      refine ⟨index', ty', ordinal', hm', fun i hi => ?_⟩
      obtain ⟨v, hv, hty⟩ := hplaced i hi
      obtain ⟨hlt, -⟩ := Array.getElem?_eq_some_iff.mp hv
      exact ⟨v, by rw [Array.getElem?_push, if_neg (Nat.ne_of_lt hlt), hv], hty⟩
  · intro x hx
    obtain ⟨b', index', ordinal', hfind', hm'⟩ := h.typed x hx
    rw [Catalog.find?_put]
    split
    · rename_i heq
      subst heq
      cases hfind.symm.trans hfind'
      cases hm.symm.trans hm'
      exact ⟨_, _, ordinal, rfl, rfl⟩
    · exact ⟨b', index', ordinal', hfind', hm'⟩

theorem not_binds (h : f.Passes params places) (j : Nat) : ¬ f.Binds j := by
  rintro ⟨b, hb, ty, hm⟩
  obtain ⟨_, _, _, hm', -⟩ := h.bound b hb
  cases hm.symm.trans hm'

end Frame.Passes

/-- A method is opened where no local variable is bound. -/
theorem Linked.openMethod {host : Host.Registry} {t t' : Table} {c d : Code} {trail : Trail}
    {m : Method} (h : Linked host t c trail) (hnone : ∀ j, ¬ t.Binds j)
    (hfields : d.fields = c.fields) (hmethods : d.methods = c.methods.push m)
    (hlocals : m.locals = #[]) (hcode : m.code = #[]) (hhost : t'.host = t.host)
    (hblocks : t'.blocks ≠ []) (htable : t'.Agrees d) (hdisjoint : t'.Disjoint)
    (hnone' : ∀ j, ¬ t'.Binds j) (hcounts : trail.openMethod.Counts d) :
    Linked host t' d trail.openMethod := by
  have hext : c.Extends d := .push hfields hmethods
  refine ⟨hhost.trans h.registry, fun _ => hblocks, htable, hcounts, ?_, ?_, ?_, ?_, hdisjoint⟩
  · intro index m' hm' i hi
    rcases Code.getElem_of_push hmethods hm' with hm' | rfl
    · exact (h.valid index m' hm' i hi).mono hext (.refl m')
    · simp [hcode] at hi
  · intro e he
    obtain ⟨m', hm', hends⟩ := h.ended e he
    exact ⟨m', Code.getElem_push hmethods hm', hends⟩
  · intro index m' hm' j hj
    rcases Code.getElem_of_push hmethods hm' with hm' | rfl
    · exact (h.alive index m' hm' j hj).imp_right fun hbound => absurd hbound.2 (hnone j)
    · simp [hlocals] at hj
  · exact fun j _ hj => absurd hj (hnone' j)

theorem Trail.Counts.openMethod {trail : Trail} {c : Code} (h : trail.Counts c) (name : String)
    (returnType : Ty) : trail.openMethod.Counts (c.addMethod name returnType) :=
  ⟨h.closeMethod.entry, h.closeMethod.closed, rfl⟩

theorem Table.blocks_closeScope_eq_nil {t : Table} (h : t.blocks.length = 1) :
    t.closeScope.blocks = [] := by
  obtain ⟨f, hf⟩ := List.length_eq_one_iff.mp h
  simp [closeScope, hf]

/-! Signatures -/

namespace Pass

variable {host : Host.Registry} {p q : Pass} {name : String} {returnType : Ty}
  {params : List (String × Ty)}

/-- A method has been declared, and its parameters up to some have been read. -/
structure Signed (name : String) (returnType : Ty) (l : Location) (params : List (String × Ty))
    (p q : Pass) : Prop where
  code : q.code = p.code
  trail : q.trail = p.trail
  table : ∃ f, f.Passes params #[] ∧ q.table = { p.table with
    fields := p.table.fields.put name ⟨⟨name, .method returnType [] none⟩, l⟩
    blocks := [f] }

theorem Parameters.signed {l : Location}
    (h : Parameters params (p.beginSignature name returnType l) q) (hb : p.table.blocks = []) :
    Signed name returnType l params p q := by
  generalize hstart : p.beginSignature name returnType l = start at h
  induction h with
  | nil h =>
      subst hstart
      refine ⟨?_, ?_, {}, .empty, ?_⟩
      · simp [h.code, beginSignature, Code.emitAll]
      · simp [h.trail, beginSignature, trail_edit, Trail.emitAll]
      · rw [h.table]
        simp only [beginSignature, table_edit, Table.edit, Table.openScope, Table.declare,
          Table.updateInnermost, hb]
        rfl
  | @snoc p' q' r params name' ty l' h hfresh hty h' ih =>
      obtain ⟨hcode, htrail, f, hf, htable⟩ := ih hstart
      refine ⟨?_, ?_, ?_⟩
      · simp [h'.code, declareParam, Code.emitAll, hcode]
      · simp [h'.trail, declareParam, trail_edit, Trail.emitAll, htrail]
      · have hblocks : q'.table.blocks = [f] := by rw [htable]
        have hfind := Table.find?_of_declaredAt hblocks hfresh
        refine ⟨_, hf.declare hfind name' ty (params.length + 1) l', ?_⟩
        rw [h'.table]
        simp only [declareParam, table_edit, Table.edit, Table.declare, Table.updateInnermost,
          htable]
        rfl

theorem Signed.inStep {l : Location} (h : Signed name returnType l params p q)
    (hp : p.InStep host) (hb : p.table.blocks = []) :
    q.InStep host ∧ ∀ j, ¬ q.table.Binds j := by
  obtain ⟨hcode, htrail, f, hf, htable⟩ := h
  have hnone (j : Nat) : ¬ q.table.Binds j := by simp [Table.Binds, htable, hf.not_binds]
  refine ⟨?_, hnone⟩
  unfold InStep
  rw [hcode, htrail]
  refine Linked.restate hp (.refl _) (by rw [htable]) (fun _ => by simp [htable]) ?_ ?_ ?_
  · refine ⟨?_, ?_, by simpa only [htable] using hp.table.predeclared⟩
    · simp only [htable, List.mem_singleton, forall_eq]
      intro b hb
      obtain ⟨index, ty, ordinal, hm, hplaced⟩ := hf.bound b hb
      rw [hm]
      cases index with
      | none => trivial
      | some i =>
          obtain ⟨v, hv, -⟩ := hplaced i rfl
          simp at hv
    · intro b hb
      simp only [htable] at hb
      rcases Catalog.mem_values_put hb with rfl | hb
      · exact ⟨trivial, trivial⟩
      · exact hp.table.fields b hb
  · simp [Table.Disjoint, htable]
  · intro j
    have hclosed : ¬ p.table.Binds j := by simp [Table.Binds, hb]
    exact iff_of_false (hnone j) hclosed

/-! Methods that are opened -/

/-- A method is being opened. The parameters of some `types` have their places. -/
structure Seats (t : Table) (c : Code) (trail : Trail) (params : List (String × Ty))
    (types : List Ty) (p : Pass) : Prop where
  trail : p.trail = trail
  seated : ∃ f places, f.Passes params places ∧ places.toList.map Param.ty = types ∧
    p.table = { t with blocks := [f] } ∧
    p.code = c.updateCurrent fun m => { m with params := places }

variable {t : Table} {c : Code} {trail : Trail} {types : List Ty}

theorem Seats.bindParameter {x : String × Ty} (h : Seats t c trail params types p)
    (hx : x ∈ params) (ordinal : Nat) :
    Seats t c trail params (types ++ [x.2]) (Action.bindParameter x.1 ordinal x.2 p) := by
  obtain ⟨htrail, f, places, hf, htypes, htable, hcode⟩ := h
  obtain ⟨b, index, ordinal', hfind, hm⟩ := hf.typed x hx
  have hsymbol : p.table.symbolAt? p.table.depth x.1 =
      some ⟨b.symbol.name, .param index x.2 ordinal'⟩ := by
    simp only [Table.symbolAt?, Table.depth, Table.frames, htable]
    simp [hfind, ← hm]
  have hsize : p.code.current.params.size = places.size := by simp [hcode]
  have hbind : Action.bindParameter x.1 ordinal x.2 p =
      { p.perform (.addParam x.1 ordinal x.2) with
        table := p.table.overwriteAt p.table.depth x.1
          ⟨b.symbol.name, .param (some places.size) x.2 ordinal'⟩ } := by
    simp only [Action.bindParameter, table_perform, hsymbol, hsize]
  rw [hbind]
  refine ⟨(trail_perform _ _).trans htrail, _, _,
    hf.bind hfind hm b.symbol.name ⟨x.1, ordinal, x.2⟩ rfl, by simp [htypes], ?_, ?_⟩
  · simp [Table.overwriteAt, Table.depth, htable, Frame.overwrite, hfind]
  · simp only [code_perform, Code.perform, Code.addParam, hcode, Code.updateCurrent_updateCurrent]
    rfl

theorem Seats.bindParameters {rest : List (String × Ty)} (h : Seats t c trail params types p)
    (hrest : ∀ x ∈ rest, x ∈ params) (ordinal : Nat) :
    Seats t c trail params (types ++ rest.map Prod.snd)
      (Action.bindParameters rest ordinal p) := by
  induction rest generalizing types ordinal p with
  | nil => simpa [Action.bindParameters] using h
  | cons x rest ih =>
      have hx := h.bindParameter (hrest x List.mem_cons_self) ordinal
      have hmem (y : String × Ty) (hy : y ∈ rest) := hrest y (List.mem_cons_of_mem _ hy)
      simpa [Action.bindParameters] using ih hx hmem (ordinal + 1)

theorem completeMethod_declared {b : Binding} {index' : Option Nat} {types' : List Ty}
    (hfind : p.table.fields.find? name = some b)
    (hm : b.symbol.meaning = .method returnType types' index') (types : List Ty) (index : Nat) :
    Action.completeMethod 1 name types index p = { p with table := { p.table with
      fields := p.table.fields.put name
        { b with symbol := ⟨b.symbol.name, .method returnType types (some index)⟩ } } } := by
  have hsymbol : p.table.symbolAt? 1 name =
      some ⟨b.symbol.name, .method returnType types' index'⟩ := by
    simp [Table.symbolAt?, Table.frames, hfind, ← hm]
  simp only [Action.completeMethod, hsymbol, Table.overwriteAt, Frame.overwrite, hfind]

/-- The symbols that belong to an opened method agree with it. -/
theorem agrees_opened {t : Table} {c : Code} {f : Frame} {places : Array Param} {b : Binding}
    (h : t.Agrees c) (hf : f.Passes params places) (name own : String) (hm : b.symbol.meaning =
      .method returnType (places.toList.map Param.ty) (some c.methods.size)) :
    { t with fields := t.fields.put own b, blocks := [f] : Table }.Agrees
      ((c.addMethod name returnType).updateCurrent fun m => { m with params := places }) := by
  have hmethods := c.methods_addMethod_updateCurrent name returnType
    fun m => { m with params := places }
  have hext := Code.Extends.push (by rw [Code.fields_updateCurrent]; rfl) hmethods
  refine ⟨?_, ?_, ?_⟩
  · simp only [List.mem_singleton, forall_eq]
    intro b hb
    obtain ⟨index, ty, ordinal, hm, hplaced⟩ := hf.bound b hb
    rw [hm]
    cases index with
    | none => trivial
    | some i =>
        obtain ⟨v, hv, hty⟩ := hplaced i rfl
        exact ⟨v, by simpa using hv, hty⟩
  · intro b' hb'
    rcases Catalog.mem_values_put hb' with rfl | hb'
    · rw [hm]
      refine ⟨⟨c.size_methods_pos, { name, returnType, params := places }, ?_, rfl, rfl⟩, trivial⟩
      rw [hmethods, Array.getElem?_push_size]
    · obtain ⟨hagrees, hglobal⟩ := h.fields b' hb'
      exact ⟨hagrees.mono_global hglobal hext, hglobal⟩
  · intro b' hb'
    obtain ⟨hagrees, hglobal⟩ := h.predeclared b' hb'
    exact ⟨hagrees.mono_global hglobal hext, hglobal⟩

/-- After its signature a method is opened: its parameters have their places, and its symbol is
complete. -/
theorem Signed.opened {l : Location} (h : Signed name returnType l params p q)
    (hb : p.table.blocks = []) :
    ∃ f places, f.Passes params places ∧ places.toList.map Param.ty = params.map Prod.snd ∧
      (q.openMethod p.table.depth name returnType params).table = { q.table with
        fields := q.table.fields.put name
          ⟨⟨name, .method returnType (params.map Prod.snd) (some q.code.methods.size)⟩, l⟩
        blocks := [f] } ∧
      (q.openMethod p.table.depth name returnType params).code =
        (q.code.addMethod name returnType).updateCurrent (fun m => { m with params := places }) ∧
      (q.openMethod p.table.depth name returnType params).trail = q.trail.openMethod := by
  obtain ⟨-, -, f, hf, htable⟩ := h
  have hdepth : p.table.depth = 1 := by simp [Table.depth, hb]
  let r := q.perform (.addMethod name returnType (params.map Prod.snd))
  have hseats : Seats q.table r.code r.trail params [] r := by
    refine ⟨rfl, f, #[], hf, rfl, ?_, ?_⟩
    · simp [r, htable]
    · simp [r, Code.addMethod, Code.updateCurrent]
  obtain ⟨htrail', f', places, hf', htypes, htable', hcode'⟩ :=
    hseats.bindParameters (fun _ => id) 1
  have hfind : (Action.bindParameters params 1 r).table.fields.find? name =
      some ⟨⟨name, .method returnType [] none⟩, l⟩ := by
    rw [htable', htable, Catalog.find?_put, if_pos rfl]
  have hindex : r.code.currentIndex = q.code.methods.size :=
    q.code.currentIndex_addMethod name returnType
  have hopened : q.openMethod p.table.depth name returnType params =
      Action.completeMethod 1 name (params.map Prod.snd) r.code.currentIndex
        (Action.bindParameters params 1 r) := by
    rw [hdepth]
    rfl
  rw [hopened, completeMethod_declared hfind rfl]
  refine ⟨f', places, hf', htypes, ?_, hcode', ?_⟩
  · simp only [htable', hindex]
  · exact htrail'.trans (trail_perform _ _)

theorem Signed.openMethod {l : Location} (h : Signed name returnType l params p q)
    (hp : p.InStep host) (hb : p.table.blocks = []) :
    (q.openMethod p.table.depth name returnType params).InStep host := by
  obtain ⟨hq, hnone⟩ := h.inStep hp hb
  obtain ⟨f, places, hf, htypes, htable, hcode, htrail⟩ := h.opened hb
  have hmeaning : Meaning.method returnType (params.map Prod.snd) (some q.code.methods.size) =
      .method returnType (places.toList.map Param.ty) (some q.code.methods.size) := by
    rw [htypes]
  unfold InStep
  rw [htable, hcode, htrail]
  refine Linked.openMethod hq hnone (by rw [Code.fields_updateCurrent]; rfl)
    (q.code.methods_addMethod_updateCurrent _ _ _) rfl rfl rfl (by simp)
    (agrees_opened hq.table hf name name hmeaning) (by simp [Table.Disjoint])
    (by simpa [Table.Binds] using hf.not_binds) ?_
  exact (hq.counts.openMethod name returnType).updateCurrent fun _ => rfl

/-! Programs -/

/-- The body of a method ends. -/
theorem InStep.closeMethod (h : p.InStep host) (hone : p.table.blocks.length = 1) :
    p.closeMethod.InStep host := by
  have hb : p.table.blocks ≠ [] := List.ne_nil_of_length_pos (by omega)
  have hnil := Table.blocks_closeScope_eq_nil hone
  unfold InStep
  rw [Pass.closeMethod, trail_edit, trail_perform, code_edit, table_edit, table_perform,
    if_neg (by simpa using hb)]
  refine Linked.leave h hb rfl p.code.methods_closeMethod (fun hne => absurd hnil hne) ?_ ?_
  · simp [Code.perform, Code.closeMethod]
  · exact h.counts.leave_closeMethod hone

/-- A signature was abandoned. -/
theorem InStep.leaveSignature (h : p.InStep host) (hone : p.table.blocks.length = 1)
    (hbody : p.code.body = none) : (p.edit .closeScope).InStep host := by
  have hb : p.table.blocks ≠ [] := List.ne_nil_of_length_pos (by omega)
  unfold InStep
  rw [trail_edit, code_edit, table_edit, if_neg (by simpa using hb)]
  exact Linked.leave h hb rfl rfl (fun _ => rfl) (by simp [hbody])
    (h.counts.leave (by simp [hbody]))

/-- The items of a program keep the parts of a pass in step, and leave no block open. -/
theorem Built.inStep (h : Built p q) (hp : p.InStep host) (hb : p.table.blocks = []) :
    q.InStep host ∧ q.table.blocks = [] := by
  induction h with
  | ran h =>
      refine ⟨h.inStep hp, List.length_eq_zero_iff.mp ?_⟩
      rw [h.length_blocks, hb, List.length_nil]
  | trans _ _ ih ih' =>
      obtain ⟨hq, hbq⟩ := ih hp hb
      exact ih' hq hbq
  | @field p name ty size l _ _ _ _ =>
      refine ⟨?_, hb⟩
      unfold InStep
      rw [Pass.declareField, trail_edit, trail_perform, code_edit, table_edit, table_perform]
      exact Linked.declareField hp name name _ size l
  | @signature p q name returnType params l _ h _ =>
      have hsigned := h.signed hb
      obtain ⟨f, -, htable⟩ := hsigned.table
      refine ⟨(hsigned.inStep hp hb).1.leaveSignature (by simp [htable]) ?_, ?_⟩
      · rw [hsigned.code]
        simpa [hb] using hp.scope
      · simp [htable, Table.edit, Table.closeScope]
  | @method p q r name returnType params l _ h hran =>
      have hsigned := h.signed hb
      have hone : r.table.blocks.length = 1 := by
        obtain ⟨f, -, htable⟩ := hsigned.table
        rw [hran.length_blocks, length_openMethod _ (Table.depth_pos _), htable]
        rfl
      refine ⟨(hran.inStep (hsigned.openMethod hp hb)).closeMethod hone, ?_⟩
      rw [Pass.closeMethod, table_edit, table_perform]
      exact Table.blocks_closeScope_eq_nil hone

end Pass

namespace Table

theorem addUsing_foldl (t : Table) (names : List String) :
    ∃ used, names.foldl addUsing t = { t with namespaces := used } := by
  induction names generalizing t with
  | nil => exact ⟨t.namespaces, rfl⟩
  | cons name names ih =>
      obtain ⟨used, hused⟩ := ih (t.addUsing name)
      refine ⟨used, ?_⟩
      rw [List.foldl_cons, hused, addUsing]
      split <;> rfl

theorem predeclare_foldl (t : Table) (symbols : List Symbol) :
    ∃ f : Frame, symbols.foldl predeclare t = { t with predeclared := f } ∧
      ∀ b ∈ f.values, b ∈ t.predeclared.values ∨ b.symbol ∈ symbols := by
  induction symbols generalizing t with
  | nil => exact ⟨t.predeclared, rfl, fun _ => .inl⟩
  | cons symbol symbols ih =>
      obtain ⟨f, hf, hmem⟩ := ih (t.predeclare symbol)
      refine ⟨f, hf, fun b hb => ?_⟩
      rcases hmem b hb with hb | hb
      · rcases Catalog.mem_values_put hb with rfl | hb
        · exact .inr List.mem_cons_self
        · exact .inl hb
      · exact .inr (List.mem_cons_of_mem _ hb)

end Table

namespace Pass

variable (source : String) (config : Config) (host : Host.Registry)

theorem table_initial : ∃ (predeclared : Frame) (used : List String),
    (initial source config host).table = { host, predeclared, namespaces := used } ∧
      ∀ b ∈ predeclared.values, ∀ c : Code,
        b.symbol.meaning.Agrees c ∧ b.symbol.meaning.IsGlobal := by
  obtain ⟨used, hused⟩ := Table.addUsing_foldl { host } config.namespaces
  simp only [initial, start, table_meet, Session.start, hused, Table.predeclareAll]
  obtain ⟨f, hf, hmem⟩ := Table.predeclare_foldl { host, namespaces := used }
    ((Ty.primitives.filter (·.1 != "*") |>.map fun x => ⟨x.1, .type x.2⟩) ++
      Builtin.all.map Symbol.ofBuiltin)
  refine ⟨f, used, hf, fun b hb c => ?_⟩
  rcases hmem b hb with hb | hb
  · cases hb
  · rcases List.mem_append.mp hb with hb | hb
    · obtain ⟨x, hx, heq⟩ := List.mem_map.mp hb
      rw [← heq]
      refine ⟨?_, trivial⟩
      have hprimitive : ∀ x ∈ Ty.primitives, x.2.element? = none := by decide
      exact hprimitive x (List.mem_filter.mp hx).1
    · obtain ⟨builtin, -, hbuiltin⟩ := List.mem_map.mp hb
      rw [← hbuiltin]
      exact ⟨⟨rfl, rfl, rfl⟩, trivial⟩

theorem inStep_initial : (initial source config host).InStep host := by
  obtain ⟨predeclared, used, htable, hagrees⟩ := table_initial source config host
  unfold InStep
  rw [code_initial, trail_initial, htable]
  refine ⟨rfl, by simp [Code.empty],
    ⟨by simp, by simp [Catalog.values_empty], fun b hb => hagrees b hb _⟩,
    ⟨rfl, rfl, rfl⟩, ?_, by simp, ?_, by simp, .nil⟩
  · intro index m hm i hi
    rw [Code.eq_of_getElem_empty hm] at hi
    simp at hi
  · intro index m hm j hj
    rw [Code.eq_of_getElem_empty hm] at hj
    simp at hj

theorem inStep_final : (final source config host).InStep host ∧
    (final source config host).table.blocks = [] := by
  refine (built_run source config host).1.inStep (inStep_initial source config host) ?_
  obtain ⟨_, _, htable, -⟩ := table_initial source config host
  rw [htable]

end Pass

/-- Every reference in the code that a compilation leaves is valid, also after errors. The
journal tells where the block of each local variable ends, and no instruction that was emitted
behind that end uses the variable. -/
theorem references_valid (source : String) (config : Config) (host : Host.Registry) :
    let s := (run source config host).2
    (∀ (index : Nat) (m : Method), s.code.methods[index]? = some m →
      (∀ i ∈ m.code, i.Valid s.code host index m) ∧
        ∀ j < m.locals.size, ∃ position, ⟨index, j, position⟩ ∈ s.trail.endings) ∧
    s.trail.Counts s.code ∧
    ∀ e ∈ s.trail.endings, ∃ m, s.code.methods[e.method]? = some m ∧ e.Ends m := by
  obtain ⟨hlinked, hb⟩ := Pass.inStep_final source config host
  simp only [Pass.trail_run, Pass.code_run]
  refine ⟨?_, hlinked.counts, hlinked.ended⟩
  intro index m hm
  refine ⟨hlinked.valid index m hm, fun j hj => ?_⟩
  refine (hlinked.alive index m hm j hj).resolve_right ?_
  rintro ⟨-, f, hf, -⟩
  rw [hb] at hf
  cases hf

end OnePass
