import OnePass.Proofs.References

/-!
Table, code and journal of a compilation stay in step. Every declared name refers to what the
code has, every instruction refers to what its method can reach, and a local variable is bound
in exactly one open block until the journal tells that the block has ended.
-/

namespace OnePass

/-- An end of a block in the code of a method: no instruction behind it uses the variable. -/
structure Ending.Ends (e : Ending) (m : Method) : Prop where
  index : e.index < m.locals.size
  position : e.position ≤ m.code.size
  unused : ∀ (pc : Nat) (i : Instr), e.position ≤ pc → m.code[pc]? = some i →
    ¬ i.UsesLocal e.index

/-- No two blocks bind the same local variable. -/
def Table.Disjoint (t : Table) : Prop :=
  t.blocks.Pairwise fun f g => ∀ index, f.Binds index → ¬ g.Binds index

/-- Table, code and trail are in step. A local variable of the open method lives in a block of
the table; those of other methods have ended. -/
structure Linked (host : Host.Registry) (t : Table) (c : Code) (trail : Trail) : Prop where
  registry : t.host = host
  scope : c.body.isSome → t.blocks ≠ []
  table : t.Agrees c
  counts : trail.Counts c
  valid : ∀ (index : Nat) (m : Method), c.methods[index]? = some m →
    ∀ i ∈ m.code, i.Valid c host index m
  ended : ∀ e ∈ trail.endings, ∃ m, c.methods[e.method]? = some m ∧ e.Ends m
  alive : ∀ (index : Nat) (m : Method), c.methods[index]? = some m → ∀ j < m.locals.size,
    (∃ pc, ⟨index, j, pc⟩ ∈ trail.endings) ∨ index = c.currentIndex ∧ t.Binds j
  apart : ∀ j pc, t.Binds j → ⟨c.currentIndex, j, pc⟩ ∉ trail.endings
  disjoint : t.Disjoint

/-! Bound local variables -/

namespace Frame

variable {f : Frame} {index : Nat}

theorem not_binds_empty : ¬ Binds {} index := by
  rintro ⟨b, hb, -⟩
  cases hb

/-- Only a local variable is bound by its declaration. -/
theorem binds_put {name : String} {b : Binding} (hfresh : f.find? name = none) :
    Binds (f.put name b) index ↔
      f.Binds index ∨ ∃ ty, b.symbol.meaning = .localVar index ty := by
  constructor
  · rintro ⟨b', hb', ty, hm⟩
    rcases Catalog.mem_values_put hb' with rfl | hb'
    · exact .inr ⟨ty, hm⟩
    · exact .inl ⟨b', hb', ty, hm⟩
  · rintro (⟨b', hb', ty, hm⟩ | ⟨ty, hm⟩)
    · rcases Catalog.mem_values_put_of_mem hb' name b with hb' | hfind
      · exact ⟨b', hb', ty, hm⟩
      · cases hfresh.symm.trans hfind
    · exact ⟨b, Catalog.mem_values_put_self f name b, ty, hm⟩

end Frame

namespace Table

variable {t : Table} {index : Nat}

theorem blocks_declare {f : Frame} {rest : List Frame} (hb : t.blocks = f :: rest)
    (symbol : Symbol) (l : Location) :
    (t.declare symbol l).blocks = f.put symbol.name ⟨symbol, l⟩ :: rest := by
  simp only [declare, updateInnermost, hb]
  rfl

theorem find?_of_declaredAt {f : Frame} {rest : List Frame} (hb : t.blocks = f :: rest)
    {name : String} (h : t.declaredAt? name = none) : f.find? name = none := by
  simpa [declaredAt?, innermost, hb] using h

theorem binds_cons {f : Frame} {rest : List Frame} (hb : t.blocks = f :: rest) :
    t.Binds index ↔ f.Binds index ∨ t.closeScope.Binds index := by
  simp [Binds, closeScope, hb]

theorem declare_ne_nil (hb : t.blocks ≠ []) (symbol : Symbol) (l : Location) :
    (t.declare symbol l).blocks ≠ [] := by
  obtain ⟨f, rest, hf⟩ := List.exists_cons_of_ne_nil hb
  rw [blocks_declare hf]
  exact List.cons_ne_nil _ _

theorem binds_declare {symbol : Symbol} {l : Location} (hb : t.blocks ≠ [])
    (hfresh : t.declaredAt? symbol.name = none) :
    (t.declare symbol l).Binds index ↔
      t.Binds index ∨ ∃ ty, symbol.meaning = .localVar index ty := by
  obtain ⟨f, rest, hf⟩ := List.exists_cons_of_ne_nil hb
  simp only [Binds, blocks_declare hf, hf, List.mem_cons, exists_eq_or_imp,
    Frame.binds_put (find?_of_declaredAt hf hfresh)]
  exact or_right_comm

theorem disjoint_declare {symbol : Symbol} (hd : t.Disjoint) (hb : t.blocks ≠ [])
    (hfresh : t.declaredAt? symbol.name = none)
    (hnew : ∀ index ty, symbol.meaning = .localVar index ty → ¬ t.Binds index) (l : Location) :
    (t.declare symbol l).Disjoint := by
  obtain ⟨f, rest, hf⟩ := List.exists_cons_of_ne_nil hb
  unfold Disjoint at hd ⊢
  rw [hf, List.pairwise_cons] at hd
  rw [blocks_declare hf, List.pairwise_cons]
  refine ⟨?_, hd.2⟩
  intro g hg index hbinds hother
  rcases (Frame.binds_put (find?_of_declaredAt hf hfresh)).mp hbinds with hbinds | ⟨ty, hm⟩
  · exact hd.1 g hg index hbinds hother
  · exact hnew index ty hm ⟨g, by simp [hf, hg], hother⟩

@[simp] theorem host_declare (symbol : Symbol) (l : Location) :
    (t.declare symbol l).host = t.host := by
  unfold declare updateInnermost
  split <;> rfl

end Table

/-! Steps that keep everything in step -/

theorem Trail.Counts.updateCurrent {trail : Trail} {c : Code} {f : Method → Method}
    (h : trail.Counts c) (hf : ∀ m, (f m).code = m.code) : trail.Counts (c.updateCurrent f) := by
  obtain ⟨hentry, hclosed, hbody⟩ := h
  unfold Code.updateCurrent
  cases hb : c.body with
  | none => exact ⟨by simp [hentry, hf], hclosed, by simp [hbody, hb]⟩
  | some m => exact ⟨hentry, hclosed, by simp [hbody, hb, hf]⟩

theorem Trail.Counts.emitAll {trail : Trail} {c : Code} (h : trail.Counts c) (is : List Instr) :
    (trail.emitAll is).Counts (c.emitAll is) := by
  induction is generalizing trail c with
  | nil => exact h
  | cons i is ih => exact ih (h.emit i)

theorem Trail.endings_emit (trail : Trail) : trail.emit.endings = trail.endings := by
  unfold Trail.emit
  split <;> rfl

theorem Trail.endings_emitAll (trail : Trail) (is : List Instr) :
    (trail.emitAll is).endings = trail.endings := by
  induction is generalizing trail with
  | nil => rfl
  | cons i is ih => exact (ih trail.emit).trans trail.endings_emit

theorem Trail.endings_leave (trail : Trail) (t : Table) : (trail.leave t).endings =
    trail.endings ++ t.innermostLocals.map fun j => ⟨trail.currentIndex, j, trail.current⟩ := by
  unfold Trail.leave
  split <;> rfl

/-- A block ends inside of the open method. -/
theorem Trail.Counts.leave {trail : Trail} {c : Code} {t : Table} (h : trail.Counts c)
    (hinner : c.body.isSome → t.blocks.length ≠ 1) : (trail.leave t).Counts c := by
  unfold Trail.leave
  split
  · rename_i hone
    have hnone : c.body = none := by simpa using fun hsome => hinner hsome hone
    refine ⟨h.entry, ?_, ?_⟩
    · simp [Trail.closeMethod, h.closed, h.body, hnone]
    · simp [Trail.closeMethod, hnone]
  · exact ⟨h.entry, h.closed, h.body⟩

/-- The outermost block ends with the open method. -/
theorem Trail.Counts.leave_closeMethod {trail : Trail} {c : Code} {t : Table}
    (h : trail.Counts c) (hone : t.blocks.length = 1) :
    (trail.leave t).Counts c.closeMethod := by
  simp only [Trail.leave, hone, if_true]
  exact ⟨h.closeMethod.entry, h.closeMethod.closed, h.closeMethod.body⟩

namespace Linked

variable {host : Host.Registry} {t t' : Table} {c d : Code} {trail trail' : Trail}

/-- A change of the open method: instructions are added that use what the table has, and local
variables that the table binds from now on. -/
theorem update {f : Method → Method} (h : Linked host t c trail)
    (hext : c.current.Extends (f c.current))
    (hnew : ∀ pc i, c.current.code.size ≤ pc → (f c.current).code[pc]? = some i →
      i.Valid c host c.currentIndex c.current ∧ ∀ j, i.UsesLocal j → t.Binds j)
    (hhost : t'.host = t.host) (hblocks : t.blocks ≠ [] → t'.blocks ≠ [])
    (htable : t'.Agrees (c.updateCurrent f)) (hdisjoint : t'.Disjoint)
    (hbinds : ∀ j, t'.Binds j ↔
      t.Binds j ∨ c.current.locals.size ≤ j ∧ j < (f c.current).locals.size)
    (hcounts : trail'.Counts (c.updateCurrent f)) (hendings : trail'.endings = trail.endings) :
    Linked host t' (c.updateCurrent f) trail' := by
  have hgrows := Code.Extends.update hext
  have hlocals : c.current.locals.size ≤ (f c.current).locals.size := by
    obtain ⟨vs, hvs⟩ := hext.locals
    simp [hvs]
  obtain ⟨is, his⟩ := hext.code
  refine ⟨hhost.trans h.registry, ?_, htable, hcounts, ?_, ?_, ?_, ?_, hdisjoint⟩
  · intro hsome
    exact hblocks (h.scope (by simpa using hsome))
  · intro index m hm i hi
    obtain ⟨rfl, rfl⟩ | ⟨-, hm⟩ := c.getElem_updateCurrent hm
    · obtain ⟨pc, hpc⟩ := Array.mem_iff_getElem?.mp hi
      rcases Nat.lt_or_ge pc c.current.code.size with hlt | hge
      · rw [his, Array.getElem?_append_left hlt] at hpc
        have hold := h.valid _ _ c.getElem_currentIndex i (Array.mem_of_getElem? hpc)
        exact hold.mono hgrows hext
      · exact (hnew pc i hge hpc).1.mono hgrows hext
    · exact (h.valid index m hm i hi).mono hgrows (.refl m)
  · rw [hendings]
    intro e he
    obtain ⟨m, hm, hends⟩ := h.ended e he
    obtain ⟨hcurrent, rfl, hm'⟩ | ⟨-, hm'⟩ := c.updateCurrent_getElem (f := f) hm
    · refine ⟨f c.current, hm', Nat.lt_of_lt_of_le hends.index hlocals, ?_, ?_⟩
      · exact Nat.le_trans hends.position (by simp [his])
      · intro pc i hpc hi huses
        rcases Nat.lt_or_ge pc c.current.code.size with hlt | hge
        · rw [his, Array.getElem?_append_left hlt] at hi
          exact hends.unused pc i hpc hi huses
        · -- the table binds what a new instruction uses, and has not bound what has ended
          refine h.apart e.index e.position ((hnew pc i hge hi).2 e.index huses) ?_
          rw [← hcurrent]
          exact he
    · exact ⟨m, hm', hends⟩
  · rw [hendings, Code.currentIndex_updateCurrent]
    intro index m hm j hj
    obtain ⟨rfl, rfl⟩ | ⟨-, hm⟩ := c.getElem_updateCurrent hm
    · rcases Nat.lt_or_ge j c.current.locals.size with hlt | hge
      · refine (h.alive _ _ c.getElem_currentIndex j hlt).imp_right fun hbound => ?_
        exact ⟨rfl, (hbinds j).mpr (.inl hbound.2)⟩
      · exact .inr ⟨rfl, (hbinds j).mpr (.inr ⟨hge, hj⟩)⟩
    · refine (h.alive index m hm j hj).imp_right fun hbound => ?_
      exact ⟨hbound.1, (hbinds j).mpr (.inl hbound.2)⟩
  · rw [hendings, Code.currentIndex_updateCurrent]
    intro j pc hj he
    rcases (hbinds j).mp hj with hj | ⟨hge, -⟩
    · exact h.apart j pc hj he
    · obtain ⟨m, hm, hends⟩ := h.ended _ he
      rw [c.getElem_currentIndex] at hm
      cases hm
      exact absurd hends.index (Nat.not_lt.mpr hge)

/-- Only the open method changes, and not in its local variables. -/
theorem grow {f : Method → Method} (h : Linked host t c trail)
    (hext : c.current.Extends (f c.current)) (hlocals : (f c.current).locals = c.current.locals)
    (hnew : ∀ pc i, c.current.code.size ≤ pc → (f c.current).code[pc]? = some i →
      i.Valid c host c.currentIndex c.current ∧ ∀ j, i.UsesLocal j → t.Binds j)
    (hcounts : trail'.Counts (c.updateCurrent f)) (hendings : trail'.endings = trail.endings) :
    Linked host t (c.updateCurrent f) trail' := by
  refine h.update hext hnew rfl id (h.table.mono (.update hext) (by simp)) h.disjoint ?_ hcounts
    hendings
  intro j
  rw [hlocals]
  exact ⟨.inl, fun hj => hj.elim id fun hj => absurd hj.2 (Nat.not_lt.mpr hj.1)⟩

theorem emitAll {is : List Instr} (h : Linked host t c trail)
    (hvalid : ∀ i ∈ is, i.Valid c host c.currentIndex c.current)
    (huses : ∀ i ∈ is, ∀ j, i.UsesLocal j → t.Binds j) :
    Linked host t (c.emitAll is) (trail.emitAll is) := by
  have hcounts := h.counts.emitAll is
  rw [Code.emitAll_eq] at hcounts ⊢
  refine h.grow ⟨rfl, rfl, ⟨#[], by simp⟩, ⟨is.toArray, rfl⟩⟩ rfl ?_ hcounts
    (trail.endings_emitAll is)
  intro pc i hpc hi
  rw [Array.getElem?_append_right hpc] at hi
  have hi : i ∈ is := by simpa using Array.mem_of_getElem? hi
  exact ⟨hvalid i hi, huses i hi⟩

/-- An instruction that refers to nothing. -/
theorem emit {i : Instr} (h : Linked host t c trail)
    (hvalid : i.Valid c host c.currentIndex c.current) (huses : ∀ j, ¬ i.UsesLocal j) :
    Linked host t (c.emit i) trail.emit :=
  h.emitAll (List.forall_mem_singleton.mpr hvalid)
    (List.forall_mem_singleton.mpr fun j hj => (huses j hj).elim)

/-- Scopes of the open method are opened or closed. -/
theorem rescope {f : Method → Method} (h : Linked host t c trail)
    (hext : c.current.Extends (f c.current)) (hlocals : (f c.current).locals = c.current.locals)
    (hcode : ∀ m, (f m).code = m.code) : Linked host t (c.updateCurrent f) trail := by
  refine h.grow hext hlocals ?_ (h.counts.updateCurrent hcode) rfl
  intro pc i hpc hi
  rw [hcode, Array.getElem?_eq_none hpc] at hi
  cases hi

/-- The table changes, but not in the local variables that it binds, and methods stay as they
are. -/
theorem restate {fs : Array Field} {ls : Array LabelState} (h : Linked host t c trail)
    (hext : c.Extends { c with fields := fs, labels := ls }) (hhost : t'.host = t.host)
    (hblocks : t.blocks ≠ [] → t'.blocks ≠ [])
    (htable : t'.Agrees { c with fields := fs, labels := ls }) (hdisjoint : t'.Disjoint)
    (hbinds : ∀ j, t'.Binds j ↔ t.Binds j) :
    Linked host t' { c with fields := fs, labels := ls } trail where
  registry := hhost.trans h.registry
  scope hsome := hblocks (h.scope hsome)
  table := htable
  counts := ⟨h.counts.entry, h.counts.closed, h.counts.body⟩
  valid index m hm i hi := (h.valid index m hm i hi).mono hext (.refl m)
  ended := h.ended
  alive index m hm j hj := (h.alive index m hm j hj).imp_right fun hbound =>
    ⟨hbound.1, (hbinds j).mpr hbound.2⟩
  apart j pc hj := h.apart j pc ((hbinds j).mp hj)
  disjoint := hdisjoint

theorem labels (h : Linked host t c trail) (ls : Array LabelState) :
    Linked host t { c with labels := ls } trail :=
  h.restate (.of_methods rfl rfl) rfl id (h.table.mono (.of_methods rfl rfl) rfl) h.disjoint
    fun _ => .rfl

theorem openScope (h : Linked host t c trail) : Linked host t.openScope c trail := by
  refine h.restate (.refl c) rfl (fun _ => List.cons_ne_nil _ _) h.table.openScope ?_ ?_
  · exact List.pairwise_cons.mpr
      ⟨fun _ _ _ hbinds => (Frame.not_binds_empty hbinds).elim, h.disjoint⟩
  · intro j
    simp [Table.Binds, Table.openScope, Frame.not_binds_empty]

theorem declareField (h : Linked host t c trail) (name own : String) (ty : Ty)
    (size : Option Nat) (l : Location) :
    Linked host (t.declareField ⟨own, .field (.module c.fields.size) ty⟩ l)
      (c.addField name ty size) trail := by
  have hext := Code.Extends.addField c name ty size
  have hfield : Meaning.Agrees (c.addField name ty size) (.field (.module c.fields.size) ty) :=
    ⟨⟨name, ty, size⟩, by simp [Code.addField], rfl⟩
  refine h.restate hext rfl id ?_ h.disjoint fun _ => .rfl
  refine (h.table.mono hext rfl).declareField ?_ ?_ l
  · exact hfield
  · trivial

theorem declareLocal (h : Linked host t c trail) {name : String} (hb : t.blocks ≠ [])
    (hfresh : t.declaredAt? name = none) (ty : Ty) (l : Location) :
    Linked host (t.declare ⟨name, .localVar c.current.locals.size ty⟩ l) (c.addLocal name ty)
      trail := by
  have hext := Method.Extends.addLocal c.current name ty
  have hmeaning : Meaning.Agrees (c.addLocal name ty) (.localVar c.current.locals.size ty) := by
    refine ⟨⟨name, ty, c.current.depth⟩, ?_, rfl⟩
    simp [Code.addLocal, Method.addLocal]
  refine h.update hext ?_ (Table.host_declare _ _) (fun _ => Table.declare_ne_nil hb _ _) ?_ ?_ ?_
    (h.counts.updateCurrent fun _ => rfl) rfl
  · intro pc i hpc hi
    rw [Method.addLocal, Array.getElem?_eq_none hpc] at hi
    cases hi
  · refine (h.table.mono (.update hext) (by simp)).declare ?_ (fun hnil => absurd hnil hb) l
    exact hmeaning
  · refine Table.disjoint_declare h.disjoint hb hfresh ?_ l
    rintro j _ ⟨⟩ hbound
    exact Nat.lt_irrefl _ (hbound.lt_size h.table)
  · intro j
    rw [Table.binds_declare hb hfresh]
    simp only [Meaning.localVar.injEq, exists_and_left, exists_eq', and_true, Method.addLocal,
      Array.size_push]
    exact or_congr_right (by omega)

theorem mem_endings_leave {f : Frame} {rest : List Frame} {e : Ending} (hcounts : trail.Counts c)
    (hf : t.blocks = f :: rest) : e ∈ (trail.leave t).endings ↔
      e ∈ trail.endings ∨ ∃ j, f.Binds j ∧ ⟨c.currentIndex, j, c.current.code.size⟩ = e := by
  rw [trail.endings_leave, hcounts.currentIndex, hcounts.current]
  simp [Table.mem_innermostLocals, Table.innermost, hf]

/-- The innermost block ends, and with the outermost one the method. The variables that it
binds are not used any more. -/
theorem leave (h : Linked host t c trail) (hb : t.blocks ≠ []) (hfields : d.fields = c.fields)
    (hmethods : d.methods = c.methods)
    (hindex : t.closeScope.blocks ≠ [] → d.currentIndex = c.currentIndex)
    (hscope : d.body.isSome → t.closeScope.blocks ≠ [])
    (hcounts : (trail.leave t).Counts d) : Linked host t.closeScope d (trail.leave t) := by
  obtain ⟨f, rest, hf⟩ := List.exists_cons_of_ne_nil hb
  have hext : c.Extends d := .of_methods hfields hmethods
  have hinner (j : Nat) (hj : t.closeScope.Binds j) : d.currentIndex = c.currentIndex := by
    obtain ⟨g, hg, -⟩ := hj
    exact hindex (List.ne_nil_of_mem hg)
  have hdisjoint := h.disjoint
  unfold Table.Disjoint at hdisjoint
  rw [hf, List.pairwise_cons] at hdisjoint
  refine ⟨h.registry, hscope, ?_, hcounts, ?_, ?_, ?_, ?_, ?_⟩
  · by_cases hnil : t.closeScope.blocks = []
    · exact h.table.closeScope.mono_global hext hnil
    · exact h.table.closeScope.mono hext (hindex hnil)
  · rw [hmethods]
    exact fun index m hm i hi => (h.valid index m hm i hi).mono hext (.refl m)
  · rw [hmethods]
    intro e he
    rcases (mem_endings_leave h.counts hf).mp he with he | ⟨j, hj, rfl⟩
    · exact h.ended e he
    · refine ⟨c.current, c.getElem_currentIndex, ?_, Nat.le_refl _, ?_⟩
      · exact ((Table.binds_cons hf).mpr (.inl hj)).lt_size h.table
      · intro pc i hpc hi
        rw [Array.getElem?_eq_none hpc] at hi
        cases hi
  · rw [hmethods]
    intro index m hm j hj
    rcases h.alive index m hm j hj with ⟨pc, he⟩ | ⟨rfl, hbound⟩
    · exact .inl ⟨pc, (mem_endings_leave h.counts hf).mpr (.inl he)⟩
    · rcases (Table.binds_cons hf).mp hbound with hbound | hbound
      · exact .inl ⟨_, (mem_endings_leave h.counts hf).mpr (.inr ⟨j, hbound, rfl⟩)⟩
      · exact .inr ⟨(hinner j hbound).symm, hbound⟩
  · intro j pc hj he
    rw [hinner j hj] at he
    rcases (mem_endings_leave h.counts hf).mp he with he | ⟨j', hj', he⟩
    · exact h.apart j pc ((Table.binds_cons hf).mpr (.inr hj)) he
    · cases he
      obtain ⟨g, hg, hbinds⟩ := hj
      exact hdisjoint.1 g (by simpa [Table.closeScope, hf] using hg) j hj' hbinds
  · unfold Table.Disjoint
    simpa [Table.closeScope, hf] using hdisjoint.2

end Linked

/-! Statements -/

namespace Pass

variable {host : Host.Registry} {p q : Pass} {part : Part} {loop : Option LoopLabels}

theorem trail_perform (p : Pass) (r : Code.Request) : (p.perform r).trail = match r with
    | .emit _ => p.trail.emit
    | .addMethod .. => p.trail.openMethod
    | _ => p.trail := by
  refine (Session.trail_perform _ _).trans ?_
  cases r with
  | emit i => rfl
  | openScope | addParam _ _ _ | addLocal _ _ | addField _ _ _ | closeMethod | newLabel => rfl
  | closeScope | addMethod _ _ _ | markLabel l =>
      simp only [Session.requestEvents]
      split <;> rfl

theorem trail_edit (p : Pass) (e : Table.Edit) : (p.edit e).trail = match e with
    | .closeScope => if p.table.blocks.isEmpty then p.trail else p.trail.leave p.table
    | _ => p.trail := by
  refine (Session.trail_edit _ _).trans ?_
  cases e with
  | closeScope =>
      simp only [Session.editEvents]
      split <;> rfl
  | openScope | declare _ _ | declareField _ _ | predeclare _ => rfl

/-- The parts of a pass are in step. -/
def InStep (host : Host.Registry) (p : Pass) : Prop :=
  Linked host p.table p.code p.trail

namespace InStep

theorem writes {is : List Instr} (h : p.InStep host) (hw : p.Writes is q)
    (his : ∀ i ∈ is, p.table.Allows i ∨ i = .ret) : q.InStep host := by
  unfold InStep
  rw [hw.table, hw.code, hw.trail]
  refine Linked.emitAll h ?_ ?_
  · intro i hi
    rcases his i hi with hi | rfl
    · rw [← h.registry]
      exact hi.valid h.table
    · trivial
  · intro i hi j hj
    rcases his i hi with hi | rfl
    · exact hi.binds h.table hj
    · exact hj.elim

theorem allowed {is : List Instr} (h : p.InStep host) (hw : p.Writes is q)
    (his : ∀ i ∈ is, p.table.Allows i) : q.InStep host :=
  h.writes hw fun i hi => .inl (his i hi)

theorem tested (h : p.InStep host) (ht : p.Tested q) : q.InStep host := by
  obtain ⟨is, hw, his⟩ := ht.writes
  exact h.allowed hw his

theorem abandons (h : p.InStep host) (ha : p.Abandons q) : q.InStep host := by
  obtain ⟨is, hw, his, -⟩ := ha
  exact h.writes hw his

/-- An instruction that refers to nothing. -/
theorem emit {i : Instr} (h : p.InStep host)
    (hvalid : i.Valid p.code host p.code.currentIndex p.code.current)
    (huses : ∀ j, ¬ i.UsesLocal j) : (p.perform (.emit i)).InStep host := by
  unfold InStep
  rw [table_perform, trail_perform]
  exact Linked.emit h hvalid huses

theorem newLabel (h : p.InStep host) : (p.perform .newLabel).InStep host := by
  unfold InStep
  rw [table_perform, trail_perform]
  exact Linked.labels h _

theorem markLabel (h : p.InStep host) (l : Label) : (p.perform (.markLabel l)).InStep host := by
  unfold InStep
  rw [table_perform, trail_perform]
  exact Linked.labels h _

theorem beginLoop (h : p.InStep host) : p.beginLoop.InStep host :=
  h.newLabel.newLabel.markLabel _

theorem endLoop (h : p.InStep host) (labels : LoopLabels) : (p.endLoop labels).InStep host :=
  (h.emit (i := .branch labels.again) trivial fun _ => id).markLabel _

theorem skipUnless (h : p.InStep host) : p.skipUnless.InStep host :=
  h.newLabel.emit trivial fun _ => id

theorem otherwise (h : p.InStep host) (l : Label) : (p.otherwise l).InStep host :=
  (h.newLabel.emit (i := .branch p.code.nextLabel) trivial fun _ => id).markLabel l

theorem declareLocal (h : p.InStep host) {name : String} (hb : p.table.blocks ≠ [])
    (hfresh : p.table.declaredAt? name = none) (ty : Ty) (l : Location) :
    (p.declareLocal name ty l).InStep host := by
  unfold InStep
  rw [table_declareLocal, Pass.declareLocal, trail_edit, trail_perform, code_edit]
  exact Linked.declareLocal h hb hfresh ty l

theorem openBlock (h : p.InStep host) : p.openBlock.InStep host := by
  unfold InStep
  rw [table_openBlock, Pass.openBlock, trail_perform, trail_edit, code_perform, code_edit]
  exact (Linked.openScope h).rescope (.openScope _) rfl fun _ => rfl

/-- A block ends that is not the one of a whole method. -/
theorem closeBlock (h : p.InStep host) (hb : p.table.blocks ≠ [])
    (hinner : p.code.body.isSome → 2 ≤ p.table.blocks.length) : p.closeBlock.InStep host := by
  unfold InStep
  rw [table_closeBlock, Pass.closeBlock, trail_edit, trail_perform, code_edit, table_perform,
    if_neg (by simpa using hb)]
  have hclosed : Linked host p.table p.code.closeScope p.trail :=
    Linked.rescope h (.closeScope _) (by simp) (by simp)
  have hinner' : p.code.closeScope.body.isSome → 2 ≤ p.table.blocks.length := by
    simpa using hinner
  refine hclosed.leave hb rfl rfl (fun _ => rfl) ?_ (hclosed.counts.leave ?_)
  · intro hsome hnil
    have := hinner' hsome
    have hlength := congrArg List.length hnil
    simp only [Table.closeScope, List.length_tail, List.length_nil] at hlength
    omega
  · intro hsome
    have := hinner' hsome
    omega

end InStep

/-- Statements keep the parts of a pass in step. -/
theorem Ran.inStep (h : Ran part loop p q) (hp : p.InStep host) : q.InStep host := by
  induction h with
  | quiet h => exact hp.writes h (by simp)
  | trans _ _ ih ih' => exact ih' (ih hp)
  | item _ ih => exact ih hp
  | abandoned h => exact hp.abandons h
  | discarded h =>
      obtain ⟨is, hw, his⟩ := Action.expression_writes h
      have hq := hp.allowed hw his
      split
      · exact hq
      · exact hq.emit trivial fun _ => id
  | returned _ | jumped _ => exact hp.emit trivial fun _ => id
  | returnedValue _ _ h _ h' =>
      obtain ⟨is, hw, his⟩ := Action.expression_writes h
      have hr := (hp.allowed hw his).allowed h' fun i hi =>
        Action.allows_assignCast (Option.mem_toList.mp hi)
      exact hr.emit trivial fun _ => id
  | declared l hb hfresh _ => exact hp.declareLocal hb hfresh _ l
  | block h ih =>
      refine (ih hp.openBlock).closeBlock ?_ ?_
      · exact h.blocks_ne_nil (by simp [Table.openScope])
      · rw [h.isSome_body, h.length_blocks]
        simp only [openBlock, code_perform, code_edit, Code.perform, Code.isSome_body_openScope,
          table_perform, table_edit, Table.edit, Table.openScope, List.length_cons]
        intro hsome
        have := List.length_pos_iff.mpr (hp.scope hsome)
        omega
  | ifThen h _ ih => exact (ih (hp.tested h).skipUnless).markLabel _
  | ifElse h _ h' _ ih ih' =>
      have hs := (ih (hp.tested h).skipUnless).writes h' (by simp)
      exact (ih' (hs.otherwise _)).markLabel _
  | whileAbandoned h => exact (hp.beginLoop.abandons h).markLabel _
  | whileLoop h _ ih =>
      exact (ih ((hp.beginLoop.tested h).emit trivial fun _ => id)).endLoop _
  | infinite _ ih => exact (ih hp.beginLoop).endLoop _

end Pass
end OnePass
