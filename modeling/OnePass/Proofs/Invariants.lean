import OnePass.Proofs.StackTyping
import OnePass.Proofs.Validity

/-!
Invariants of code. What is kept by the code of an expression, by a single instruction, by labels
and by methods that are opened is kept by every statement and by every item of a program, as long
as no error is counted. An invariant speaks of the code, of the labels that may be marked in the
open method and of the stack behind its code.
-/

namespace OnePass
namespace Code

open Instr (Effect Effects)

/-! Variables -/

namespace Proper

variable {c d : Code}

theorem update {f : Method → Method} (h : c.Proper) (hf : (f c.current).Proper) :
    (c.updateCurrent f).Proper := by
  refine ⟨by simpa using h.fields, ?_⟩
  intro m hm
  obtain ⟨index, hm⟩ := Array.mem_iff_getElem?.mp hm
  obtain ⟨-, rfl⟩ | ⟨-, hm⟩ := c.getElem_updateCurrent hm
  · exact hf
  · exact h.methods m (Array.mem_of_getElem? hm)

theorem emit (h : c.Proper) (i : Instr) : (c.emit i).Proper :=
  h.update ⟨h.current.params, h.current.locals⟩

theorem addLocal (h : c.Proper) {ty : Ty} (hty : ty ≠ .void) (name : String) :
    (c.addLocal name ty).Proper := by
  refine h.update ⟨h.current.params, ?_⟩
  simp only [Method.addLocal, Array.mem_push]
  rintro v (hv | rfl)
  · exact h.current.locals v hv
  · exact hty

theorem addField (h : c.Proper) {ty : Ty} (hty : ty.Proper) (name : String)
    (size : Option Nat) : (c.addField name ty size).Proper := by
  refine ⟨?_, h.methods⟩
  simp only [Code.addField, Array.mem_push]
  rintro f (hf | rfl)
  · exact h.fields f hf
  · exact hty

theorem of_methods (h : c.Proper) (hfields : d.fields = c.fields)
    (hmethods : d.methods = c.methods) : d.Proper :=
  ⟨hfields ▸ h.fields, hmethods ▸ h.methods⟩

theorem push {m : Method} (h : c.Proper) (hfields : d.fields = c.fields)
    (hmethods : d.methods = c.methods.push m) (hm : m.Proper) : d.Proper := by
  refine ⟨hfields ▸ h.fields, ?_⟩
  rw [hmethods]
  intro m' hm'
  rcases Array.mem_push.mp hm' with hm' | rfl
  · exact h.methods m' hm'
  · exact hm

end Proper

/-! Invariants -/

/-- What all that a compilation without errors writes keeps. The labels that are `owned` are of
the open method, and `s` is the stack behind its code. -/
structure Invariant (host : Host.Registry) (P : (Label → Prop) → List Ty → Code → Prop) :
    Prop where
  proper {owned : Label → Prop} {s : List Ty} {c : Code} : P owned s c → c.Proper
  mono {owned owned' : Label → Prop} {s : List Ty} {c : Code} :
    P owned s c → (∀ l, owned' l → owned l) → P owned' s c
  /-- An expression leaves its value on the stack. -/
  value {owned : Label → Prop} {s : List Ty} {c : Code} {t : Table} {e : Tree.Expr}
    {r : Tree.Translation} : P owned s c → t.Describes c → t.host = host →
    e.translate t = some r → P owned (r.ty.values ++ s) (c.emitAll r.code)
  emit {owned : Label → Prop} {s s' : List Ty} {c : Code} {i : Instr} : P owned s c →
    i.Effect c host c.current s s' → (∀ target, i ≠ .call target) → P owned s' (c.emit i)
  /-- The open method changes, but not in its code. -/
  update {owned : Label → Prop} {s : List Ty} {c : Code} {f : Method → Method} : P owned s c →
    c.current.Extends (f c.current) → (f c.current).code = c.current.code →
    (c.updateCurrent f).Proper → P owned s (c.updateCurrent f)
  newLabel {owned : Label → Prop} {s : List Ty} {c : Code} :
    P owned s c → P (fun l => owned l ∨ l = c.nextLabel) s c.newLabel
  /-- A label of the open method is marked where the stack is empty. -/
  markLabel {owned : Label → Prop} {c : Code} {l : Label} :
    P owned [] c → owned l → P owned [] (c.markLabel l)
  /-- Another method may be opened where the stack is empty. -/
  turn {owned : Label → Prop} {c d : Code} : P owned [] c → c.Extends d → d.Proper →
    (∀ (index : Nat) (m : Method), d.methods[index]? = some m →
      c.methods[index]? = some m ∨ m.code = #[]) →
    d.labels = c.labels → P (fun _ => False) [] d

namespace Invariant

variable {host : Host.Registry} {P : (Label → Prop) → List Ty → Code → Prop}
  {owned : Label → Prop} {s s' : List Ty} {c : Code}

theorem openScope (hP : Invariant host P) (h : P owned s c) : P owned s c.openScope := by
  have hc := hP.proper h
  exact hP.update h (.openScope _) rfl (hc.update ⟨hc.current.params, hc.current.locals⟩)

theorem closeScope (hP : Invariant host P) (h : P owned s c) : P owned s c.closeScope := by
  have hc := hP.proper h
  refine hP.update h (.closeScope _) (by simp) (hc.update ?_)
  exact ⟨by simpa using hc.current.params, by simpa using hc.current.locals⟩

theorem addLocal (hP : Invariant host P) (h : P owned s c) {ty : Ty} (hty : ty ≠ .void)
    (name : String) : P owned s (c.addLocal name ty) :=
  hP.update h (.addLocal _ name ty) rfl ((hP.proper h).addLocal hty name)

theorem assignCast (hP : Invariant host P) {target source : Ty}
    (h : P owned (source.values ++ s) c) (hassign : target.assignable source)
    (ht : target ≠ .void) :
    P owned (target :: s) (c.emitAll (Instr.assignCast? target source).toList) := by
  rw [Ty.values_eq (Ty.ne_void_of_assignable hassign ht)] at h
  unfold Instr.assignCast?
  split
  · rename_i heq
    rw [heq]
    exact h
  · exact hP.emit h (Effect.assignCast s hassign) (by simp)

end Invariant
end Code

/-! Statements -/

namespace Pass

open Code (Invariant)

variable {p q : Pass} {host : Host.Registry} {P : (Label → Prop) → List Ty → Code → Prop}
  {owned : Label → Prop} {s : List Ty} {ty : Ty} {part : Part} {loop : Option LoopLabels}

theorem keeps_expression (hP : Invariant host P) (hh : host.Proper) (hp : p.InStep host)
    (hs : P owned s p.code) (h : Action.expression p = (.ok ty, q)) :
    P owned (ty.values ++ s) q.code := by
  obtain ⟨e, r, ⟨-, -, hr, hread⟩, rfl⟩ := Action.expression_recognised h
  have hdescribes : p.table.Describes p.code :=
    ⟨hp.table, hP.proper hs, by rw [hp.registry]; exact hh⟩
  rw [hread.code]
  exact hP.value hs hdescribes hp.registry hr

theorem keeps_quiet (hs : P owned s p.code) (h : p.Writes [] q) : P owned s q.code := by
  rw [h.code]
  exact hs

theorem keeps_tested (hP : Invariant host P) (hh : host.Proper) (hp : p.InStep host)
    (hs : P owned [] p.code) (h : p.Tested q) : P owned [.bool] q.code := by
  obtain ⟨r, u, hr, hu, hq⟩ := h
  have hvalue := keeps_expression hP hh (hp.writes hr (by simp)) (keeps_quiet hs hr) hu
  exact keeps_quiet hvalue hq

theorem keeps_beginLoop (hP : Invariant host P) (hs : P owned [] p.code) :
    P (fun l => owned l ∨ l = p.loopLabels.exit ∨ l = p.loopLabels.again) []
      p.beginLoop.code := by
  have hlabels := hP.newLabel (hP.newLabel hs)
  have hmarked := hP.markLabel (l := p.loopLabels.again) hlabels (.inl (.inr rfl))
  refine hP.mono hmarked ?_
  rintro l (hl | hl | hl)
  · exact .inl (.inl hl)
  · exact .inr hl
  · exact .inl (.inr hl)

theorem keeps_endLoop (hP : Invariant host P) {labels : LoopLabels}
    (hs : P (fun l => owned l ∨ l = labels.exit ∨ l = labels.again) [] p.code) :
    P owned [] (p.endLoop labels).code := by
  have hback := hP.emit hs (.branch labels.again) (by simp)
  exact hP.mono (hP.markLabel hback (.inr (.inl rfl))) fun _ => .inl

theorem keeps_skipUnless (hP : Invariant host P) (hs : P owned [.bool] p.code) :
    P (fun l => owned l ∨ l = p.code.nextLabel) [] p.skipUnless.code :=
  hP.emit (hP.newLabel hs) (.branchFalse _) (by simp)

theorem keeps_otherwise (hP : Invariant host P) {label : Label}
    (hs : P (fun l => owned l ∨ l = label) [] p.code) :
    P (fun l => owned l ∨ l = p.code.nextLabel) [] (p.otherwise label).code := by
  have hjump := hP.emit (hP.newLabel hs) (.branch p.code.nextLabel) (by simp)
  refine hP.mono (hP.markLabel hjump (.inl (.inr rfl))) ?_
  exact fun l => Or.imp_left .inl

/-- Statements without errors keep an invariant and leave the stack empty. -/
theorem Ran.keeps (h : Ran part loop p q) (hP : Invariant host P)
    (hzero : q.diagnostics.errorCount = 0) (hh : host.Proper) (hp : p.InStep host)
    (hs : P owned [] p.code) : P owned [] q.code := by
  induction h generalizing owned with
  | quiet h => exact keeps_quiet hs h
  | trans h h' ih ih' =>
      have hmiddle := Nat.le_zero.mp (hzero ▸ h'.errors)
      exact ih' hzero (h.inStep hp) (ih hmiddle hp hs)
  | item _ ih => exact ih hzero hp hs
  | abandoned h =>
      obtain ⟨-, -, -, herror⟩ := h
      exact absurd hzero (Nat.ne_of_gt herror)
  | @discarded _ p q ty h =>
      have hvalue := keeps_expression hP hh hp hs h
      by_cases hty : ty = .void
      · rw [if_pos hty]
        simpa [hty] using hvalue
      · rw [if_neg hty]
        rw [Ty.values_eq hty] at hvalue
        exact hP.emit hvalue (.pop ty []) (by simp)
  | returned hty => exact hP.emit hs (.ret_of hty) (by simp)
  | @returnedValue _ p q r ty returnType hreturn hvoid h hassign hcast =>
      have hr : P owned [returnType] r.code := by
        rw [hcast.code]
        exact hP.assignCast (keeps_expression hP hh hp hs h) hassign hvoid
      refine hP.emit hr ?_ (by simp)
      rw [← Ty.values_eq hvoid]
      obtain ⟨is, hwrites, -⟩ := Action.expression_writes h
      refine .ret_of ?_
      rw [hcast.code, Code.returnType_emitAll, hwrites.code, Code.returnType_emitAll, hreturn]
  | jumped _ => exact hP.emit hs (.branch _) (by simp)
  | declared l _ _ hty =>
      rw [declareLocal, code_edit]
      exact hP.addLocal hs hty _
  | block h ih =>
      rw [closeBlock, code_edit]
      refine hP.closeScope (ih (by simpa [closeBlock] using hzero) hp.openBlock ?_)
      rw [openBlock, code_perform, code_edit]
      exact hP.openScope hs
  | ifThen h _ ih =>
      have htest := keeps_skipUnless hP (keeps_tested hP hh hp hs h)
      have hthen := ih (by simpa using hzero) (hp.tested h).skipUnless htest
      exact hP.mono (hP.markLabel hthen (.inr rfl)) fun _ => .inl
  | ifElse h hran h' hran' ih ih' =>
      have hu := hzero
      rw [diagnostics_perform] at hu
      have hs' := hran'.errors
      simp only [otherwise, diagnostics_perform] at hs'
      have hr := Nat.le_zero.mp (hu ▸ Nat.le_trans h'.errors hs')
      have htest := keeps_skipUnless hP (keeps_tested hP hh hp hs h)
      have hthen := keeps_quiet (ih hr (hp.tested h).skipUnless htest) h'
      have hin := (hran.inStep (hp.tested h).skipUnless).writes h' (by simp)
      have helse := ih' hu (hin.otherwise _) (keeps_otherwise hP hthen)
      exact hP.mono (hP.markLabel helse (.inr rfl)) fun _ => .inl
  | whileAbandoned h =>
      obtain ⟨-, -, -, herror⟩ := h
      exact absurd hzero (Nat.ne_of_gt (by simpa using herror))
  | @whileLoop _ p q r h _ ih =>
      have htest := keeps_tested hP hh hp.beginLoop (keeps_beginLoop hP hs) h
      have hbranch := hP.emit htest (.branchFalse p.loopLabels.exit) (by simp)
      refine keeps_endLoop hP (ih (by simpa [endLoop] using hzero) ?_ hbranch)
      exact (hp.beginLoop.tested h).emit trivial fun _ => id
  | infinite _ ih =>
      refine keeps_endLoop hP (ih (by simpa [endLoop] using hzero) hp.beginLoop ?_)
      exact keeps_beginLoop hP hs

/-! Programs -/

theorem diagnostics_openMethod (depth : Nat) (name : String) (returnType : Ty)
    (params : List (String × Ty)) (p : Pass) :
    (p.openMethod depth name returnType params).diagnostics = p.diagnostics := by
  have hbind (ordinal : Nat) (p : Pass) :
      (Action.bindParameters params ordinal p).diagnostics = p.diagnostics := by
    induction params generalizing ordinal p with
    | nil => rfl
    | cons x params ih =>
        rw [Action.bindParameters, ih, Action.bindParameter]
        simp only
        split <;> simp
  unfold openMethod Action.completeMethod
  simp only
  split <;> simp [hbind]

theorem Built.errors (h : Built p q) : p.diagnostics.errorCount ≤ q.diagnostics.errorCount := by
  induction h with
  | ran h => exact h.errors
  | trans _ _ ih ih' => exact Nat.le_trans ih ih'
  | field size l _ _ _ _ => simp [declareField]
  | signature l _ h _ => simpa [beginSignature] using h.errors
  | method l _ h hran =>
      have hsigned := h.errors
      have hbody := hran.errors
      rw [diagnostics_openMethod] at hbody
      simp only [beginSignature, closeMethod, diagnostics_edit, diagnostics_perform] at hsigned ⊢
      exact Nat.le_trans hsigned hbody

/-- The name of a type never means an array. -/
theorem element?_of_typeOf? {t : Table} {c : Code} {token : Option Token} (ht : t.Agrees c)
    (htype : Action.typeOf? t token = some ty) : ty.element? = none := by
  unfold Action.typeOf? at htype
  split at htype
  · cases htype
    rfl
  · unfold Table.resolveType at htype
    split at htype
    · rename_i hlookup
      cases htype
      exact ht.lookup hlookup
    · cases htype
    · obtain ⟨owner, -, rfl⟩ := Option.map_eq_some_iff.mp htype
      rfl
  · cases htype

theorem proper_field {t : Table} {c : Code} {token : Option Token} (ht : t.Agrees c)
    (htype : Action.typeOf? t token = some ty) (hty : ty ≠ .void) (size : Option Nat) :
    (if size.isSome then ty.array else ty).Proper := by
  have helement := element?_of_typeOf? ht htype
  split
  · exact hty
  · cases ty with
    | void => exact hty rfl
    | array _ => cases helement
    | int | bool | double | char | string | pointer | pchar | host _ => trivial

/-- A method is opened behind the others. It has no code yet, and its parameters have values. -/
theorem Parameters.opened {name : String} {returnType : Ty} {params : List (String × Ty)}
    {l : Location} (h : Parameters params (p.beginSignature name returnType l) q)
    (hb : p.table.blocks = []) (hc : p.code.Proper) :
    let d := (q.openMethod p.table.depth name returnType params).code
    p.code.Extends d ∧ d.Proper ∧
      (∀ (index : Nat) (m : Method), d.methods[index]? = some m →
        p.code.methods[index]? = some m ∨ m.code = #[]) ∧ d.labels = p.code.labels := by
  have hsigned := h.signed hb
  obtain ⟨f, places, -, htypes, -, hcode, -⟩ := hsigned.opened hb
  have hmethods := q.code.methods_addMethod_updateCurrent name returnType
    fun m => { m with params := places }
  have hfields : (q.openMethod p.table.depth name returnType params).code.fields =
      q.code.fields := by
    rw [hcode, Code.fields_updateCurrent]
    rfl
  have hplaces (v : Param) (hv : v ∈ places) : v.ty ≠ .void := by
    have hmem : v.ty ∈ params.map Prod.snd := by
      rw [← htypes]
      exact List.mem_map_of_mem (Array.mem_toList_iff.mpr hv)
    obtain ⟨x, hx, hty⟩ := List.mem_map.mp hmem
    exact hty ▸ h.ne_void x hx
  rw [← hcode] at hmethods
  rw [← hsigned.code] at hc ⊢
  refine ⟨.push hfields hmethods, hc.push hfields hmethods ⟨hplaces, by simp⟩, ?_, ?_⟩
  · intro index m hm
    refine (Code.getElem_of_push hmethods hm).imp_right ?_
    rintro rfl
    rfl
  · rw [hcode, Code.labels_updateCurrent]
    rfl

/-- The items of a program without errors keep an invariant. -/
theorem Built.keeps (h : Built p q) (hP : Invariant host P)
    (hzero : q.diagnostics.errorCount = 0) (hh : host.Proper) (hp : p.InStep host)
    (hb : p.table.blocks = []) (hs : P (fun _ => False) [] p.code) :
    P (fun _ => False) [] q.code := by
  induction h with
  | ran h => exact h.keeps hP hzero hh hp hs
  | trans h h' ih ih' =>
      obtain ⟨hq, hbq⟩ := h.inStep hp hb
      exact ih' hzero hq hbq (ih (Nat.le_zero.mp (hzero ▸ h'.errors)) hp hb hs)
  | field size l htype _ hty _ =>
      obtain ⟨token, htype⟩ := htype
      rw [declareField, code_edit]
      refine hP.turn hs (.addField _ _ _ _) ?_ (fun _ _ => .inl) rfl
      exact (hP.proper hs).addField (proper_field hp.table htype hty size) _ _
  | signature l _ _ herror => exact absurd hzero (Nat.ne_of_gt (by simpa using herror))
  | @method p q r name returnType params l _ h hran =>
      obtain ⟨hext, hproper, hmethods, hlabels⟩ := h.opened hb (hP.proper hs)
      have hopened := hP.turn hs hext hproper hmethods hlabels
      have hbody := hran.keeps hP (by simpa [closeMethod] using hzero) hh
        ((h.signed hb).openMethod hp hb) hopened
      rw [closeMethod, code_edit]
      refine hP.turn hbody (.of_methods rfl r.code.methods_closeMethod)
        ((hP.proper hbody).of_methods rfl r.code.methods_closeMethod) ?_ rfl
      intro index m hm
      exact .inl (r.code.methods_closeMethod ▸ hm)

end Pass

/-- A whole compilation without errors keeps an invariant, against a host without void fields and
parameters. -/
theorem Code.Invariant.run {host : Host.Registry} {P : (Label → Prop) → List Ty → Code → Prop}
    (hP : Code.Invariant host P) {source : String} {config : Config} (hh : host.Proper)
    (hempty : P (fun _ => False) [] (.empty config.entryMethod))
    (hzero : (OnePass.run source config host).2.diagnostics.errorCount = 0) :
    P (fun _ => False) [] (OnePass.run source config host).2.code := by
  obtain ⟨predeclared, used, htable, -⟩ := Pass.table_initial source config host
  rw [Pass.diagnostics_run] at hzero
  rw [Pass.code_run]
  refine (Pass.built_run source config host).1.keeps hP hzero hh
    (Pass.inStep_initial source config host) (by rw [htable]) ?_
  rw [Pass.code_initial]
  exact hempty

end OnePass
