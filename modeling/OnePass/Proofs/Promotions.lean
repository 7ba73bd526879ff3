import OnePass.Proofs.Agreement
import OnePass.Proofs.Settings

/-!
Warnings and conversions. A binary operator checks its operands and warns if one of them is
converted; its instruction is written behind the check. Nothing else warns and nothing else writes
such an instruction, so behind every item of a program there is one warning for each of them that
converts, whatever became of the statements in it.
-/

namespace OnePass

/-! Binary instructions -/

/-- The operands that an operator allows: truth values if it is logical and else integers, and
doubles beside or instead of them if it is arithmetic. -/
def Ty.Operands (arithmetic logical : Prop) (left right : Ty) : Prop :=
  ¬ logical ∧ left = .int ∧ right = .int ∨
    arithmetic ∧ (left = .double ∧ right = .double ∨ left = .int ∧ right = .double ∨
      left = .double ∧ right = .int) ∨
    logical ∧ left = .bool ∧ right = .bool

namespace Instr

/-- The operands of a binary instruction are those that its operator allows. -/
def Suits : Instr → Prop
  | .additive op left right => Ty.Operands (op = .add ∨ op = .sub) (op = .or) left right
  | .multiplicative op left right => Ty.Operands (op = .mul ∨ op = .div) (op = .and) left right
  | _ => True

end Instr

theorem OperandRule.operands_of_result? {rule : OperandRule} {left right : Ty}
    (h : (rule.result? left right).isSome) :
    Ty.Operands (rule = .arithmetic) (rule = .logical) left right := by
  unfold result? at h
  split at h
  all_goals simp_all [Ty.Operands]

/-- The operators of an expression have operands that suit them. -/
theorem Table.Allows.suits {t : Table} {i : Instr} (h : t.Allows i) : i.Suits := by
  cases i with
  | additive op left right =>
      have hoperands := OperandRule.operands_of_result? h
      cases op <;> simpa [Instr.Suits, AdditiveOp.rule] using hoperands
  | multiplicative op left right =>
      have hoperands := OperandRule.operands_of_result? h
      cases op <;> simpa [Instr.Suits, MultiplicativeOp.rule] using hoperands
  | _ => trivial

/-! The instructions of all methods -/

namespace Code

/-- The instructions of all methods. -/
def instrs (c : Code) : List Instr :=
  c.methods.toList.flatMap (·.code.toList)

theorem instrs_eq (c : Code) : c.instrs = c.entry.code.toList ++
    (c.closed.toList.flatMap (·.code.toList) ++ c.body.toList.flatMap (·.code.toList)) := by
  simp [instrs, methods]

theorem instrs_empty (entryName : String) : (empty entryName).instrs = [] :=
  rfl

theorem instrs_emit (c : Code) (i : Instr) : (c.emit i).instrs.Perm (i :: c.instrs) := by
  rw [instrs_eq, instrs_eq, emit, updateCurrent]
  cases hbody : c.body with
  | none =>
      simp only [Method.emit, Array.toList_push, List.append_assoc, List.singleton_append]
      exact List.perm_middle
  | some m =>
      simp only [Method.emit, Array.toList_push, Option.toList_some, List.flatMap_singleton,
        ← List.append_assoc]
      exact List.perm_append_singleton _ _

theorem instrs_emitAll (c : Code) (is : List Instr) :
    (c.emitAll is).instrs.Perm (is ++ c.instrs) := by
  induction is generalizing c with
  | nil => exact .refl _
  | cons i is ih =>
      refine (ih (c.emit i)).trans ?_
      exact ((c.instrs_emit i).append_left is).trans List.perm_middle

theorem instrs_updateCurrent (c : Code) {f : Method → Method} (hf : ∀ m, (f m).code = m.code) :
    (c.updateCurrent f).instrs = c.instrs := by
  rw [instrs_eq, instrs_eq, updateCurrent]
  cases hbody : c.body with
  | none => simp only [hf]
  | some m => simp only [hf, Option.toList_some, List.flatMap_singleton]

/-- Only emitting adds instructions. -/
theorem instrs_perform (c : Code) {r : Request} (h : ∀ i, r ≠ .emit i) :
    (c.perform r).instrs = c.instrs := by
  cases r with
  | emit i => exact absurd rfl (h i)
  | openScope | addParam _ _ _ | addLocal _ _ => exact c.instrs_updateCurrent fun _ => rfl
  | closeScope => exact c.instrs_updateCurrent Method.code_closeScope
  | addField _ _ _ | newLabel | markLabel _ => rfl
  | addMethod name returnType _ => simp [instrs, methods_addMethod]
  | closeMethod => rw [instrs, perform, methods_closeMethod, instrs]

def promotions (c : Code) : Nat :=
  c.instrs.countP Instr.promotes

theorem promotions_emitAll (c : Code) (is : List Instr) :
    (c.emitAll is).promotions = c.promotions + is.countP Instr.promotes := by
  rw [promotions, (c.instrs_emitAll is).countP_eq, List.countP_append, promotions, Nat.add_comm]

end Code

/-- The number of warnings that were reported. -/
def Session.warnings (s : Session) : Nat :=
  s.reported.countP (·.severity = .warning)

/-! Accounts -/

namespace Pass

/-- Between `p` and `q` there were as many warnings as instructions that convert, and every binary
instruction has operands that suit it. -/
structure Accounts (p q : Pass) : Prop where
  suits : (∀ i ∈ p.code.instrs, i.Suits) → ∀ i ∈ q.code.instrs, i.Suits
  warnings : q.diagnostics.count .warning + p.code.promotions =
    p.diagnostics.count .warning + q.code.promotions

namespace Accounts

variable {p q r : Pass} {is : List Instr}

theorem trans (h : p.Accounts q) (h' : q.Accounts r) : p.Accounts r where
  suits hp := h'.suits (h.suits hp)
  warnings := by
    have := h.warnings
    have := h'.warnings
    omega

theorem of_eq (hcode : q.code.instrs = p.code.instrs)
    (hdiagnostics : q.diagnostics = p.diagnostics) : p.Accounts q where
  suits hp := by rwa [hcode]
  warnings := by rw [hdiagnostics, Code.promotions, Code.promotions, hcode]

theorem refl (p : Pass) : p.Accounts p :=
  of_eq rfl rfl

/-- Each warning is paid for by an instruction. -/
theorem writes (h : p.Writes is q) (his : ∀ i ∈ is, i.Suits) : p.Accounts q where
  suits hp i hi := by
    rw [h.code, (p.code.instrs_emitAll is).mem_iff] at hi
    rcases List.mem_append.mp hi with hi | hi
    · exact his i hi
    · exact hp i hi
  warnings := by
    rw [h.warnings, h.code, Code.promotions_emitAll]
    omega

theorem request (p : Pass) {r : Code.Request} (h : ∀ i, r ≠ .emit i) : p.Accounts (p.perform r) :=
  of_eq (by rw [code_perform, p.code.instrs_perform h]) (diagnostics_perform p r)

theorem edit (p : Pass) (e : Table.Edit) : p.Accounts (p.edit e) :=
  of_eq (by rw [code_edit]) (diagnostics_edit p e)

theorem openBlock (p : Pass) : p.Accounts p.openBlock :=
  (edit p .openScope).trans (request _ (r := .openScope) (by simp))

theorem closeBlock (p : Pass) : p.Accounts p.closeBlock :=
  (request p (r := .closeScope) (by simp)).trans (edit _ .closeScope)

theorem bindParameters (params : List (String × Ty)) (ordinal : Nat) (p : Pass) :
    p.Accounts (Action.bindParameters params ordinal p) := by
  induction params generalizing ordinal p with
  | nil => exact refl p
  | cons param params ih =>
      refine trans ?_ (ih _ _)
      have hadd : p.Accounts (p.perform (.addParam param.1 ordinal param.2)) := request p (by simp)
      rw [Action.bindParameter]
      split
      · exact hadd.trans (of_eq rfl rfl)
      · exact hadd

theorem openMethod (p : Pass) (depth : Nat) (name : String) (returnType : Ty)
    (params : List (String × Ty)) : p.Accounts (p.openMethod depth name returnType params) := by
  have hopen : p.Accounts (p.perform (.addMethod name returnType (params.map Prod.snd))) :=
    request p (by simp)
  refine (hopen.trans (bindParameters params 1 _)).trans ?_
  rw [Pass.openMethod, Action.completeMethod]
  split
  · exact of_eq rfl rfl
  · exact refl _

end Accounts

theorem stepwise_accounts : Stepwise Accounts where
  trans := Accounts.trans
  writes h hallowed := by
    refine .writes h fun i hi => ?_
    rcases hallowed i hi with hi | rfl
    · exact hi.suits
    · trivial
  perform p r hr := by
    cases r with
    | emit i =>
        rcases hr with rfl | rfl | hbranch
        · exact .writes (.emit p rfl) (by simp [Instr.Suits])
        · exact .writes (.emit p rfl) (by simp [Instr.Suits])
        · cases i <;> cases hbranch <;> exact .writes (.emit p rfl) (by simp [Instr.Suits])
    | newLabel | markLabel _ => exact .request p (by simp)
    | _ => exact hr.elim
  declared l _ _ _ := (Accounts.request _ (r := .addLocal _ _) (by simp)).trans (.edit _ _)
  block h := (Accounts.openBlock _).trans (h.trans (.closeBlock _))

theorem Parameters.accounts {p q : Pass} {params : List (String × Ty)}
    (h : Parameters params p q) : p.Accounts q := by
  induction h with
  | nil h => exact .writes h (by simp)
  | snoc l _ _ _ h' ih => exact (ih.trans (.edit _ _)).trans (.writes h' (by simp))

/-- Whatever becomes of the items of a program, their warnings are paid for. -/
theorem Built.accounts {p q : Pass} (h : Built p q) : p.Accounts q := by
  have hsignature (p : Pass) (name : String) (ty : Ty) (l : Location) :
      p.Accounts (p.beginSignature name ty l) :=
    (Accounts.edit _ _).trans (.edit _ _)
  induction h with
  | ran h => exact stepwise_accounts.ran h
  | trans _ _ ih ih' => exact ih.trans ih'
  | field size l _ _ _ _ =>
      exact (Accounts.request _ (r := .addField _ _ _) (by simp)).trans (.edit _ _)
  | signature l _ h _ => exact ((hsignature _ _ _ l).trans h.accounts).trans (.edit _ _)
  | method l _ h hran =>
      have hbody := (Accounts.openMethod ..).trans (stepwise_accounts.ran hran)
      refine ((hsignature _ _ _ l).trans h.accounts).trans (hbody.trans ?_)
      exact (Accounts.request _ (r := .closeMethod) (by simp)).trans (.edit _ _)

end Pass

/-! Whole compilations -/

/-- The limit of errors keeps every warning. -/
theorem Diagnostics.warnings_kept (limit : Nat) (ds : List Diagnostic) :
    (kept limit ds).countP (·.severity = .warning) = ds.countP (·.severity = .warning) := by
  induction ds generalizing limit with
  | nil => rfl
  | cons d ds ih =>
      by_cases h : d.severity = .error
      · cases limit <;> simp [kept, h, ih]
      · simp [kept, h, ih, List.countP_cons]

namespace Pass

variable (source : String) (config : Config) (host : Host.Registry)

theorem accounts_final : (initial source config host).Accounts (final source config host) :=
  (built_run source config host).1.accounts

theorem suits_final : ∀ i ∈ (final source config host).code.instrs, i.Suits :=
  (accounts_final source config host).suits (by simp [Code.instrs_empty])

theorem warnings_final :
    (final source config host).diagnostics.count .warning =
      (final source config host).code.promotions := by
  have h := (accounts_final source config host).warnings
  simpa [Code.promotions, Code.instrs_empty, Diagnostics.count, Diagnostics.ofSeverity] using h

theorem warnings_diagnostics :
    (final source config host).diagnostics.count .warning =
      (final source config host).warnings := by
  have hitems := (collects_final source config host).items
  rw [Diagnostics.count, Diagnostics.ofSeverity, ← List.countP_eq_length_filter, hitems]
  exact Diagnostics.warnings_kept _ _

end Pass

/-- Whatever the source, every binary instruction has operands that its operator allows, and the
warnings, reported or kept, are as many as the instructions that convert an integer. -/
theorem run_warnings_eq_promotions (source : String) (config : Config) (host : Host.Registry) :
    (∀ i ∈ (run source config host).2.code.instrs, i.Suits) ∧
      (run source config host).2.warnings =
        (run source config host).2.code.instrs.countP Instr.promotes ∧
      (run source config host).2.diagnostics.count .warning =
        (run source config host).2.code.instrs.countP Instr.promotes := by
  have hwarnings : (run source config host).2.warnings =
      (Pass.final source config host).warnings := by
    rw [Session.warnings, Pass.reported_run, Session.warnings]
  have hpaid := Pass.warnings_final source config host
  have hkept := Pass.warnings_diagnostics source config host
  rw [hwarnings, Pass.diagnostics_run, Pass.code_run]
  exact ⟨Pass.suits_final source config host, hkept.symm.trans hpaid, hpaid⟩

end OnePass
