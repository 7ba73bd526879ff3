import OnePass.Proofs.Progress

/-!
Returns. An expression writes computations only: control goes on behind each of them, and no value
is dropped. A return statement writes those of its expression and one return behind them, on every
way through it, so no fault in it lets control run on into the code of the next statement.
-/

namespace OnePass
namespace Instr

/-- Whether the instruction may belong to an expression. -/
def computes : Instr → Bool
  | branch _ | branchFalse _ | ret | pop => false
  | _ => true

end Instr

theorem Table.Allows.computes {t : Table} {i : Instr} (h : t.Allows i) : i.computes = true := by
  cases i with
  | branch _ | branchFalse _ | ret | pop => exact h.elim
  | _ => rfl

namespace Pass

variable {p q r : Pass} {is : List Instr}

/-- From `p` to `q` the open method has got `is` at the end of its code. All else of the code is as
it was, and so is the table. -/
structure Appends (p : Pass) (is : List Instr) (q : Pass) : Prop where
  code : q.code = p.code.updateCurrent fun m => { m with code := m.code ++ is.toArray }
  table : q.table = p.table

theorem Writes.appends (h : p.Writes is q) : p.Appends is q :=
  ⟨h.code.trans (Code.emitAll_eq _ _), h.table⟩

/-- Computations have been written, and one return behind them. -/
def Returns (p q : Pass) : Prop :=
  ∃ is, p.Writes (is ++ [.ret]) q ∧ ∀ i ∈ is, i.computes

theorem returns_emit (h : (p.perform (.emit .ret)).Writes [] q) : p.Returns q :=
  ⟨[], (Writes.emit p (i := .ret) rfl).trans h, by simp⟩

theorem Returns.behind (h : q.Returns r) (hwrites : p.Writes is q) (his : ∀ i ∈ is, i.computes) :
    p.Returns r := by
  obtain ⟨is', hwrites', his'⟩ := h
  refine ⟨is ++ is', by simpa using hwrites.trans hwrites', ?_⟩
  intro i hi
  rcases List.mem_append.mp hi with hi | hi
  · exact his i hi
  · exact his' i hi

end Pass

namespace Action

variable {α β : Type} {loop : Option LoopLabels} {p : Pass}

/-- In every outcome the action writes computations and one return behind them. -/
def Returns (m : Action α) : Prop :=
  ∀ p : Pass, p.Returns (m p).2

/-- What comes behind the return may fail, but it writes nothing. -/
theorem returns_emit {m : Action α} {Q : α → Prop} (hm : ∀ t, Writing t (fun _ => False) m Q) :
    Returns (do emit .ret; m) := by
  intro p
  rw [bind_ok (emit_apply _ p)]
  exact Pass.returns_emit ((hm _).writes_nothing rfl)

theorem returns_assignCast? {target source : Ty} {m : Action α} (hm : Returns m) :
    Returns (do emit? (Instr.assignCast? target source); m) := by
  intro p
  obtain ⟨q, hrun, hwrites⟩ :=
    emit?_writes (i := Instr.assignCast? target source) (fun _ => promotes_assignCast) p
  rw [bind_ok hrun]
  apply (hm q).behind hwrites
  intro i hi
  have hallowed : p.table.Allows i := allows_assignCast (Option.mem_toList.mp hi)
  exact hallowed.computes

/-- An action that may be abandoned in the midst of its code gets its return there. -/
theorem returns_ifAbandoned {m : Action α} {f : α → Action β} {Q : Table → α → Prop}
    (hm : ∀ t, Writing t t.Allows m (Q t)) (hf : ∀ a, Returns (f a)) :
    Returns (m.ifAbandoned (fun p => p.perform (.emit .ret)) >>= f) := by
  intro p
  obtain ⟨is, hwrites, hallowed⟩ := (hm p.table p rfl).writes
  have hcomputes : ∀ i ∈ is, i.computes := fun i hi => (hallowed i hi).computes
  cases h : m p with
  | mk out q =>
      rw [h] at hwrites
      cases out with
      | error e =>
          have hrun : m.ifAbandoned (fun p => p.perform (.emit .ret)) p =
              (.error e, q.perform (.emit .ret)) := by
            rw [ifAbandoned, h]
          rw [bind_error hrun]
          exact (Pass.returns_emit (.refl _)).behind hwrites hcomputes
      | ok a =>
          have hrun : m.ifAbandoned (fun p => p.perform (.emit .ret)) p = (.ok a, q) := by
            rw [ifAbandoned, h]
          rw [bind_ok hrun]
          exact (hf a q).behind hwrites hcomputes

/-! The statement -/

theorem returns_returnNothing (l : Location) (returnType : Ty) :
    Returns (returnNothing l returnType) := by
  apply returns_emit (Q := fun _ => True)
  intro t
  exact .bind (.requireAt _ _ _) fun _ _ => .skip

theorem returns_returnValue (l : Location) (returnType : Ty) :
    Returns (returnValue l returnType) := by
  apply returns_ifAbandoned fun t => writing_expression
  intro ty
  by_cases hvoid : returnType = .void
  · rw [if_pos hvoid]
    exact returns_emit (Q := fun _ => True) fun t => .failAt _ _
  · rw [if_neg hvoid]
    by_cases hassign : returnType.assignable ty
    · rw [if_pos hassign]
      apply returns_assignCast?
      exact returns_emit fun t => .consume _
    · rw [if_neg hassign]
      exact returns_emit (Q := fun _ => True) fun t => .fail _

theorem returns_returnStatement : Returns returnStatement := by
  intro p
  have hrest : Returns (do
      let returnType ← view fun p => p.code.current.returnType
      if ← atMark .semicolon then returnNothing p.input.here returnType
      else returnValue p.input.here returnType) := by
    intro q
    rw [bind_ok (view_apply _ q), bind_ok (atMark_apply _ q)]
    split
    · exact returns_returnNothing _ _ q
    · exact returns_returnValue _ _ q
  exact (hrest p.advance).behind (.advance p) (by simp)

theorem statement_return (h : p.input.current? = some (.keyword .returnWord)) :
    statement loop p = returnStatement p := by
  rw [unguarded.statement, statementBody, bind_ok (peek_apply p), h]

end Action

/-- A return statement puts computations behind the code of the open method, and one return behind
them, whatever is wrong with it. An expression by itself puts computations there only. Neither
changes anything else of the code, nor the table. -/
theorem return_ends_with_ret :
    (∀ (loop : Option LoopLabels) (p : Pass), p.input.current? = some (.keyword .returnWord) →
      ∃ is, p.Appends (is ++ [.ret]) (Action.statement loop p).2 ∧ ∀ i ∈ is, i.computes) ∧
    ∀ p : Pass, ∃ is, p.Appends is (Action.expression p).2 ∧ ∀ i ∈ is, i.computes := by
  constructor
  · intro loop p hreturn
    rw [Action.statement_return hreturn]
    obtain ⟨is, hwrites, hcomputes⟩ := Action.returns_returnStatement p
    exact ⟨is, hwrites.appends, hcomputes⟩
  · intro p
    obtain ⟨is, hwrites, hallowed⟩ := (Action.writing_expression p rfl).writes
    exact ⟨is, hwrites.appends, fun i hi => (hallowed i hi).computes⟩

/-- An expression that breaks off behind its first operand has written that one. -/
theorem return_ends_with_ret_brokenOff :
    let p := Pass.initial "return 1 + ; x" {} Host.standard
    let q := (Action.statement none p).2
    p.input.current? = some (.keyword .returnWord) ∧
    (∃ is, p.Appends (is ++ [.ret]) q ∧ ∀ i ∈ is, i.computes) ∧
    q.code.current.code = #[.const (.int 1), .ret] ∧ q.diagnostics.errorCount = 1 := by
  intro p q
  have hreturn : p.input.current? = some (.keyword .returnWord) := by decide +kernel
  exact ⟨hreturn, return_ends_with_ret.1 none p hreturn, by decide +kernel, by decide +kernel⟩

end OnePass
