import OnePass.Proofs.Reads

/-!
What an expression does to a pass in every outcome, an abandoned one among them: it writes
instructions for which the table has a meaning, and warns once for each of them that converts an
operand. Besides these, only the tokens still to be read, the diagnostics and the journal change.
Here this is carried from the single steps to all ways of putting actions together.
-/

namespace OnePass

/-! The trail that a journal leaves -/

namespace Table

/-- The local variables that the innermost scope declares. -/
def innermostLocals (t : Table) : List Nat :=
  t.innermost.values.filterMap fun b => match b.symbol.meaning with
    | .localVar index _ => some index
    | _ => none

end Table

/-- The end of the block of a local variable, in front of the instruction at `position`. -/
structure Ending where
  method : Nat
  index : Nat
  position : Nat
deriving DecidableEq, Repr

/-- The methods that a journal tells of, by the numbers of their instructions, and the ends of
their blocks. -/
structure Trail where
  entry : Nat := 0
  closed : List Nat := []
  body : Option Nat := none
  endings : List Ending := []
deriving DecidableEq, Repr

namespace Trail

def current (t : Trail) : Nat :=
  t.body.getD t.entry

def currentIndex (t : Trail) : Nat :=
  if t.body.isSome then t.closed.length + 1 else 0

def emit (t : Trail) : Trail :=
  match t.body with
  | some n => { t with body := some (n + 1) }
  | none => { t with entry := t.entry + 1 }

def closeMethod (t : Trail) : Trail :=
  { t with closed := t.closed ++ t.body.toList, body := none }

def openMethod (t : Trail) : Trail :=
  { t.closeMethod with body := some 0 }

/-- The innermost scope of the table ends. With the outermost one the open method ends. -/
def leave (t : Trail) (table : Table) : Trail :=
  let endings := table.innermostLocals.map fun index => ⟨t.currentIndex, index, t.current⟩
  let t := { t with endings := t.endings ++ endings }
  if table.blocks.length = 1 then t.closeMethod else t

def follow (t : Trail) : Event → Trail
  | .emitted _ _ => t.emit
  | .methodOpened .. => t.openMethod
  | .leavingScope table => t.leave table
  | _ => t

end Trail

namespace Session

def trail (s : Session) : Trail :=
  s.journal.toList.foldl Trail.follow {}

theorem trail_recordAll (s : Session) (es : List Event) :
    (s.recordAll es).trail = es.foldl Trail.follow s.trail := by
  simp [recordAll_eq, trail]

theorem trail_record (s : Session) (e : Event) : (s.record e).trail = s.trail.follow e := by
  simp [record, trail]

theorem trail_report (s : Session) (severity : Severity) (l : Location) (m : String) :
    (s.report severity l m).trail = s.trail := by
  have h : (reportEvents s.diagnostics ⟨severity, l, m⟩).foldl Trail.follow s.trail = s.trail := by
    unfold reportEvents
    split <;> rfl
  exact (trail_recordAll s _).trans h

theorem trail_perform (s : Session) (r : Code.Request) :
    (s.perform r).trail = (requestEvents s.code r).foldl Trail.follow s.trail :=
  trail_recordAll s _

theorem trail_edit (s : Session) (e : Table.Edit) :
    (s.edit e).trail = (editEvents s.table e).foldl Trail.follow s.trail :=
  trail_recordAll s _

end Session

namespace Trail

def emitAll (t : Trail) (is : List Instr) : Trail :=
  is.foldl (fun t _ => t.emit) t

end Trail

namespace Pass

@[simp] theorem trail_meet (p : Pass) : p.meet.trail = p.trail := by
  unfold meet
  split
  · rename_i e he
    have : ∀ t : Trail, t.follow e = t := by
      obtain ⟨l, -, hl⟩ := Option.bind_eq_some_iff.mp he
      unfold Event.ofLexeme? at hl
      split at hl <;> cases hl
      exact fun _ => rfl
    exact (Session.trail_record _ _).trans (this _)
  · rfl

@[simp] theorem trail_advance (p : Pass) : p.advance.trail = p.trail :=
  trail_meet _

@[simp] theorem trail_report (p : Pass) (s : Severity) (l : Location) (m : String) :
    (p.report s l m).trail = p.trail :=
  Session.trail_report ..

end Pass

/-! Warnings of conversions -/

/-- Whether a binary instruction has one integer and one double to operate on. -/
def Instr.promotes : Instr → Bool
  | .additive _ left right | .multiplicative _ left right =>
    left = .int ∧ right = .double ∨ left = .double ∧ right = .int
  | _ => false

theorem OperandRule.converted_iff {rule : OperandRule} {left right : Ty} {result : Result}
    (h : rule.result? left right = some result) :
    result.converted.isSome ↔ left = .int ∧ right = .double ∨ left = .double ∧ right = .int := by
  unfold result? at h
  split at h <;> cases h <;> simp

/-- Every warning is kept. -/
theorem Diagnostics.count_report (ds : Diagnostics) (d : Diagnostic) :
    (ds.report d).count .warning = ds.count .warning + if d.severity = .warning then 1 else 0 := by
  simp only [report, count, ofSeverity]
  split
  · rename_i h
    split <;> simp [h]
  · by_cases h : d.severity = .warning <;> simp [h]

namespace Pass

/-- From `p` to `q` the pass has written `is`, met no fewer errors and warned once for each of these
instructions that converts an operand. -/
structure Writes (p : Pass) (is : List Instr) (q : Pass) : Prop where
  table : q.table = p.table
  code : q.code = p.code.emitAll is
  errors : p.diagnostics.errorCount ≤ q.diagnostics.errorCount
  warnings : q.diagnostics.count .warning = p.diagnostics.count .warning + is.countP Instr.promotes
  trail : q.trail = p.trail.emitAll is

namespace Writes

variable {p q r : Pass} {is is' : List Instr}

theorem refl (p : Pass) : p.Writes [] p :=
  ⟨rfl, rfl, Nat.le_refl _, rfl, rfl⟩

theorem trans (h : p.Writes is q) (h' : q.Writes is' r) : p.Writes (is ++ is') r where
  table := h'.table.trans h.table
  code := by rw [h'.code, h.code, Code.emitAll, Code.emitAll, Code.emitAll, List.foldl_append]
  errors := Nat.le_trans h.errors h'.errors
  warnings := by rw [h'.warnings, h.warnings, List.countP_append, Nat.add_assoc]
  trail := by rw [h'.trail, h.trail, Trail.emitAll, Trail.emitAll, Trail.emitAll,
    List.foldl_append]

theorem advance (p : Pass) : p.Writes [] p.advance :=
  ⟨table_advance p, code_advance p, by simp, by simp, trail_advance p⟩

theorem report (p : Pass) {s : Severity} (hs : s ≠ .warning) (l : Location) (m : String) :
    p.Writes [] (p.report s l m) where
  table := table_report ..
  code := code_report ..
  errors := by
    simp only [diagnostics_report, Diagnostics.report]
    split
    · split <;> simp
    · simp
  warnings := by
    rw [diagnostics_report, Diagnostics.count_report, if_neg hs]
    rfl
  trail := trail_report ..

theorem emit (p : Pass) {i : Instr} (hi : i.promotes = false) :
    p.Writes [i] (p.perform (.emit i)) where
  table := table_perform p _
  code := rfl
  errors := Nat.le_of_eq (by simp)
  warnings := by simp [hi]
  trail := Session.trail_perform _ _

/-- An instruction that converts an operand is written behind a warning of it. -/
theorem emitWarned (p : Pass) {i : Instr} (hi : i.promotes = true) (l : Location) (c : Caution) :
    p.Writes [i] ((p.report .warning l c.message).perform (.emit i)) where
  table := by simp
  code := by simp [Code.perform, Code.emitAll]
  errors := by simp [Diagnostics.report]
  warnings := by simp [Diagnostics.count_report, hi]
  trail := (Session.trail_perform _ _).trans (congrArg Trail.emit (trail_report ..))

theorem resolved (p : Pass) (name : String) : p.Writes [] (p.resolved name) where
  table := Session.table_recordAll _ _
  code := Session.code_recordAll _ _
  errors := Nat.le_of_eq (by rw [Pass.resolved, Session.diagnostics_recordAll])
  warnings := by rw [Pass.resolved, Session.diagnostics_recordAll]; rfl
  trail := by
    refine (Session.trail_recordAll _ _).trans ?_
    unfold Session.resolveEvents
    split
    · rfl
    · split <;> rfl

theorem bound (p : Pass) (name : String) (m : Host.Method) :
    p.Writes [] { p with toSession := p.toSession.record (.bound name m) } :=
  ⟨rfl, rfl, Nat.le_refl _, rfl, Session.trail_record _ _⟩

theorem advanceBy (n : Nat) (p : Pass) : p.Writes [] (p.advanceBy n) := by
  induction n generalizing p with
  | zero => exact refl p
  | succ n ih => exact (advance p).trans (ih p.advance)

theorem resynchronise (p : Pass) : p.Writes [] p.resynchronise :=
  advanceBy _ p

end Writes

/-- A report of an error is counted, whether or not it is kept. -/
theorem errorCount_report (p : Pass) (l : Location) (m : String) :
    0 < (p.report .error l m).diagnostics.errorCount := by
  simp only [diagnostics_report, Diagnostics.report, if_true]
  split <;> exact Nat.succ_pos _

end Pass

/-! Instructions that a table has a meaning for -/

/-- What a name means is a storage with values of a type. -/
inductive Meaning.Holds : Meaning → Storage → Ty → Prop
  | field (ref : FieldRef) (ty : Ty) : Holds (.field ref ty) (.field ref) ty
  | element (ref : FieldRef) {ty element : Ty} (h : ty.element? = some element) :
      Holds (.field ref ty) (.element ref) element
  | localVar (index : Nat) (ty : Ty) : Holds (.localVar index ty) (.localVar index) ty
  | param (index : Nat) (ty : Ty) (ordinal : Nat) :
      Holds (.param (some index) ty ordinal) (.param index) ty

namespace Table

/-- Some name means the storage. -/
def Offers (t : Table) (storage : Storage) (ty : Ty) : Prop :=
  ∃ name symbol, t.resolve name = some symbol ∧ symbol.meaning.Holds storage ty

/-- The instructions of an expression. -/
def Allows (t : Table) : Instr → Prop
  | .read storage | .store storage => ∃ ty, t.Offers storage ty
  | .count storage _ => ∃ ty, t.Offers storage ty ∧ ty.isNumeric
  | .loadBase ref | .loadElement ref => ∃ ty, t.Offers (.element ref) ty
  | .call (.method index) => ∃ name symbol returnType params, t.resolve name = some symbol ∧
      symbol.meaning = .method returnType params (some index)
  | .additive op left right => (op.rule.result? left right).isSome
  | .multiplicative op left right => (op.rule.result? left right).isSome
  | .pop | .branch _ | .branchFalse _ | .ret => False
  | _ => True

end Table

namespace Action

variable {α β : Type} {t : Table} {A : Instr → Prop}

/-- An outcome of an action at `p`: instructions have been written that are as `A` says, a value
is as `Q` says, and an abandoned action has reported an error. -/
structure Outcome (A : Instr → Prop) (Q : α → Prop) (p : Pass)
    (out : Except Abandoned α × Pass) : Prop where
  writes : ∃ is, p.Writes is out.2 ∧ ∀ i ∈ is, A i
  value : ∀ a, out.1 = .ok a → Q a
  abandoned : ∀ e, out.1 = .error e → 0 < out.2.diagnostics.errorCount

/-- The table is still the same where the next action begins. -/
theorem Outcome.bind {Q : α → Prop} {R : β → Prop} {p : Pass} {m : Action α} {f : α → Action β}
    (hm : Outcome A Q p (m p))
    (hf : ∀ a q, Q a → q.table = p.table → Outcome A R q (f a q)) :
    Outcome A R p ((m >>= f) p) := by
  obtain ⟨⟨is, hwrites, hallowed⟩, hvalue, habandoned⟩ := hm
  cases h : m p with
  | mk out q =>
      rw [h] at hwrites hvalue habandoned
      cases out with
      | error e =>
          rw [bind_error h]
          exact ⟨⟨is, hwrites, hallowed⟩, by simp, fun e _ => habandoned _ rfl⟩
      | ok a =>
          rw [bind_ok h]
          obtain ⟨⟨is', hwrites', hallowed'⟩, hvalue', habandoned'⟩ :=
            hf a q (hvalue a rfl) hwrites.table
          refine ⟨⟨is ++ is', hwrites.trans hwrites', ?_⟩, hvalue', habandoned'⟩
          intro i hi
          rcases List.mem_append.mp hi with hi | hi
          · exact hallowed i hi
          · exact hallowed' i hi

theorem Outcome.loose {Q : α → Prop} {p : Pass} {out : Except Abandoned α × Pass}
    (h : Outcome A Q p out) : Outcome A (fun _ => True) p out :=
  ⟨h.writes, fun _ _ => trivial, h.abandoned⟩

/-- All outcomes of an action, where the table is `t`. -/
def Writing (t : Table) (A : Instr → Prop) (m : Action α) (Q : α → Prop := fun _ => True) : Prop :=
  ∀ p, p.table = t → Outcome A Q p (m p)

namespace Writing

variable {m : Action α} {f : α → Action β} {Q : α → Prop} {R : β → Prop}

theorem quiet {g : Pass → Pass} {a : Pass → α} (hg : ∀ p : Pass, p.Writes [] (g p))
    (ha : ∀ p, p.table = t → Q (a p)) : Writing t A (fun p => (.ok (a p), g p)) Q := by
  intro p hp
  refine ⟨⟨[], hg p, by simp⟩, ?_, by simp⟩
  rintro _ ⟨⟩
  exact ha p hp

theorem pure {a : α} (h : Q a) : Writing t A (Pure.pure a : Action α) Q :=
  quiet Pass.Writes.refl fun _ _ => h

theorem update {g : Pass → Pass} (hg : ∀ p : Pass, p.Writes [] (g p)) :
    Writing t A (Action.update g) :=
  quiet hg fun _ _ => trivial

theorem bind (hm : Writing t A m Q) (hf : ∀ a, Q a → Writing t A (f a) R) :
    Writing t A (m >>= f) R :=
  fun p hp => (hm p hp).bind fun a q ha hq => hf a ha q (hq.trans hp)

/-- An action that writes nothing. -/
theorem writes_nothing (hm : Writing t (fun _ => False) m Q) {p : Pass} (hp : p.table = t) :
    p.Writes [] (m p).2 := by
  obtain ⟨is, hwrites, hnone⟩ := (hm p hp).writes
  cases is with
  | nil => exact hwrites
  | cons i _ => exact (hnone i (by simp)).elim

theorem failAt (l : Location) (c : Complaint) : Writing t A (Action.failAt l c : Action α) Q := by
  intro p _
  have hskip := Pass.Writes.resynchronise (p.report .error l c.message)
  have hreport := Pass.Writes.report p (s := .error) nofun l c.message
  refine ⟨⟨[], hreport.trans hskip, by simp⟩, by simp [Action.failAt], ?_⟩
  exact fun _ _ => Nat.lt_of_lt_of_le (Pass.errorCount_report p l c.message) hskip.errors

theorem fail (c : Complaint) : Writing t A (Action.fail c : Action α) Q :=
  fun p hp => failAt p.input.here c p hp

theorem failHere (c : Option Token → Complaint) : Writing t A (Action.failHere c : Action α) Q :=
  fun p hp => fail (c p.input.current?) p hp

theorem view (g : Pass → α) : Writing t A (Action.view g) :=
  quiet Pass.Writes.refl fun _ _ => trivial

theorem peek : Writing t A Action.peek :=
  view _

theorem skip : Writing t A Action.skip :=
  quiet Pass.Writes.advance fun _ _ => trivial

theorem advance : Writing t A Action.advance :=
  quiet Pass.Writes.advance fun _ _ => trivial

theorem accept (token : Token) : Writing t A (Action.accept token) := by
  intro p hp
  rw [accept_apply]
  split
  · exact ⟨⟨[], .advance p, by simp⟩, fun _ _ => trivial, by simp⟩
  · exact ⟨⟨[], .refl p, by simp⟩, fun _ _ => trivial, by simp⟩

theorem consume (mark : Punct) : Writing t A (Action.consume mark) := by
  refine .bind (accept _) fun b _ => ?_
  split
  · exact .pure trivial
  · exact failHere _

theorem identifier (what : Expectation) : Writing t A (Action.identifier what) := by
  refine .bind peek fun token _ => ?_
  split
  · exact .bind advance fun _ _ => .pure trivial
  · exact failHere _

theorem require (condition : Prop) [Decidable condition] (c : Complaint) :
    Writing t A (Action.require condition c) fun _ => condition := by
  unfold Action.require
  split
  · exact .pure ‹_›
  · exact fail c

theorem requireAt (condition : Prop) [Decidable condition] (l : Location) (c : Complaint) :
    Writing t A (Action.requireAt condition l c) fun _ => condition := by
  unfold Action.requireAt
  split
  · exact .pure ‹_›
  · exact failAt l c

theorem emit {i : Instr} (h : A i) (hi : i.promotes = false) : Writing t A (Action.emit i) := by
  intro p _
  refine ⟨⟨[i], .emit p hi, ?_⟩, fun _ _ => trivial, by simp⟩
  rintro _ (_ | ⟨_, ⟨⟩⟩)
  exact h

theorem resolve (name : String) :
    Writing t A (Action.resolve name) fun symbol => t.resolve name = symbol :=
  quiet (fun p => Pass.Writes.resolved p name) fun _ hp => hp ▸ rfl

theorem type : Writing t A Action.type fun ty => ∃ token, typeOf? t token = some ty := by
  have hany : Writing t A Action.type := by
    refine .bind (view _) fun found _ => ?_
    split
    · exact .bind skip fun _ _ => .pure trivial
    · exact failHere _
  rintro p rfl
  obtain ⟨hwrites, -, habandoned⟩ := hany p rfl
  refine ⟨hwrites, fun ty hty => ?_, habandoned⟩
  obtain ⟨token, -, htype, -⟩ := type_eq_ok (Prod.ext hty rfl)
  exact ⟨some token, htype⟩

/-- What the body of a recursive action writes, given what the runs inside of it write. -/
theorem recurse {ι : Type} {body : (ι → Action α) → ι → Action α}
    (h : ∀ nested, (∀ j, Writing t A (nested j)) → ∀ i, Writing t A (body nested i)) (i : ι) :
    Writing t A (Action.recurse body i) := by
  intro p hp
  have := recurse_induction
    (C := fun _ p out => p.table = t → Outcome A (fun _ => True) p out)
    (fun _ p hp => failHere .noProgress p hp)
    (fun nested ih i p hp => h nested (fun j q hq => ih j q hq) i p hp) i p
  exact this hp

end Writing

theorem emit?_writes {i : Option Instr} (h : ∀ j ∈ i, j.promotes = false) (p : Pass) :
    ∃ q, Action.emit? i p = (.ok (), q) ∧ p.Writes i.toList q := by
  cases i with
  | none => exact ⟨p, rfl, .refl p⟩
  | some i => exact ⟨_, rfl, .emit p (h i rfl)⟩

/-! Operands -/

/-- A check of operands is abandoned, or warns if one of them is converted. -/
theorem operate_cases (rule : OperandRule) (l : Location) (left right : Ty) (p : Pass) :
    (∃ c : Complaint, operate rule l left right p = (fail c : Action Ty) p) ∨
      ∃ result, rule.result? left right = some result ∧
        operate rule l left right p = (.ok result.ty, match result.converted with
          | none => p
          | some side => p.report .warning l (Caution.converted side).message) := by
  unfold operate require
  split
  · cases hresult : rule.result? left right with
    | none => exact .inl ⟨_, rfl⟩
    | some result =>
        obtain ⟨ty, converted⟩ := result
        cases converted <;> exact .inr ⟨_, rfl, rfl⟩
  · exact .inl ⟨_, rfl⟩

/-- A binary operator and its instruction. -/
theorem Writing.operated {rule : OperandRule} {left right : Ty} {i : Instr} {f : Ty → Action β}
    {R : β → Prop} (h : (rule.result? left right).isSome → A i)
    (hi : i.promotes = decide (left = .int ∧ right = .double ∨ left = .double ∧ right = .int))
    (l : Location) (hf : ∀ ty, Writing t A (f ty) R) :
    Writing t A (do
      let ty ← operate rule l left right
      Action.emit i
      f ty) R := by
  intro p hp
  obtain ⟨c, hfail⟩ | ⟨⟨ty, converted⟩, hresult, hok⟩ := operate_cases rule l left right p
  · rw [bind_error hfail]
    exact Writing.fail c p hp
  · have hconverted := OperandRule.converted_iff hresult
    have hwrites : p.Writes [i] ((operate rule l left right p).2.perform (.emit i)) := by
      rw [hok]
      cases converted with
      | none => exact .emit p (by simpa [hi] using hconverted)
      | some side => exact .emitWarned p (by simpa [hi] using hconverted) l _
    rw [hok] at hwrites
    rw [bind_ok hok, bind_ok (emit_apply i _)]
    obtain ⟨⟨is, hwrites', hallowed⟩, hvalue, habandoned⟩ := hf ty _ (hwrites.table.trans hp)
    refine ⟨⟨i :: is, hwrites.trans hwrites', ?_⟩, hvalue, habandoned⟩
    intro j hj
    rcases List.mem_cons.mp hj with rfl | hj
    · exact h (by simp [hresult])
    · exact hallowed j hj

theorem allows_assignCast {target source : Ty} {i : Instr}
    (h : i ∈ Instr.assignCast? target source) : t.Allows i := by
  unfold Instr.assignCast? at h
  split at h <;> cases h
  trivial

theorem promotes_assignCast {target source : Ty} {i : Instr}
    (h : i ∈ Instr.assignCast? target source) : i.promotes = false := by
  unfold Instr.assignCast? at h
  split at h <;> cases h
  rfl

end Action
end OnePass
