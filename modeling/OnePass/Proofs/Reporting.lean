import OnePass.Proofs.Recovery

/-!
What is reported. A production that ends with its statement reports one error if it is abandoned and
else none. One with other statements inside goes on behind their faults, so it may report more, but
it is not abandoned without an error. All errors are reported in the order of the text, since none
is reported at a token in front of an earlier one.
-/

namespace OnePass

/-- The errors that were reported, kept or not. -/
def Session.errors (s : Session) : List Diagnostic :=
  Diagnostics.errorsOf s.reported

namespace Action

open Pass (Reports)
open Diagnostics (errorsIn errorsOf)

variable {α β ι : Type} {k : Extent} {start : Tokens} {p : Pass} {m : Action α}
  {f : α → Action β}

/-- What an action has reported that began at `p`. -/
def Told (start : Tokens) (p : Pass) (out : Except Abandoned α × Pass) : Prop :=
  ∃ ds, Reports start p ds out.2 ∧ ∀ e, out.1 = .error e → 0 < errorsIn ds

/-- An action reports in the order of the text, and an error if it is abandoned. -/
def Orderly (m : Action α) : Prop :=
  ∀ p, Told p.input p (m p)

theorem Ended.told {out : Except Abandoned α × Pass} (h : Ended k start p out) :
    Told start p out := by
  cases h with
  | value hreports _ _ => exact ⟨_, hreports, by simp⟩
  | abandoned hreports hone _ => exact ⟨_, hreports, fun _ _ => hone ▸ Nat.one_pos⟩

/-! Putting actions together -/

/-- What follows a first part reports behind it. -/
theorem Told.bind (hm : Told start p (m p))
    (hf : ∀ a q, m p = (.ok a, q) → Told q.input q (f a q)) : Told start p ((m >>= f) p) := by
  obtain ⟨ds, hreports, herror⟩ := hm
  cases h : m p with
  | mk out q =>
      rw [h] at hreports herror
      cases out with
      | error e =>
          rw [bind_error h]
          exact ⟨ds, hreports, fun _ _ => herror e rfl⟩
      | ok a =>
          rw [bind_ok h]
          obtain ⟨es, hreports', herror'⟩ := hf a q h
          refine ⟨ds ++ es, hreports.trans hreports', fun e he => ?_⟩
          rw [Diagnostics.errorsIn_append]
          exact Nat.add_pos_right _ (herror' e he)

/-- Behind a first part without an error, an earlier token may still be reported at. -/
theorem Ended.told_bind (hm : Ended .inside start p (m p))
    (hf : ∀ a q, m p = (.ok a, q) → start.Reaches q.input → Told start q (f a q)) :
    Told start p ((m >>= f) p) := by
  cases h : m p with
  | mk out q =>
      rw [h] at hm
      cases hm with
      | abandoned hreports hone hinput =>
          rw [bind_error h]
          exact (Ended.abandoned (k := .inside) hreports hone hinput).told
      | value hreports hclean _ =>
          rw [bind_ok h]
          obtain ⟨es, hreports', herror⟩ := hf _ q h hreports.reaches
          refine ⟨_, hreports.followed hclean hreports', fun e he => ?_⟩
          rw [Diagnostics.errorsIn_append]
          exact Nat.add_pos_right _ (herror e he)

theorem Faults.orderly (h : ∀ start, Faults k start m) : Orderly m :=
  fun p => (h p.input p (.refl _)).told

namespace Orderly

theorem bind (hm : Orderly m) (hf : ∀ a, Orderly (f a)) : Orderly (m >>= f) :=
  fun p => (hm p).bind fun a q _ => hf a q

theorem silent (h : Silent m) : Orderly m :=
  Faults.orderly fun _ => .silent h

theorem told_advance (p : Pass) (a : α) : Told p.input p (.ok a, p.advance) :=
  ⟨[], .advance (.refl _), by simp⟩

theorem skip : Orderly Action.skip :=
  fun p => told_advance p ()

theorem accept (t : Token) : Orderly (Action.accept t) := by
  intro p
  rw [accept_apply]
  split
  · exact told_advance p true
  · exact silent (.pure false) p

theorem fail (c : Complaint) : Orderly (Action.fail c : Action α) :=
  Faults.orderly (k := .inside) fun _ => .fail c

theorem failHere (c : Option Token → Complaint) : Orderly (Action.failHere c : Action α) :=
  fun p => fail (c p.input.current?) p

theorem consume (mark : Punct) : Orderly (Action.consume mark) := by
  refine (accept _).bind fun found => ?_
  split
  · exact silent (.pure ())
  · exact failHere _

/-- What was reported stays so, and nothing is abandoned. -/
theorem attempt (hm : Orderly m) : Orderly (Action.attempt m) := by
  intro p
  obtain ⟨ds, hreports, -⟩ := hm p
  exact ⟨ds, hreports, by simp⟩

theorem andFinally (hm : Orderly m) {g : Pass → Pass} (hg : ∀ p : Pass, p.Silent (g p)) :
    Orderly (m.andFinally g) := by
  intro p
  obtain ⟨ds, hreports, herror⟩ := hm p
  have hfinally := hreports.trans (.silent (hg (m p).2) (.refl _))
  rw [List.append_nil] at hfinally
  exact ⟨ds, hfinally, herror⟩

theorem recurse {body : (ι → Action α) → ι → Action α}
    (h : ∀ nested, (∀ j, Orderly (nested j)) → ∀ i, Orderly (body nested i)) (i : ι) :
    Orderly (Action.recurse body i) := by
  intro p
  refine recurse_induction (C := fun _ p out => Told p.input p out) ?_ ?_ i p
  · exact fun _ => failHere _
  · exact fun nested ih i p => h nested ih i p

end Orderly

/-! Statements -/

section Statements

variable {nested : Option LoopLabels → Action Unit} {loop : Option LoopLabels}

theorem orderly_blockItems (hn : ∀ loop, Orderly (nested loop)) :
    Orderly (blockItems nested loop) := by
  refine .recurse (fun more hmore _ => (Orderly.silent (.view _)).bind fun t => ?_) ()
  split
  · exact .consume _
  · exact .consume _
  · refine (Orderly.silent (.view _)).bind fun isType => ?_
    have hvariable := Faults.orderly fun _ => faults_variableDeclaration
    cases isType with
    | true => exact hvariable.attempt.bind fun _ => hmore ()
    | false => exact (hn loop).attempt.bind fun _ => hmore ()

theorem orderly_block (hn : ∀ loop, Orderly (nested loop)) : Orderly (block nested loop) := by
  refine (Orderly.consume _).bind fun _ => (Orderly.silent (.edit _)).bind fun _ => ?_
  refine (Orderly.silent (.perform _)).bind fun _ => ?_
  exact (orderly_blockItems hn).andFinally fun p => (Pass.Silent.perform p _).trans (.edit _ _)

theorem orderly_ifStatement (hn : ∀ loop, Orderly (nested loop)) :
    Orderly (ifStatement nested loop) := by
  have hbranch := (hn loop).attempt
  have hcondition := Faults.orderly fun _ => faults_condition
  refine Orderly.skip.bind fun _ => hcondition.bind fun _ => ?_
  refine (Orderly.silent .newLabel).bind fun otherwise => ?_
  refine (Orderly.silent (.emit _)).bind fun _ => hbranch.bind fun _ => ?_
  refine (Orderly.accept _).bind fun hasElse => ?_
  cases hasElse with
  | true =>
      refine (Orderly.silent .newLabel).bind fun done => (Orderly.silent (.emit _)).bind fun _ => ?_
      refine (Orderly.silent (.perform _)).bind fun _ => ?_
      exact hbranch.bind fun _ => .silent (.perform _)
  | false => exact .silent (.perform _)

theorem orderly_whileStatement (hn : ∀ loop, Orderly (nested loop)) :
    Orderly (whileStatement nested) := by
  refine Orderly.skip.bind fun _ => (Orderly.silent .newLabel).bind fun again => ?_
  refine (Orderly.silent .newLabel).bind fun exit => ?_
  refine (Orderly.silent (.perform _)).bind fun _ => ?_
  have hcondition := Faults.orderly fun _ =>
    faults_condition.ifAbandoned fun p => .perform p (.markLabel exit)
  refine hcondition.bind fun _ => (Orderly.silent (.emit _)).bind fun _ => ?_
  refine (hn _).attempt.bind fun _ => (Orderly.silent (.emit _)).bind fun _ => ?_
  exact .silent (.perform _)

theorem orderly_loopStatement (hn : ∀ loop, Orderly (nested loop)) :
    Orderly (loopStatement nested) := by
  refine Orderly.skip.bind fun _ => (Orderly.silent .newLabel).bind fun again => ?_
  refine (Orderly.silent .newLabel).bind fun exit => ?_
  refine (Orderly.silent (.perform _)).bind fun _ => (hn _).attempt.bind fun _ => ?_
  refine (Orderly.silent (.emit _)).bind fun _ => (Orderly.silent (.perform _)).bind fun _ => ?_
  refine (Orderly.accept _).bind fun ended => ?_
  cases ended with
  | true => exact .silent (.pure ())
  | false => exact .failHere _

/-- A first token in front of what is told from it on. -/
theorem Told.read_first {out : Except Abandoned α × Pass} (h : Told p.input p.advance out) :
    Told p.input p out := by
  obtain ⟨ds, hreports, herror⟩ := h
  exact ⟨[] ++ ds, (Reports.advance (.refl _)).followed rfl hreports, herror⟩

theorem orderly_statementBody (hn : ∀ loop, Orderly (nested loop)) (loop : Option LoopLabels) :
    Orderly (statementBody nested loop) := by
  have hjump (word : Keyword) (target : Option Label) : Orderly (jump word target) :=
    fun p => (ended_jump word target p).told.read_first
  refine (Orderly.silent (.view _)).bind fun t => ?_
  split
  · exact orderly_block hn
  · exact .skip
  · split
    · exact orderly_ifStatement hn
    · exact orderly_whileStatement hn
    · exact orderly_loopStatement hn
    · exact fun p => (ended_returnStatement p).told.read_first
    · exact hjump _ _
    · exact hjump _ _
    · exact .fail _
    · exact .fail _
  · exact Faults.orderly fun _ => faults_expressionStatement

theorem orderly_statement (loop : Option LoopLabels) : Orderly (statement loop) :=
  .recurse (fun _ hn => orderly_statementBody hn) loop

end Statements

/-! Programs -/

theorem faults_parameters : Faults .inside start parameters := by
  refine (Faults.silent (.view _)).bind fun closes => ?_
  split
  · exact .pure _
  · refine .recurse (fun more hmore start params => ?_) start []
    refine Faults.type.bind fun ty => .identifier_bind fun name s => ?_
    refine (Faults.requireAt _ _).bind fun _ => (Faults.requireFresh _ _).bind fun _ => ?_
    refine (Faults.silent (.edit _)).bind fun _ => ?_
    refine (Faults.acceptMark (by decide)).bind fun comma => ?_
    split
    · exact hmore s _
    · exact .pure _

theorem silent_bindParameters (params : List (String × Ty)) (ordinal : Nat) (p : Pass) :
    p.Silent (bindParameters params ordinal p) := by
  induction params generalizing ordinal p with
  | nil => exact .refl p
  | cons param params ih =>
      refine Pass.Silent.trans ?_ (ih _ _)
      unfold bindParameter
      dsimp only
      split
      · exact (Pass.Silent.perform p _).trans ⟨rfl, rfl, rfl⟩
      · exact .perform p _

theorem silent_completeMethod (depth : Nat) (name : String) (types : List Ty) (index : Nat)
    (p : Pass) : p.Silent (completeMethod depth name types index p) := by
  unfold completeMethod
  split
  · exact ⟨rfl, rfl, rfl⟩
  · exact .refl p

theorem orderly_methodBody : Orderly methodBody := by
  refine (Orderly.accept _).bind fun brace => ?_
  split
  · exact orderly_blockItems orderly_statement
  · exact .failHere _

theorem orderly_methodRest {depth : Nat} {name : String} {ty : Ty} :
    Orderly (methodRest depth name ty) := by
  refine (Faults.orderly fun _ => faults_parameters).bind fun params => ?_
  refine (Orderly.consume _).bind fun _ => (Orderly.silent (.perform _)).bind fun _ => ?_
  refine (Orderly.silent (.view _)).bind fun index => ?_
  refine (Orderly.silent (.update (silent_bindParameters params 1))).bind fun _ => ?_
  refine (Orderly.silent (.update (silent_completeMethod depth name _ index))).bind fun _ => ?_
  exact orderly_methodBody.andFinally fun p => .perform p _

/-- A method may be refused at its name, before anything inside of it is read. -/
theorem told_methodDeclaration {ty : Ty} {name : String} (hp : start.Reaches p.input) :
    Told start p (methodDeclaration ty name start.here p) := by
  have hrest : Orderly (do
      skip
      let depth ← view fun p => p.table.depth
      edit (.declare ⟨name, .method ty [] none⟩ start.here)
      edit .openScope
      (methodRest depth name ty).andFinally (·.edit .closeScope)) := by
    refine Orderly.skip.bind fun _ => (Orderly.silent (.view _)).bind fun depth => ?_
    refine (Orderly.silent (.edit _)).bind fun _ => (Orderly.silent (.edit _)).bind fun _ => ?_
    exact orderly_methodRest.andFinally fun p => .edit p _
  exact (Faults.requireFresh _ _ p hp).told.bind fun _ q _ => hrest q

theorem orderly_declaration : Orderly declaration := by
  intro p
  refine (Faults.type p (.refl _)).told.bind fun ty q _ => ?_
  refine (Faults.identifier _ q (.refl _)).told_bind fun (name, l) r hout hr => ?_
  obtain ⟨-, rfl, rfl⟩ := identifier_eq_ok.mp hout
  dsimp only
  rw [bind_ok (atMark_apply _ _)]
  split
  · exact told_methodDeclaration hr
  · exact (faults_fieldDeclaration _ hr).told

theorem orderly_programItem : Orderly programItem := by
  refine (Orderly.silent (.view _)).bind fun token => (Orderly.silent (.view _)).bind fun _ => ?_
  split
  · exact orderly_declaration
  · split
    · exact orderly_statement none
    · refine (Orderly.silent (.view _)).bind fun hasErrors => ?_
      split
      · refine (Orderly.silent (.view _)).bind fun l => Orderly.bind (fun p => ?_) fun _ => .skip
        exact ⟨_, Pass.reports_note (.refl _) l _, by simp [note, update]⟩
      · exact .fail _

theorem orderly_programItems : Orderly programItems := by
  refine .recurse (fun more hmore _ => (Orderly.silent (.view _)).bind fun t => ?_) ()
  split
  · exact .silent (.pure ())
  · exact orderly_programItem.attempt.bind fun _ => hmore ()

/-! Errors of an action -/

/-- At `p` the action reports these errors, and each of them is counted. -/
structure ReportsErrors (m : Action α) (p : Pass) (errors : List Diagnostic) : Prop where
  reported : (m p).2.errors = p.errors ++ errors
  counted : (m p).2.diagnostics.errorCount = p.diagnostics.errorCount + errors.length

/-- The action reports one error exactly if it is abandoned, and none exactly if it gives a
value. -/
def OneError (m : Action α) (p : Pass) : Prop :=
  ∃ errors, m.ReportsErrors p errors ∧ ((∃ e, (m p).1 = .error e) ↔ errors.length = 1) ∧
    ((∃ a, (m p).1 = .ok a) ↔ errors = [])

/-- The action is not abandoned without an error. -/
def SomeError (m : Action α) (p : Pass) : Prop :=
  ∃ errors, m.ReportsErrors p errors ∧ ((∃ e, (m p).1 = .error e) → errors ≠ [])

theorem reportsErrors {ds : List Diagnostic} {q : Pass} (h : Reports start q ds (m p).2)
    (hreported : q.reported = p.reported)
    (herrors : q.diagnostics.errorCount = p.diagnostics.errorCount) :
    m.ReportsErrors p (errorsOf ds) where
  reported := by
    rw [Session.errors, h.reported, hreported, Diagnostics.errorsOf_append, Session.errors]
  counted := by rw [h.errorCount, herrors, Diagnostics.length_errorsOf]

theorem Ended.oneError {q : Pass} (h : Ended k start q (m p)) (hreported : q.reported = p.reported)
    (herrors : q.diagnostics.errorCount = p.diagnostics.errorCount) : m.OneError p := by
  cases hout : m p with
  | mk out r =>
      rw [hout] at h
      cases h with
      | value hreports hclean _ =>
          have hlength := (Diagnostics.length_errorsOf _).trans hclean
          have hnone := List.length_eq_zero_iff.mp hlength
          refine ⟨_, reportsErrors (by rwa [hout]) hreported herrors, ?_, ?_⟩
          · simp [hout, hlength]
          · simp [hout, hnone]
      | abandoned hreports hone _ =>
          have hlength := (Diagnostics.length_errorsOf _).trans hone
          refine ⟨_, reportsErrors (by rwa [hout]) hreported herrors, ?_, ?_⟩
          · exact ⟨fun _ => hlength, fun _ => ⟨_, by rw [hout]⟩⟩
          · have hsome := List.ne_nil_of_length_pos (hlength ▸ Nat.one_pos)
            simp [hout, hsome]

theorem Faults.oneError (h : ∀ start, Faults k start m) (p : Pass) : m.OneError p :=
  (h p.input p (.refl _)).oneError rfl rfl

theorem Orderly.someError (h : Orderly m) (p : Pass) : m.SomeError p := by
  obtain ⟨ds, hreports, herror⟩ := h p
  refine ⟨_, reportsErrors hreports rfl rfl, ?_⟩
  rintro ⟨e, he⟩
  exact List.ne_nil_of_length_pos ((Diagnostics.length_errorsOf ds).symm ▸ herror e he)

/-- One fault, one error. The productions that end with their statement report one error if they
are abandoned and none if they give a value. The others are not abandoned without an error. -/
theorem one_error_per_fault (p : Pass) :
    (expression.OneError p ∧ condition.OneError p ∧ variableDeclaration.OneError p ∧
      (p.methodHead? = none → declaration.OneError p) ∧ parameters.OneError p ∧
      returnStatement.OneError p ∧ (∀ word target, (jump word target).OneError p) ∧
      expressionStatement.OneError p ∧
      (p.atSimpleStatement → ∀ loop, (statement loop).OneError p)) ∧
    (∀ loop, (block statement loop).SomeError p ∧ (blockItems statement loop).SomeError p ∧
      (ifStatement statement loop).SomeError p ∧ (whileStatement statement).SomeError p ∧
      (loopStatement statement).SomeError p ∧ (statement loop).SomeError p) ∧
    methodBody.SomeError p ∧ declaration.SomeError p ∧ programItem.SomeError p := by
  have hnested := orderly_statement
  refine ⟨⟨?_, ?_, ?_, ?_, ?_, ?_, ?_, ?_, ?_⟩, fun loop => ⟨?_, ?_, ?_, ?_, ?_, ?_⟩, ?_, ?_, ?_⟩
  · exact Faults.oneError (fun _ => faults_expression) p
  · exact Faults.oneError (fun _ => faults_condition) p
  · exact Faults.oneError (fun _ => faults_variableDeclaration) p
  · exact fun h => (ended_declaration h).oneError rfl rfl
  · exact Faults.oneError (fun _ => faults_parameters) p
  · exact (ended_returnStatement p).oneError (by simp) (by simp)
  · exact fun word target => (ended_jump word target p).oneError (by simp) (by simp)
  · exact Faults.oneError (fun _ => faults_expressionStatement) p
  · exact fun h loop => (ended_statement h loop).oneError rfl rfl
  · exact (orderly_block hnested).someError p
  · exact (orderly_blockItems hnested).someError p
  · exact (orderly_ifStatement hnested).someError p
  · exact (orderly_whileStatement hnested).someError p
  · exact (orderly_loopStatement hnested).someError p
  · exact (hnested loop).someError p
  · exact orderly_methodBody.someError p
  · exact orderly_declaration.someError p
  · exact orderly_programItem.someError p

/-- A void field whose size is not closed has two faults. The one that is met first is reported. -/
theorem one_error_per_fault_field :
    let p := Pass.initial "void f[3 ; y" {} Host.standard
    p.methodHead? = none ∧ declaration.OneError p ∧ p.errors = [] ∧
      (declaration p).2.errors.length = 1 := by
  intro p
  have hfield : p.methodHead? = none := by decide +kernel
  exact ⟨hfield, (one_error_per_fault p).1.2.2.2.1 hfield, by decide +kernel, by decide +kernel⟩

end Action
end OnePass
