import OnePass.Proofs.Lockstep

/-!
What the settings change. The limit of errors decides which of the reported diagnostics are kept,
and the name of the entry method is written into the code; the pass itself looks at neither. So
two compilations with the same namespaces report the same and write the same code.
-/

namespace OnePass

/-! Reported and kept diagnostics -/

namespace Diagnostics

/-- The number of errors among some diagnostics. -/
def errorsIn (ds : List Diagnostic) : Nat :=
  ds.countP (·.severity = .error)

/-- The diagnostics without the errors behind the first `limit` of them. -/
def kept : (limit : Nat) → List Diagnostic → List Diagnostic
  | _, [] => []
  | limit, d :: ds =>
    if d.severity = .error then
      match limit with
      | 0 => kept 0 ds
      | limit + 1 => d :: kept limit ds
    else d :: kept limit ds

theorem errorsIn_cons (d : Diagnostic) (ds : List Diagnostic) :
    errorsIn (d :: ds) = errorsIn ds + if d.severity = .error then 1 else 0 := by
  simp [errorsIn, List.countP_cons]

theorem errorsIn_concat (ds : List Diagnostic) (d : Diagnostic) :
    errorsIn (ds ++ [d]) = errorsIn ds + if d.severity = .error then 1 else 0 := by
  simp [errorsIn, List.countP_append, List.countP_singleton]

/-- A further diagnostic is kept unless it is an error and the limit is reached. -/
theorem kept_concat (limit : Nat) (ds : List Diagnostic) (d : Diagnostic) :
    kept limit (ds ++ [d]) =
      kept limit ds ++ if d.severity = .error ∧ limit ≤ errorsIn ds then [] else [d] := by
  -- The limit shrinks with every error that is kept, so the count of the rest is compared with it.
  induction ds generalizing limit with
  | nil => cases limit <;> by_cases h : d.severity = .error <;> simp [kept, errorsIn, h]
  | cons first ds ih =>
      by_cases h : first.severity = .error
      · cases limit with
        | zero => simp [kept, h, ih]
        | succ limit => simp [kept, h, ih, errorsIn_cons]
      · simp [kept, h, ih, errorsIn_cons]

variable (ds : Diagnostics) (d : Diagnostic)

theorem errorCount_report :
    (ds.report d).errorCount = ds.errorCount + if d.severity = .error then 1 else 0 := by
  unfold report
  split
  · split <;> rfl
  · rfl

theorem maxErrors_report : (ds.report d).maxErrors = ds.maxErrors := by
  unfold report
  split
  · split <;> rfl
  · rfl

theorem items_report : (ds.report d).items.toList = ds.items.toList ++
    if d.severity = .error ∧ ds.maxErrors ≤ ds.errorCount then [] else [d] := by
  unfold report
  split
  · rename_i herror
    split
    · rename_i hlimit
      simp [Nat.not_le.mpr hlimit]
    · rename_i hlimit
      simp [herror, Nat.le_of_not_lt hlimit]
  · rename_i herror
    simp [herror]

end Diagnostics

namespace Event

/-- The diagnostic that an event reports. -/
def diagnostic? : Event → Option Diagnostic
  | .reported d => some d
  | _ => none

end Event

namespace Session

/-- All diagnostics that were reported, kept or not. -/
def reported (s : Session) : List Diagnostic :=
  s.journal.toList.filterMap Event.diagnostic?

theorem reported_recordAll (s : Session) (es : List Event) :
    (s.recordAll es).reported = s.reported ++ es.filterMap Event.diagnostic? := by
  simp [recordAll_eq, reported]

theorem reported_record (s : Session) (e : Event) :
    (s.record e).reported = s.reported ++ e.diagnostic?.toList := by
  cases h : e.diagnostic? <;> simp [record, reported, h]

theorem diagnostics_requestEvents (c : Code) (r : Code.Request) :
    (requestEvents c r).filterMap Event.diagnostic? = [] := by
  cases r <;> simp only [requestEvents] <;> (try split) <;> rfl

theorem diagnostics_editEvents (t : Table) (e : Table.Edit) :
    (editEvents t e).filterMap Event.diagnostic? = [] := by
  cases e <;> simp only [editEvents] <;> (try split) <;> rfl

theorem diagnostics_resolveEvents (t : Table) (name : String) :
    (resolveEvents t name).filterMap Event.diagnostic? = [] := by
  unfold resolveEvents
  split
  · rfl
  · split <;> rfl

theorem diagnostics_reportEvents (ds : Diagnostics) (d : Diagnostic) :
    (reportEvents ds d).filterMap Event.diagnostic? = [d] := by
  unfold reportEvents
  split <;> rfl

end Session

namespace Pass

variable {p q : Pass}

theorem reported_meet (p : Pass) : p.meet.reported = p.reported := by
  unfold meet
  split
  · rename_i e he
    obtain ⟨l, -, hl⟩ := Option.bind_eq_some_iff.mp he
    have hno : e.diagnostic? = none := by
      unfold Event.ofLexeme? at hl
      split at hl <;> cases hl
      rfl
    simp [Session.reported_record, hno]
  · rfl

@[simp] theorem reported_advance (p : Pass) : p.advance.reported = p.reported :=
  reported_meet _

@[simp] theorem reported_perform (p : Pass) (r : Code.Request) :
    (p.perform r).reported = p.reported := by
  refine (Session.reported_recordAll _ _).trans ?_
  rw [Session.diagnostics_requestEvents, List.append_nil]

@[simp] theorem reported_edit (p : Pass) (e : Table.Edit) : (p.edit e).reported = p.reported := by
  refine (Session.reported_recordAll _ _).trans ?_
  rw [Session.diagnostics_editEvents, List.append_nil]

@[simp] theorem reported_resolved (p : Pass) (name : String) :
    (p.resolved name).reported = p.reported := by
  refine (Session.reported_recordAll _ _).trans ?_
  rw [Session.diagnostics_resolveEvents, List.append_nil]

@[simp] theorem reported_report (p : Pass) (severity : Severity) (l : Location)
    (message : String) :
    (p.report severity l message).reported = p.reported ++ [⟨severity, l, message⟩] := by
  refine (Session.reported_recordAll _ _).trans ?_
  rw [Session.diagnostics_reportEvents]

/-- The diagnostics are those that were reported, as far as the limit allows. -/
structure Collects (limit : Nat) (p : Pass) : Prop where
  maxErrors : p.diagnostics.maxErrors = limit
  errorCount : p.diagnostics.errorCount = Diagnostics.errorsIn p.reported
  items : p.diagnostics.items.toList = Diagnostics.kept limit p.reported

variable {limit : Nat}

theorem Collects.of_eq (h : p.Collects limit) (hdiagnostics : q.diagnostics = p.diagnostics)
    (hreported : q.reported = p.reported) : q.Collects limit where
  maxErrors := by rw [hdiagnostics, h.maxErrors]
  errorCount := by rw [hdiagnostics, hreported, h.errorCount]
  items := by rw [hdiagnostics, hreported, h.items]

theorem Collects.report (h : p.Collects limit) (severity : Severity) (l : Location)
    (message : String) : (p.report severity l message).Collects limit where
  maxErrors := by rw [diagnostics_report, Diagnostics.maxErrors_report, h.maxErrors]
  errorCount := by
    rw [diagnostics_report, Diagnostics.errorCount_report, reported_report,
      Diagnostics.errorsIn_concat, h.errorCount]
  items := by
    rw [diagnostics_report, Diagnostics.items_report, reported_report, Diagnostics.kept_concat,
      h.items, h.maxErrors, h.errorCount]

theorem Step.collects (h : Step p q) (hp : p.Collects limit) : q.Collects limit := by
  cases h with
  | advance => exact hp.of_eq (by simp) (by simp)
  | perform r => exact hp.of_eq (by simp) (by simp)
  | edit e => exact hp.of_eq (by simp) (by simp)
  | report severity l message => exact hp.report severity l message
  | resolve name => exact hp.of_eq (Session.diagnostics_recordAll _ _) (by simp)
  | bind name m => exact hp.of_eq rfl ((Session.reported_record _ _).trans (List.append_nil _))
  | complete depth name symbol => exact hp.of_eq rfl rfl

theorem Steps.collects (h : p.Steps q) (hp : p.Collects limit) : q.Collects limit := by
  induction h with
  | refl => exact hp
  | tail _ hstep ih => exact hstep.collects ih

end Pass

/-! The name of the entry method -/

theorem Method.closeScope_rename (m : Method) (name : String) :
    { m with name }.closeScope = { m.closeScope with name } := by
  unfold closeScope
  dsimp only
  split <;> rfl

namespace Code

/-- What is written does not depend on the name of the entry method. -/
theorem perform_renameEntry (c : Code) (name : String) (r : Request) :
    (c.renameEntry name).perform r = (c.perform r).renameEntry name := by
  have hupdate (f : Method → Method) (hf : ∀ m : Method, f { m with name } = { f m with name }) :
      (c.renameEntry name).updateCurrent f = (c.updateCurrent f).renameEntry name := by
    unfold updateCurrent renameEntry
    cases c.body with
    | none => simp only [hf]
    | some m => rfl
  cases r with
  | closeScope => exact hupdate _ fun m => m.closeScope_rename name
  | emit i => exact hupdate _ fun _ => rfl
  | openScope => exact hupdate _ fun _ => rfl
  | addParam n ordinal ty => exact hupdate _ fun _ => rfl
  | addLocal n ty => exact hupdate _ fun _ => rfl
  | addField n ty size => rfl
  | addMethod n ty params => rfl
  | closeMethod => rfl
  | newLabel => rfl
  | markLabel l =>
      unfold perform markLabel renameEntry current
      cases c.body <;> rfl

theorem methods_renameEntry (c : Code) (name : String) :
    (c.renameEntry name).methods = c.methods.modify 0 fun m => { m with name } := by
  apply Array.ext'
  simp [renameEntry, methods]

end Code

/-! Two compilations with different settings -/

/-- Passes that differ in the limit of errors and in the name of the entry method. -/
structure Pass.Resembles (name : String) (p q : Pass) : Prop where
  table : q.table = p.table
  input : q.input = p.input
  code : q.code = p.code.renameEntry name
  errorCount : q.diagnostics.errorCount = p.diagnostics.errorCount
  reported : q.reported = p.reported

/-- The pass looks at neither setting. -/
def Coupling.settings (name : String) : Coupling where
  toReach := .all
  toPlaces := .exact
  Coupled := Pass.Resembles name
  surplus := 0
  remaining h := congrArg Tokens.remaining h.input
  current h _ := by rw [h.input]
  current_else h _ helse := h.input ▸ helse
  here h _ := by rw [h.input]
  errorCount h := h.errorCount
  code h := ⟨name, h.code⟩
  table h := by
    rw [h.table]
    exact .refl (fun _ => rfl) _ _
  advance h _ :=
    ⟨by simp [h.table], by simp [Pass.input_advance, h.input], by simp [h.code],
      by simp [h.errorCount], by simp [h.reported]⟩
  perform {p q} h r := by
    refine ⟨by simp [h.table], by simp [h.input], ?_, by simp [h.errorCount], by simp [h.reported]⟩
    rw [Pass.code_perform, Pass.code_perform, h.code, Code.perform_renameEntry]
  edit {p q e e'} h he := by
    obtain rfl : e = e' := he.eq
    exact ⟨by simp [h.table], h.input, by simp [h.code], by simp [h.errorCount],
      by simp [h.reported]⟩
  report {p q l l'} h hl severity message := by
    subst hl
    refine ⟨by simp [h.table], h.input, by simp [h.code], ?_, by simp [h.reported]⟩
    simp [Diagnostics.errorCount_report, h.errorCount]
  resolved h name :=
    ⟨by simp [h.table], h.input, by simp [h.code], by simp [h.errorCount], by simp [h.reported]⟩
  bound h name m := by
    refine ⟨h.table, h.input, h.code, h.errorCount, ?_⟩
    rw [Session.reported_record, Session.reported_record, h.reported]
  complete h depth name symbol :=
    ⟨congrArg (Table.overwriteAt · depth name symbol) h.table, h.input, h.code, h.errorCount,
      h.reported⟩

namespace Pass

variable (source : String) (config : Config) (host : Host.Registry)

theorem reported_initial : (initial source config host).reported = [] := by
  simp only [initial, start, Session.reported]
  rw [← Session.reported, reported_meet]
  rfl

theorem collects_final : (final source config host).Collects config.maxErrors := by
  refine Steps.collects Action.accepted_programItems.steps ⟨?_, ?_, ?_⟩ <;>
    simp [reported_initial, Diagnostics.errorsIn, Diagnostics.kept]

theorem reported_run :
    (run source config host).2.reported = (final source config host).reported := by
  rw [run_eq]
  simp [Session.reported_record, Event.diagnostic?]

theorem resembles_final {config' : Config} (h : config'.namespaces = config.namespaces) :
    Resembles config'.entryMethod (final source config host) (final source config' host) := by
  refine (((Coupling.settings config'.entryMethod).follows_programItems
    (k := .whole) (fun _ => id) _).coupled _ ?_ trivial).2
  exact
    { table := by simp [initial, start, Session.start, h]
      input := by simp [initial, start, input_meet]
      code := by simp [Code.renameEntry, Code.empty]
      errorCount := by simp
      reported := by simp [reported_initial] }

end Pass

/-- Two compilations with the same namespaces succeed or fail alike, count the same errors and
write the same code, but for the name of the entry method. They report the same diagnostics, of
which each keeps all but the errors behind its limit. -/
theorem settings_run (source : String) (host : Host.Registry) (config config' : Config)
    (h : config'.namespaces = config.namespaces) :
    let r := run source config host
    let r' := run source config' host
    r'.1 = r.1 ∧
    r'.2.diagnostics.errorCount = r.2.diagnostics.errorCount ∧
    r'.2.code.fields = r.2.code.fields ∧
    r'.2.code.labels = r.2.code.labels ∧
    (r'.2.code.methods = r.2.code.methods.modify 0 fun m =>
      { m with name := config'.entryMethod }) ∧
    ∃ reported : List Diagnostic,
      (r.2.reported = reported ∧ r'.2.reported = reported) ∧
      r.2.diagnostics.items.toList = Diagnostics.kept config.maxErrors reported ∧
      r'.2.diagnostics.items.toList = Diagnostics.kept config'.maxErrors reported := by
  have hfinal := Pass.resembles_final source config host h
  have hitems := (Pass.collects_final source config host).items
  have hitems' := (Pass.collects_final source config' host).items
  simp only [run_fst, Pass.diagnostics_run, Pass.code_run, Pass.reported_run, hfinal.errorCount,
    hfinal.code, hfinal.reported] at hitems' ⊢
  exact ⟨trivial, trivial, rfl, rfl, Code.methods_renameEntry _ _, _, ⟨rfl, rfl⟩, hitems, hitems'⟩

/-- A program with two errors, and a warning between them. -/
def unknownNames : String :=
  "double x; x = y; x = x + 1; int twice(int n) \x7b return n + z; \x7d"

/-- Settings that keep one error and give the entry method another name. -/
def scanty : Config :=
  { maxErrors := 1, entryMethod := "Main" }

theorem settings_run_scanty :
    let r := run unknownNames {} Host.standard
    let r' := run unknownNames scanty Host.standard
    scanty.namespaces = ({} : Config).namespaces ∧
    r.2.diagnostics.items.size = 3 ∧ r'.2.diagnostics.items.size = 2 ∧ r.2.code.methods.size = 2 ∧
    (r'.2.code.methods = r.2.code.methods.modify 0 fun m => { m with name := "Main" }) ∧
    r'.2.diagnostics.errorCount = r.2.diagnostics.errorCount := by
  obtain ⟨-, herrors, -, -, hmethods, -⟩ :=
    settings_run unknownNames Host.standard {} scanty rfl
  exact ⟨rfl, by decide +kernel, by decide +kernel, by decide +kernel, hmethods, herrors⟩

end OnePass
