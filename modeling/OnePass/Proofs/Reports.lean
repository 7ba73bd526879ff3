import OnePass.Proofs.Settings

/-!
What the pass reads and reports. Tokens are read in the order of the text, and a report names the
location of a token. Between two passes, the errors that were reported stand in the order of the
text too, and they are all counted.
-/

namespace OnePass
namespace Tokens

variable {r s u : Tokens}

/-- What stands behind the first semicolon, or the end of the text if there is none. -/
def behindSemicolon (s : Tokens) : Tokens :=
  { s with lexemes := (s.lexemes.dropWhile (·.token ≠ .punct .semicolon)).tail }

/-- The locations of the tokens and of the end of the text. -/
def places (s : Tokens) : List Location :=
  s.lexemes.map Lexeme.location ++ [s.finish]

/-- Some tokens are read from `s` to `u`. -/
structure Reaches (s u : Tokens) : Prop where
  lexemes : u.lexemes <:+ s.lexemes
  finish : u.finish = s.finish

/-- Some tokens are read from `s` to `u`, and no semicolon is among them. -/
structure Within (s u : Tokens) : Prop where
  lexemes : ∃ read, s.lexemes = read ++ u.lexemes ∧ ∀ x ∈ read, x.token ≠ .punct .semicolon
  finish : u.finish = s.finish

/-- The way from `s` to `u` leads over these places, one behind the other. -/
inductive Passes : Tokens → List Location → Tokens → Prop
  | straight {s u : Tokens} : s.Reaches u → Passes s [] u
  | via {s r u : Tokens} {ls : List Location} :
      s.Reaches r → Passes r ls u → Passes s (r.here :: ls) u

/-! Reading on -/

theorem Reaches.refl (s : Tokens) : s.Reaches s :=
  ⟨List.suffix_refl _, rfl⟩

theorem Reaches.trans (h : s.Reaches r) (h' : r.Reaches u) : s.Reaches u :=
  ⟨h'.lexemes.trans h.lexemes, h'.finish.trans h.finish⟩

theorem reaches_tail (s : Tokens) : s.Reaches s.tail :=
  ⟨List.tail_suffix _, rfl⟩

theorem reaches_behindSemicolon (s : Tokens) : s.Reaches s.behindSemicolon :=
  ⟨(List.tail_suffix _).trans (List.dropWhile_suffix _), rfl⟩

theorem Within.refl (s : Tokens) : s.Within s :=
  ⟨⟨[], rfl, by simp⟩, rfl⟩

theorem Within.trans (h : s.Within r) (h' : r.Within u) : s.Within u := by
  obtain ⟨⟨read, hread, hmarks⟩, hfinish⟩ := h
  obtain ⟨⟨read', hread', hmarks'⟩, hfinish'⟩ := h'
  refine ⟨⟨read ++ read', by rw [hread, hread', List.append_assoc], ?_⟩, hfinish'.trans hfinish⟩
  exact fun x hx => (List.mem_append.mp hx).elim (hmarks x) (hmarks' x)

theorem Within.reaches (h : s.Within u) : s.Reaches u := by
  obtain ⟨read, hread, -⟩ := h.lexemes
  exact ⟨⟨read, hread.symm⟩, h.finish⟩

theorem within_tail (h : s.current? ≠ some (.punct .semicolon)) : s.Within s.tail := by
  obtain ⟨lexemes, finish⟩ := s
  cases lexemes with
  | nil => exact .refl _
  | cons x lexemes => exact ⟨⟨[x], rfl, by simpa [current?] using h⟩, rfl⟩

theorem Within.behindSemicolon (h : s.Within u) : u.behindSemicolon = s.behindSemicolon := by
  obtain ⟨⟨read, hread, hmarks⟩, hfinish⟩ := h
  have hdrop : s.lexemes.dropWhile (·.token ≠ .punct .semicolon) =
      u.lexemes.dropWhile (·.token ≠ .punct .semicolon) := by
    rw [hread]
    exact List.dropWhile_append_of_pos fun x hx => decide_eq_true (hmarks x hx)
  simp only [Tokens.behindSemicolon, hdrop, hfinish]

theorem tail_eq_behindSemicolon (h : s.current? = some (.punct .semicolon)) :
    s.tail = s.behindSemicolon := by
  obtain ⟨lexemes, finish⟩ := s
  cases lexemes with
  | nil => simp [current?] at h
  | cons x lexemes =>
      have hx : x.token = .punct .semicolon := by simpa [current?] using h
      simp [tail, behindSemicolon, hx]

/-! Places on the way -/

theorem here_mem_places (s : Tokens) : s.here ∈ s.places := by
  unfold here places
  cases s.lexemes <;> simp

theorem Reaches.places (h : s.Reaches u) : u.places <:+ s.places := by
  obtain ⟨read, hread⟩ := h.lexemes
  exact ⟨read.map Lexeme.location, by simp [Tokens.places, ← hread, h.finish]⟩

theorem Passes.reaches {ls : List Location} (h : s.Passes ls u) : s.Reaches u := by
  induction h with
  | straight h => exact h
  | via h _ ih => exact h.trans ih

theorem Reaches.passes {ls : List Location} (h : s.Reaches r) (h' : r.Passes ls u) :
    s.Passes ls u := by
  cases h' with
  | straight h' => exact .straight (h.trans h')
  | via h' hrest => exact .via (h.trans h') hrest

theorem Passes.append {ls ls' : List Location} (h : s.Passes ls r) (h' : r.Passes ls' u) :
    s.Passes (ls ++ ls') u := by
  induction h with
  | straight h => exact h.passes h'
  | via h _ ih => exact .via h (ih h')

end Tokens

/-! Reports -/

namespace Diagnostics

/-- The errors among some diagnostics. -/
def errorsOf (ds : List Diagnostic) : List Diagnostic :=
  ds.filter (·.severity = .error)

def errorPlaces (ds : List Diagnostic) : List Location :=
  (errorsOf ds).map Diagnostic.location

theorem length_errorsOf (ds : List Diagnostic) : (errorsOf ds).length = errorsIn ds :=
  List.countP_eq_length_filter.symm

theorem errorsOf_append (ds es : List Diagnostic) :
    errorsOf (ds ++ es) = errorsOf ds ++ errorsOf es :=
  List.filter_append ..

theorem errorPlaces_append (ds es : List Diagnostic) :
    errorPlaces (ds ++ es) = errorPlaces ds ++ errorPlaces es := by
  rw [errorPlaces, errorsOf_append, List.map_append]
  rfl

theorem errorsIn_append (ds es : List Diagnostic) :
    errorsIn (ds ++ es) = errorsIn ds + errorsIn es :=
  List.countP_append

end Diagnostics

namespace Pass

open Diagnostics (errorsIn errorPlaces)

variable {start : Tokens} {p q r : Pass} {ds es : List Diagnostic}

/-- From `p` to `q` the pass has reported `ds`: errors at tokens behind `start` and in the order of
the text, and warnings at any tokens behind `start`. -/
structure Reports (start : Tokens) (p : Pass) (ds : List Diagnostic) (q : Pass) : Prop where
  reported : q.reported = p.reported ++ ds
  errorCount : q.diagnostics.errorCount = p.diagnostics.errorCount + errorsIn ds
  warned : ∀ d ∈ ds, d.severity = .warning → d.location ∈ start.places
  passes : start.Passes (errorPlaces ds) q.input

/-- Nothing is read and nothing is reported. -/
structure Silent (p q : Pass) : Prop where
  input : q.input = p.input
  reported : q.reported = p.reported
  errorCount : q.diagnostics.errorCount = p.diagnostics.errorCount

namespace Silent

theorem refl (p : Pass) : p.Silent p :=
  ⟨rfl, rfl, rfl⟩

theorem trans (h : p.Silent q) (h' : q.Silent r) : p.Silent r :=
  ⟨h'.input.trans h.input, h'.reported.trans h.reported, h'.errorCount.trans h.errorCount⟩

theorem perform (p : Pass) (r : Code.Request) : p.Silent (p.perform r) :=
  ⟨rfl, by simp, by simp⟩

theorem edit (p : Pass) (e : Table.Edit) : p.Silent (p.edit e) :=
  ⟨rfl, by simp, by simp⟩

theorem resolved (p : Pass) (name : String) : p.Silent (p.resolved name) :=
  ⟨rfl, by simp, by simp⟩

theorem bound (p : Pass) (name : String) (m : Host.Method) :
    p.Silent { p with toSession := p.record (.bound name m) } :=
  ⟨rfl, (Session.reported_record _ _).trans (List.append_nil _), rfl⟩

end Silent

namespace Reports

theorem of_eq (h : start.Reaches q.input) (hreported : q.reported = p.reported)
    (herrors : q.diagnostics.errorCount = p.diagnostics.errorCount) : Reports start p [] q :=
  ⟨by simp [hreported], herrors, by simp, .straight h⟩

theorem silent (h : p.Silent q) (hp : start.Reaches p.input) : Reports start p [] q :=
  of_eq (h.input ▸ hp) h.reported h.errorCount

theorem advance (hp : start.Reaches p.input) : Reports start p [] p.advance :=
  of_eq (input_advance p ▸ hp.trans (Tokens.reaches_tail _)) (by simp) (by simp)

theorem reaches (h : Reports start p ds q) : start.Reaches q.input :=
  h.passes.reaches

/-- Reports one behind the other. -/
theorem trans (h : Reports start p ds q) (h' : Reports q.input q es r) :
    Reports start p (ds ++ es) r where
  reported := by rw [h'.reported, h.reported, List.append_assoc]
  errorCount := by
    rw [h'.errorCount, h.errorCount, Diagnostics.errorsIn_append, Nat.add_assoc]
  warned d hd hwarning := by
    rcases List.mem_append.mp hd with hd | hd
    · exact h.warned d hd hwarning
    · exact h.reaches.places.subset (h'.warned d hd hwarning)
  passes := Diagnostics.errorPlaces_append ds es ▸ h.passes.append h'.passes

/-- Where no error was reported, the next one may still stand anywhere behind the start. -/
theorem followed (h : Reports start p ds q) (hclean : errorsIn ds = 0)
    (h' : Reports start q es r) : Reports start p (ds ++ es) r where
  reported := by rw [h'.reported, h.reported, List.append_assoc]
  errorCount := by
    rw [h'.errorCount, h.errorCount, Diagnostics.errorsIn_append, Nat.add_assoc]
  warned d hd hwarning :=
    (List.mem_append.mp hd).elim (h.warned d · hwarning) (h'.warned d · hwarning)
  passes := by
    have hnone := List.length_eq_zero_iff.mp ((Diagnostics.length_errorsOf ds).trans hclean)
    rw [Diagnostics.errorPlaces_append, errorPlaces, hnone, List.map_nil, List.nil_append]
    exact h'.passes

theorem from_earlier (h : Reports start p ds q) {s : Tokens} (hs : s.Reaches start) :
    Reports s p ds q :=
  ⟨h.reported, h.errorCount, fun d hd hwarning => hs.places.subset (h.warned d hd hwarning),
    hs.passes h.passes⟩

end Reports

/-! Resynchronisation -/

theorem input_advanceBy_lengthThroughSemicolon (ls : List Lexeme) (h : p.input.lexemes = ls) :
    (p.advanceBy (lengthThroughSemicolon ls)).input = p.input.behindSemicolon := by
  induction ls generalizing p with
  | nil =>
      rw [lengthThroughSemicolon, advanceBy, Tokens.behindSemicolon, h]
      exact congrArg (Tokens.mk · _) h
  | cons x rest ih =>
      have hcurrent : p.input.current? = some x.token := by simp [Tokens.current?, h]
      have hrest : p.advance.input.lexemes = rest := by rw [lexemes_advance, h, List.tail_cons]
      unfold lengthThroughSemicolon
      split
      · rename_i hx
        rw [advanceBy, advanceBy, input_advance]
        exact Tokens.tail_eq_behindSemicolon (hx ▸ hcurrent)
      · rename_i hx
        rw [advanceBy, ih hrest, input_advance]
        refine (Tokens.within_tail ?_).behindSemicolon
        simpa [hcurrent] using hx

/-- What is skipped after a report ends with the next semicolon. -/
theorem input_resynchronise (p : Pass) : p.resynchronise.input = p.input.behindSemicolon :=
  input_advanceBy_lengthThroughSemicolon _ rfl

theorem reported_advanceBy (n : Nat) (p : Pass) : (p.advanceBy n).reported = p.reported := by
  induction n generalizing p with
  | zero => rfl
  | succ n ih => rw [advanceBy, ih, reported_advance]

theorem diagnostics_advanceBy (n : Nat) (p : Pass) :
    (p.advanceBy n).diagnostics = p.diagnostics := by
  induction n generalizing p with
  | zero => rfl
  | succ n ih => rw [advanceBy, ih, diagnostics_advance]

theorem reports_resynchronise (p : Pass) : Reports p.input p [] p.resynchronise :=
  .of_eq (p.input_resynchronise ▸ p.input.reaches_behindSemicolon) (reported_advanceBy _ p)
    (congrArg Diagnostics.errorCount (diagnostics_advanceBy _ p))

/-- An error at a token that was passed before. -/
theorem reports_error {s : Tokens} (hs : start.Reaches s) (hp : s.Reaches p.input)
    (message : String) :
    Reports start p [⟨.error, s.here, message⟩] (p.report .error s.here message) where
  reported := by simp
  errorCount := by simp [Diagnostics.errorCount_report, errorsIn]
  warned := by simp
  passes := .via hs (.straight hp)

theorem reports_warning {s : Tokens} (hs : start.Reaches s) (hp : start.Reaches p.input)
    (message : String) :
    Reports start p [⟨.warning, s.here, message⟩] (p.report .warning s.here message) where
  reported := by simp
  errorCount := by simp [Diagnostics.errorCount_report, errorsIn]
  warned := by simpa using hs.places.subset s.here_mem_places
  passes := .straight hp

theorem reports_note (hp : start.Reaches p.input) (l : Location) (message : String) :
    Reports start p [⟨.note, l, message⟩] (p.report .note l message) where
  reported := by simp
  errorCount := by simp [Diagnostics.errorCount_report, errorsIn]
  warned := by simp
  passes := .straight hp

end Pass
end OnePass
