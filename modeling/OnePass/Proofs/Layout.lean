import OnePass.Proofs.Lockstep

/-!
Layout does not matter. Locations are stored with every declaration and every diagnostic, and one
question is asked about them: whether something was declared by the language itself. A blurred
location answers just this question. All operations on tables and tokens commute with blurring, so
passes that are equal up to it stay so, and what they write is the same.
-/

namespace OnePass

/-! Blurred locations -/

namespace Location

/-- All places of a text look the same, but not the place of what the language declares. -/
def blur (l : Location) : Location :=
  if l = builtin then builtin else start

theorem blur_eq_builtin_iff {l : Location} : l.blur = builtin ↔ l = builtin := by
  unfold blur
  split
  · rename_i h
    simp [h]
  · rename_i h
    exact iff_of_false (by decide) h

/-- Lines count from one. -/
theorem blur_of_line {l : Location} (h : 0 < l.line) : l.blur = start := by
  unfold blur
  rw [if_neg]
  rintro rfl
  exact Nat.lt_irrefl 0 h

theorem line_advance {l : Location} (h : 0 < l.line) (c : Char) : 0 < (l.advance c).line := by
  unfold advance
  split
  · exact Nat.succ_pos _
  · split <;> exact h

theorem line_advanceOver {l : Location} (h : 0 < l.line) (text : List Char) :
    0 < (l.advanceOver text).line := by
  induction text generalizing l with
  | nil => exact h
  | cons c text ih => exact ih (line_advance h c)

end Location

namespace Catalog

variable {α β : Type} (f : α → β)

def map (c : Catalog α) : Catalog β :=
  ⟨c.entries.map f, c.index, by simpa using c.numbered⟩

theorem map_empty : ({} : Catalog α).map f = {} := by
  simp [map, EmptyCollection.emptyCollection]

theorem find?_map (c : Catalog α) (name : String) :
    (c.map f).find? name = (c.find? name).map f := by
  rw [find?, find?, map, Option.map_bind]
  congr 1
  funext i
  exact Array.getElem?_map

theorem map_put (c : Catalog α) (name : String) (value : α) :
    (c.put name value).map f = (c.map f).put name (f value) := by
  rw [put, put]
  simp only [map]
  split
  · simp [Array.map_setIfInBounds]
  · simp [add]

end Catalog

namespace Binding

def blur (b : Binding) : Binding :=
  { b with location := b.location.blur }

end Binding

namespace Frame

def blur (f : Frame) : Frame :=
  f.map Binding.blur

theorem find?_blur (f : Frame) (name : String) : f.blur.find? name = (f.find? name).map .blur :=
  Catalog.find?_map _ _ _

theorem blur_declare (f : Frame) (s : Symbol) (l : Location) :
    (f.declare s l).blur = f.blur.declare s l.blur :=
  Catalog.map_put _ _ _ _

theorem blur_overwrite (f : Frame) (name : String) (s : Symbol) :
    (f.overwrite name s).blur = f.blur.overwrite name s := by
  unfold overwrite
  rw [find?_blur]
  cases f.find? name with
  | none => rfl
  | some b => exact Catalog.map_put _ _ _ _

end Frame

namespace Table

variable (t : Table)

def blur : Table :=
  { t with
    predeclared := t.predeclared.blur
    fields := t.fields.blur
    blocks := t.blocks.map Frame.blur }

/-! What a table tells apart from locations -/

theorem frames_blur : t.blur.frames = t.frames.map Frame.blur := by
  simp [frames, blur]

theorem depth_blur : t.blur.depth = t.depth := by
  simp [depth, blur]

theorem innermost_blur : t.blur.innermost = t.innermost.blur := by
  unfold innermost blur
  cases t.blocks <;> rfl

theorem lookup_blur (name : String) : t.blur.lookup name = t.lookup name := by
  unfold lookup
  rw [frames_blur]
  induction t.frames with
  | nil => rfl
  | cons f fs ih =>
      rw [List.map_cons, List.findSome?_cons, List.findSome?_cons, Frame.find?_blur]
      cases f.find? name with
      | none => exact ih
      | some b => rfl

theorem resolve_blur (name : String) : t.blur.resolve name = t.resolve name := by
  unfold resolve
  rw [lookup_blur]
  rfl

theorem resolveType_blur (name : String) : t.blur.resolveType name = t.resolveType name := by
  unfold resolveType
  rw [lookup_blur]
  rfl

theorem symbolAt?_blur (depth : Nat) (name : String) :
    t.blur.symbolAt? depth name = t.symbolAt? depth name := by
  unfold symbolAt?
  rw [frames_blur, ← List.map_reverse, List.getElem?_map]
  cases t.frames.reverse[depth]? with
  | none => rfl
  | some f =>
      rw [Option.map_some, Option.bind_some, Option.bind_some, Frame.find?_blur, Option.map_map]
      rfl

theorem declaredAt?_blur (name : String) :
    t.blur.declaredAt? name = (t.declaredAt? name).map Location.blur := by
  unfold declaredAt?
  rw [innermost_blur, Frame.find?_blur, Option.map_map, Option.map_map]
  rfl

theorem looksLike_of_blur {t t' : Table} (h : t'.blur = t.blur) :
    t.LooksLike (fun l l' => l'.blur = l.blur) False t' where
  depth := by rw [← depth_blur, h, depth_blur]
  symbolAt depth name := by rw [← symbolAt?_blur, h, symbolAt?_blur]
  declaredAt name := by
    have hblur : (t'.declaredAt? name).map Location.blur =
        (t.declaredAt? name).map Location.blur := by
      rw [← declaredAt?_blur, h, declaredAt?_blur]
    cases hl : t.declaredAt? name <;> cases hl' : t'.declaredAt? name <;> simp_all
  resolve name := .inl (by rw [← resolve_blur, h, resolve_blur])
  resolveType name := .inl (by rw [← resolveType_blur, h, resolveType_blur])

/-! Edits -/

theorem blur_openScope : t.openScope.blur = t.blur.openScope := by
  simp [openScope, blur, Frame.blur, Catalog.map_empty]

theorem blur_closeScope : t.closeScope.blur = t.blur.closeScope := by
  simp [closeScope, blur]

theorem blur_declare (s : Symbol) (l : Location) :
    (t.declare s l).blur = t.blur.declare s l.blur := by
  unfold declare updateInnermost blur
  cases t.blocks <;> simp [Frame.blur_declare]

theorem blur_declareField (s : Symbol) (l : Location) :
    (t.declareField s l).blur = t.blur.declareField s l.blur := by
  simp [declareField, blur, Frame.blur_declare]

theorem blur_overwriteAt (depth : Nat) (name : String) (s : Symbol) :
    (t.overwriteAt depth name s).blur = t.blur.overwriteAt depth name s := by
  match depth with
  | 0 => simp [overwriteAt, blur, Frame.blur_overwrite]
  | 1 => simp [overwriteAt, blur, Frame.blur_overwrite]
  | n + 2 =>
      simp only [overwriteAt, blur, List.length_map]
      split
      · congr 1
        apply List.ext_getElem?
        intro i
        simp only [List.getElem?_map, List.getElem?_modify]
        cases t.blocks[i]? with
        | none => rfl
        | some f =>
            simp only [Option.map_some]
            split
            · exact congrArg some (f.blur_overwrite name s)
            · rfl
      · rfl

/-- Tables that are equal up to locations stay so by the same edit. -/
theorem blur_edit {t t' : Table} {e e' : Edit} (ht : t'.blur = t.blur)
    (h : e.Near (fun l l' => l'.blur = l.blur) e') : (t'.edit e').blur = (t.edit e).blur := by
  cases h with
  | openScope => simp only [edit, blur_openScope, ht]
  | closeScope => simp only [edit, blur_closeScope, ht]
  | declare s hl => simp only [edit, blur_declare, ht, hl]
  | declareField s hl => simp only [edit, blur_declareField, ht, hl]

end Table

/-! Blurred tokens -/

namespace Tokens

variable (s : Tokens)

def blur : Tokens :=
  ⟨s.lexemes.map fun l => { l with location := l.location.blur }, s.finish.blur⟩

theorem current?_blur : s.blur.current? = s.current? := by
  simp [current?, blur, List.head?_map, Option.map_map, Function.comp_def]

theorem here_blur : s.blur.here = s.here.blur := by
  unfold here blur
  cases s.lexemes <;> rfl

theorem tail_blur : s.blur.tail = s.tail.blur := by
  simp [tail, blur]

theorem remaining_blur : s.blur.remaining = s.remaining := by
  simp [remaining, blur]

end Tokens

namespace Lexer

variable {l l' : Location}

/-- No token of a text stands where the language declares its names. -/
theorem blur_locate (h : 0 < l.line) (pieces : List (Piece × List Char)) :
    (locate l pieces).blur =
      ⟨((locate l pieces).lexemes.map Lexeme.token).map (⟨·, .start⟩), .start⟩ := by
  induction pieces generalizing l with
  | nil => simp [locate, Tokens.blur, Location.blur_of_line h]
  | cons piece more ih =>
      obtain ⟨kind, text⟩ := piece
      have hlater := ih (Location.line_advanceOver h text)
      cases kind with
      | layout => exact hlater
      | token t =>
          simp only [Tokens.blur, Tokens.mk.injEq] at hlater
          simp only [locate, Tokens.blur, List.map_cons, hlater, Location.blur_of_line h]

/-- Texts with the same tokens are equal up to locations. -/
theorem blur_locate_eq (h : 0 < l.line) (h' : 0 < l'.line)
    {pieces pieces' : List (Piece × List Char)}
    (htokens : (locate l' pieces').lexemes.map Lexeme.token =
      (locate l pieces).lexemes.map Lexeme.token) :
    (locate l' pieces').blur = (locate l pieces).blur := by
  rw [blur_locate h, blur_locate h', htokens]

end Lexer

/-! Diagnostics without their locations -/

/-- What a diagnostic says, apart from where. -/
def Diagnostic.wording (d : Diagnostic) : Severity × String :=
  (d.severity, d.message)

/-- Diagnostics that say the same, at places that may differ. -/
structure Diagnostics.SaySame (ds ds' : Diagnostics) : Prop where
  items : ds'.items.map Diagnostic.wording = ds.items.map Diagnostic.wording
  errorCount : ds'.errorCount = ds.errorCount
  maxErrors : ds'.maxErrors = ds.maxErrors

theorem Diagnostics.SaySame.report {ds ds' : Diagnostics} (h : ds.SaySame ds')
    (severity : Severity) (l l' : Location) (message : String) :
    (ds.report ⟨severity, l, message⟩).SaySame (ds'.report ⟨severity, l', message⟩) := by
  obtain ⟨hitems, hcount, hmax⟩ := h
  unfold Diagnostics.report
  dsimp only
  rw [hcount, hmax]
  split
  · split
    · exact ⟨by simp [hitems, Diagnostic.wording], rfl, rfl⟩
    · exact ⟨hitems, rfl, rfl⟩
  · exact ⟨by simp [hitems, Diagnostic.wording], rfl, rfl⟩

/-! Two passes over texts that differ in their layout -/

/-- Passes that differ in locations, and perhaps in their journals. -/
structure Pass.SameUpToPlaces (p q : Pass) : Prop where
  table : q.table.blur = p.table.blur
  code : q.code = p.code
  diagnostics : p.diagnostics.SaySame q.diagnostics
  input : q.input.blur = p.input.blur

/-- Locations do not steer the pass. -/
def Coupling.layout : Coupling where
  toReach := .all
  Near l l' := l'.blur = l.blur
  Coupled := Pass.SameUpToPlaces
  surplus := 0
  near_refl _ := rfl
  near_builtin h := by rw [← Location.blur_eq_builtin_iff, ← h, Location.blur_eq_builtin_iff]
  remaining {p q} h := by
    show q.input.remaining = p.input.remaining
    rw [← q.input.remaining_blur, h.input, p.input.remaining_blur]
  current {p q} h _ := by rw [← q.input.current?_blur, h.input, p.input.current?_blur]
  current_else {k p q} h _ helse := by
    rw [← p.input.current?_blur, ← h.input, q.input.current?_blur, helse]
  here {p q} h _ := by rw [← q.input.here_blur, h.input, p.input.here_blur]
  errorCount h := h.diagnostics.errorCount
  code {p _} h := ⟨p.code.entry.name, h.code⟩
  table h := Table.looksLike_of_blur h.table
  advance {p q} h _ := by
    refine ⟨by simp [h.table], by simp [h.code], by simpa using h.diagnostics, ?_⟩
    rw [Pass.input_advance, Pass.input_advance, ← Tokens.tail_blur, h.input, Tokens.tail_blur]
  perform {p q} h r :=
    ⟨by simp [h.table], by simp [h.code], by simpa using h.diagnostics, h.input⟩
  edit h he :=
    ⟨Table.blur_edit h.table he, by simp [h.code], by simpa using h.diagnostics, h.input⟩
  report h _ severity message :=
    ⟨by simp [h.table], by simp [h.code], h.diagnostics.report severity _ _ message, h.input⟩
  resolved h name :=
    ⟨by simp [h.table], by simp [h.code], by simpa using h.diagnostics, h.input⟩
  bound h name m := ⟨h.table, h.code, h.diagnostics, h.input⟩
  complete {p q} h depth name symbol := by
    refine ⟨?_, h.code, h.diagnostics, h.input⟩
    show (q.table.overwriteAt depth name symbol).blur = (p.table.overwriteAt depth name symbol).blur
    rw [Table.blur_overwriteAt, h.table, Table.blur_overwriteAt]

/-- A program is read alike from passes that are equal up to locations. -/
theorem Pass.SameUpToPlaces.programItems {p q : Pass} (h : p.SameUpToPlaces q) :
    (Action.programItems p).2.SameUpToPlaces (Action.programItems q).2 :=
  ((Coupling.layout.follows_programItems (k := .whole) (fun _ => id) p).coupled q h trivial).2

theorem Pass.sameUpToPlaces_final {source source' : String}
    (h : (tokenize source').lexemes.map Lexeme.token = (tokenize source).lexemes.map Lexeme.token)
    (config : Config) (host : Host.Registry) :
    (final source config host).SameUpToPlaces (final source' config host) := by
  refine SameUpToPlaces.programItems ⟨?_, ?_, ?_, ?_⟩
  · simp [initial, start]
  · simp
  · simpa using ⟨rfl, rfl, rfl⟩
  · simp only [initial, start, input_meet]
    exact Lexer.blur_locate_eq Nat.one_pos Nat.one_pos h

/-- Two texts with the same tokens both give the same module, or both are rejected with
diagnostics that say the same. -/
theorem compileWith_layout (host : Host.Registry) (config : Config) (source source' : String)
    (h : (tokenize source').lexemes.map Lexeme.token =
      (tokenize source).lexemes.map Lexeme.token) :
    let r := (compileWith host source config).result
    let r' := (compileWith host source' config).result
    (∃ m, r = .ok m ∧ r' = .ok m) ∨
    ∃ ds ds', r = .error (.rejected ds) ∧ r' = .error (.rejected ds') ∧
      ds'.map Diagnostic.wording = ds.map Diagnostic.wording := by
  obtain ⟨-, hcode, hdiagnostics, -⟩ := Pass.sameUpToPlaces_final h config host
  simp only [result_compileWith, Pass.diagnostics_run, Pass.code_run, hcode,
    hdiagnostics.errorCount]
  split
  · exact .inl ⟨_, rfl, rfl⟩
  · exact .inr ⟨_, _, rfl, rfl, hdiagnostics.items⟩

/-- A program that declares a name twice, on one line. -/
def twiceOnOneLine : String :=
  "int n; n = 1; double n;"

def twiceOnThreeLines : String :=
  "int n; // a counter\n\tn=1; /* again: */ double\nn ;"

theorem compileWith_layout_twice :
    ((tokenize twiceOnThreeLines).lexemes.map Lexeme.token =
      (tokenize twiceOnOneLine).lexemes.map Lexeme.token ∧
      tokenize twiceOnThreeLines ≠ tokenize twiceOnOneLine) ∧
    ∃ ds ds', (compileWith Host.standard twiceOnOneLine {}).result = .error (.rejected ds) ∧
      (compileWith Host.standard twiceOnThreeLines {}).result = .error (.rejected ds') ∧
      ds'.map Diagnostic.wording = ds.map Diagnostic.wording := by
  have htokens : (tokenize twiceOnThreeLines).lexemes.map Lexeme.token =
      (tokenize twiceOnOneLine).lexemes.map Lexeme.token := by decide +kernel
  have hrejected : (compileWith Host.standard twiceOnOneLine {}).result.toOption = none := by
    decide +kernel
  refine ⟨⟨htokens, by decide +kernel⟩, ?_⟩
  refine (compileWith_layout Host.standard {} _ _ htokens).resolve_left ?_
  rintro ⟨m, hm, -⟩
  rw [hm] at hrejected
  cases hrejected

end OnePass
