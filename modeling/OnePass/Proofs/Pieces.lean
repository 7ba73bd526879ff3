import OnePass.Proofs.Layout
import OnePass.Proofs.LineEnds
import OnePass.Proofs.Validity

/-!
Programs in pieces. A session that has compiled a text without errors may compile another one on
top of it, with the same result as the two texts at once: no item of a program looks behind its
own end but for an `else`, and all that is carried from one item to the next lies in the session.
The names that the language declares are declared again with every text, which changes nothing.
-/

namespace OnePass

/-! Predeclared names -/

namespace Table

theorem predeclared_declare (t : Table) (s : Symbol) (l : Location) :
    (t.declare s l).predeclared = t.predeclared := by
  unfold declare updateInnermost
  split <;> rfl

/-- Only depth zero means the scope of the predeclared names. -/
theorem predeclared_overwriteAt (t : Table) {depth : Nat} (h : 0 < depth) (name : String)
    (s : Symbol) : (t.overwriteAt depth name s).predeclared = t.predeclared := by
  match depth with
  | 1 => rfl
  | n + 2 =>
      unfold overwriteAt
      dsimp only
      split <;> rfl

end Table

namespace Pass

/-- No program changes what the language declares. -/
theorem Built.predeclared {p q : Pass} (h : Built p q) :
    q.table.predeclared = p.table.predeclared := by
  refine h.observe (f := Table.predeclared) ?_ ?_ ?_ ?_
  · exact fun t _ name s h => t.predeclared_overwriteAt h name s
  · exact Table.predeclared_declare
  · exact fun _ _ _ => rfl
  · exact fun _ _ h => h

end Pass

namespace Table

/-- The scope of the names that the language declares, on top of a scope. -/
def predeclareIn (f : Frame) : Frame :=
  ({ host := {}, predeclared := f } : Table).predeclareAll.predeclared

theorem foldl_predeclare {t t' : Table} (h : t'.predeclared = t.predeclared)
    (symbols : List Symbol) :
    symbols.foldl predeclare t =
      { t with predeclared := (symbols.foldl predeclare t').predeclared } := by
  induction symbols generalizing t t' with
  | nil => rw [List.foldl_nil, List.foldl_nil, h]
  | cons symbol symbols ih =>
      have hstep : (t'.predeclare symbol).predeclared = (t.predeclare symbol).predeclared := by
        simp only [predeclare, h]
      exact ih hstep

theorem predeclareAll_eq (t : Table) :
    t.predeclareAll = { t with predeclared := predeclareIn t.predeclared } := by
  unfold predeclareIn predeclareAll
  exact foldl_predeclare rfl _

/-- To declare the names of the language once more changes nothing. -/
theorem predeclareAll_again {t : Table} (h : t.predeclared = predeclareIn {}) :
    t.predeclareAll = t := by
  have hagain : predeclareIn (predeclareIn {}) = predeclareIn {} := by decide +kernel
  rw [predeclareAll_eq, h, hagain, ← h]

end Table

theorem Pass.predeclared_final (source : String) (config : Config) (host : Host.Registry) :
    (final source config host).table.predeclared = Table.predeclareIn {} := by
  obtain ⟨used, hused⟩ := Table.addUsing_foldl { host } config.namespaces
  rw [(built_run source config host).1.predeclared]
  simp only [initial, start, table_meet, Table.predeclareAll_eq, Session.start, hused]

/-! A text and the beginning of it -/

theorem Pass.Steps.remaining_le {p q : Pass} (h : p.Steps q) : q.remaining ≤ p.remaining := by
  induction h with
  | refl => exact Nat.le_refl _
  | tail _ hstep ih =>
      refine Nat.le_trans ?_ ih
      cases hstep with
      | advance =>
          rw [remaining_advance]
          exact Nat.sub_le _ _
      | _ => exact Nat.le_refl _

/-- Passes of which the second has further tokens behind those of the first. -/
structure Pass.Continues (later : Tokens) (p q : Pass) : Prop where
  table : q.table = p.table
  code : q.code = p.code
  diagnostics : q.diagnostics = p.diagnostics
  input : q.input = { later with lexemes := p.input.lexemes ++ later.lexemes }

namespace Pass.Continues

variable {later : Tokens} {p q : Pass}

theorem current (h : p.Continues later q) :
    q.input.current? = p.input.current?.or later.current? := by
  rw [h.input]
  unfold Tokens.current?
  cases p.input.lexemes <;> rfl

theorem here (h : p.Continues later q) (hp : 0 < p.remaining) : q.input.here = p.input.here := by
  obtain ⟨l, rest, hl⟩ := List.length_pos_iff_exists_cons.mp hp
  simp [Tokens.here, h.input, hl]

theorem advance (h : p.Continues later q) (hp : 0 < p.remaining) :
    p.advance.Continues later q.advance := by
  refine ⟨by simp [h.table], by simp [h.code], by simp [h.diagnostics], ?_⟩
  obtain ⟨l, rest, hl⟩ := List.length_pos_iff_exists_cons.mp hp
  simp [input_advance, Tokens.tail, h.input, hl]

end Pass.Continues

/-- A pass without errors does not look behind its last token, unless for an `else`. -/
def Coupling.continuation (later : Tokens)
    (helse : later.current? ≠ some (.keyword .elseWord)) : Coupling where
  toPlaces := .exact
  Coupled := Pass.Continues later
  Ends k p := p.diagnostics.errorCount = 0 ∧ (k = .inside → 0 < p.remaining)
  Strict := False
  surplus := later.remaining
  ends_of_steps h hend :=
    ⟨(h.clean hend.1).1, fun hk => Nat.lt_of_lt_of_le (hend.2 hk) h.remaining_le⟩
  inside_of_ends h hp := ⟨h.1, fun _ => hp.resolve_right (by rw [h.1]; exact Nat.lt_irrefl 0)⟩
  errorCount_eq_zero h _ := h.elim
  remaining {p q} h := by
    show q.input.remaining = p.input.remaining + later.remaining
    rw [h.input]
    exact List.length_append
  current {p q} h hend := by
    obtain ⟨t, ht⟩ := Pass.current_of_pos (hend.2 rfl)
    rw [h.current, ht, Option.some_or]
  current_else {k p q} h _ hq := by
    rw [h.current] at hq
    cases ht : p.input.current? with
    | none =>
        rw [ht] at hq
        exact (helse hq).elim
    | some t =>
        rw [ht] at hq
        exact hq
  here h hend := (h.here (hend.2 rfl)).symm
  errorCount h := by rw [h.diagnostics]
  code {p _} h := ⟨p.code.entry.name, h.code⟩
  table h := by
    rw [h.table]
    exact .refl (fun _ => rfl) _ _
  advance h hend := h.advance (hend.2 rfl)
  perform h r := ⟨by simp [h.table], by simp [h.code], by simp [h.diagnostics], h.input⟩
  edit {p q e e'} h he := by
    obtain rfl : e = e' := he.eq
    exact ⟨by simp [h.table], by simp [h.code], by simp [h.diagnostics], h.input⟩
  report {p q l l'} h hl severity message := by
    subst hl
    exact ⟨by simp [h.table], by simp [h.code], by simp [h.diagnostics], h.input⟩
  resolved h name := ⟨by simp [h.table], by simp [h.code], by simp [h.diagnostics], h.input⟩
  bound h name m := ⟨h.table, h.code, h.diagnostics, h.input⟩
  complete h depth name symbol :=
    ⟨congrArg (Table.overwriteAt · depth name symbol) h.table, h.code, h.diagnostics, h.input⟩

namespace Action

theorem programItems_of_current {p : Pass} {t : Token} (h : p.input.current? = some t) :
    (programItems p).2 = (programItems (programItem p).2).2 := by
  conv => lhs; rw [unguarded.program, programRound, bind_ok (peek_apply p), h]
  rfl

theorem programItems_of_end {p : Pass} (h : p.input.current? = none) :
    (programItems p).2 = p := by
  rw [unguarded.program, programRound, bind_ok (peek_apply p), h]
  rfl

/-- The items of a text are the first ones of a text that goes on. -/
theorem programItems_continues {later : Tokens} {p q : Pass}
    (helse : later.current? ≠ some (.keyword .elseWord)) (h : p.Continues later q)
    (hclean : (programItems p).2.diagnostics.errorCount = 0) :
    ∃ r, (programItems p).2.Continues later r ∧ (programItems q).2 = (programItems r).2 := by
  -- By the tokens that are left of the first text; an item takes at least one of them.
  induction hn : p.remaining using Nat.strongRecOn generalizing p q with
  | _ n ih =>
      cases ht : p.input.current? with
      | none =>
          rw [programItems_of_end ht]
          exact ⟨q, h, rfl⟩
      | some t =>
          have hp := Pass.remaining_pos ht
          have hq : q.input.current? = some t := by rw [h.current, ht, Option.some_or]
          rw [programItems_of_current ht] at hclean ⊢
          rw [programItems_of_current hq]
          have hitem := ((Coupling.continuation later helse).ahead_programItem (k := .whole) p hp)
          have hend := (accepted_programItems.steps (p := (programItem p).2)).clean hclean
          have hless := remaining_lt (fun _ => alike_programItem) hp
          exact ih _ (hn ▸ hless) (hitem.coupled q h ⟨hend.1, nofun⟩).2 hclean rfl

end Action

/-! Two texts, at once or one after the other -/

/-- Where a text stands does not matter to its tokens. -/
theorem Lexer.tokens_locate (l l' : Location) (pieces : List (Piece × List Char)) :
    (locate l' pieces).lexemes.map Lexeme.token = (locate l pieces).lexemes.map Lexeme.token := by
  induction pieces generalizing l l' with
  | nil => rfl
  | cons piece more ih =>
      obtain ⟨kind, text⟩ := piece
      cases kind with
      | layout => exact ih _ _
      | token t => exact congrArg (t :: ·) (ih _ _)

theorem blur_tokensBehind (source later : String) :
    (tokensBehind source later).blur = (tokenize later).blur :=
  Lexer.blur_locate_eq Nat.one_pos (Location.line_advanceOver Nat.one_pos _)
    (Lexer.tokens_locate _ _ _)

namespace Pass

variable {source : String} {config : Config} {host : Host.Registry}

/-- A text that is read without an error has no token which no rule accepts. -/
theorem known_of_clean (h : (final source config host).diagnostics.errorCount = 0) :
    ∀ x ∈ (tokenize source).lexemes, ∀ t, x.token ≠ .unknown t := by
  obtain ⟨-, ts, -, hts, hread⟩ := Action.accepted_programItems.derives h
  rw [Action.lexemes_programItems, Grammar.tokens_nil, List.append_nil, lexemes_initial] at hread
  intro x hx t ht
  have hunknown : .unknown t ∈ Grammar.tokens (tokenize source).lexemes :=
    List.mem_map.mpr ⟨x, hx, ht⟩
  rw [hread] at hunknown
  exact (Grammar.Derives.nonterminal hts.of_singleton).ne_unknown t hunknown

theorem errorCount_of_succeeded {p : Pass} (h : p.succeeded = true) :
    p.diagnostics.errorCount = 0 := by
  simp only [succeeded, Diagnostics.hasErrors, Bool.and_eq_true] at h
  simpa using h.1

theorem SameUpToPlaces.succeeded {p q : Pass} (h : p.SameUpToPlaces q) :
    q.succeeded = p.succeeded := by
  have hlexemes := congrArg (fun s : Tokens => s.lexemes.isEmpty) h.input
  simp only [Tokens.blur, List.isEmpty_map] at hlexemes
  simp only [Pass.succeeded, Diagnostics.hasErrors, h.diagnostics.errorCount, hlexemes]

theorem continues_initial (h : (final source config host).diagnostics.errorCount = 0)
    (later : String) :
    (initial source config host).Continues (tokensBehind source later)
      (initial (source ++ "\n" ++ later) config host) where
  table := by simp [initial, start]
  code := by simp
  diagnostics := by simp
  input := by
    simp only [initial, start, input_meet]
    exact tokenize_lineEnd source later (known_of_clean h)

/-- The beginning of a text on top of what a session holds already. -/
def resume (s : Session) (source : String) : Pass :=
  let p := start s source
  { p with table := p.table.predeclareAll }

/-- Behind the first text, the pass over both is where the pass over the second one begins. -/
theorem Continues.resume {later : String} {r : Pass} {s : Session}
    (h : (final source config host).Continues (tokensBehind source later) r)
    (htable : s.table = (final source config host).table)
    (hcode : s.code = (final source config host).code)
    (hdiagnostics : s.diagnostics = (final source config host).diagnostics) :
    r.SameUpToPlaces (Pass.resume s later) where
  table := by
    have hagain := Table.predeclareAll_again (predeclared_final source config host)
    simp only [Pass.resume, start, table_meet, htable, hagain, h.table]
  code := by simp only [Pass.resume, start, code_meet, hcode, h.code]
  diagnostics := by
    rw [h.diagnostics, ← hdiagnostics]
    simpa only [Pass.resume, start, diagnostics_meet] using ⟨rfl, rfl, rfl⟩
  input := by
    have hread : (final source config host).input.lexemes = [] := Action.lexemes_programItems _
    have hinput : r.input = tokensBehind source later := by rw [h.input, hread]; rfl
    rw [hinput, blur_tokensBehind]
    simp only [Pass.resume, start, input_meet]

end Pass

/-- A session that has compiled a text without errors goes on with another text as if there were
only one, with a line end between them. -/
theorem compile_pieces (config : Config) (host : Host.Registry) (source later : String)
    (h : ((Session.start config host).compile source).1 = true)
    (helse : (tokenize later).current? ≠ some (.keyword .elseWord)) :
    let once := (Session.start config host).compile (source ++ "\n" ++ later)
    let pieces := ((Session.start config host).compile source).2.compile later
    pieces.1 = once.1 ∧ pieces.2.code = once.2.code ∧
      pieces.2.diagnostics.items.map Diagnostic.wording =
        once.2.diagnostics.items.map Diagnostic.wording := by
  have hclean : (Pass.final source config host).diagnostics.errorCount = 0 :=
    Pass.errorCount_of_succeeded h
  have helse' : (tokensBehind source later).current? ≠ some (.keyword .elseWord) := by
    rwa [← Tokens.current?_blur, blur_tokensBehind, Tokens.current?_blur]
  obtain ⟨r, hr, hfinal⟩ :=
    Action.programItems_continues helse' (Pass.continues_initial hclean later) hclean
  have hresume : r.SameUpToPlaces
      (Pass.resume ((Session.start config host).compile source).2 later) := hr.resume rfl rfl rfl
  have hitems := hresume.programItems
  rw [← hfinal] at hitems
  exact ⟨hitems.succeeded, hitems.code, hitems.diagnostics.items⟩

/-- A program that ends with a branch, and with a comment up to the end of the line. -/
def branching : String :=
  "int limit; int half(int n) \x7b return n / 2; \x7d if (half(4) < 3) limit = 1; // once"

/-- A text that goes on with a warning and an error. -/
def branchingOn : String :=
  "double mean; mean = half(limit) + 1.5; mean = missing;"

theorem compile_pieces_branching :
    let once := (Session.start {} Host.standard).compile (branching ++ "\n" ++ branchingOn)
    let pieces := ((Session.start {} Host.standard).compile branching).2.compile branchingOn
    (((Session.start {} Host.standard).compile branching).1 = true ∧
      (tokenize branchingOn).current? ≠ some (.keyword .elseWord)) ∧
    pieces.1 = once.1 ∧ pieces.2.code = once.2.code ∧
      pieces.2.diagnostics.items.map Diagnostic.wording =
        once.2.diagnostics.items.map Diagnostic.wording ∧
      once.2.diagnostics.items.size = 2 := by
  have haccepted : ((Session.start {} Host.standard).compile branching).1 = true := by
    decide +kernel
  have hfirst : (tokenize branchingOn).current? ≠ some (.keyword .elseWord) := by decide +kernel
  obtain ⟨hsuccess, hcode, hitems⟩ :=
    compile_pieces {} Host.standard branching branchingOn haccepted hfirst
  exact ⟨⟨haccepted, hfirst⟩, hsuccess, hcode, hitems, by decide +kernel⟩

end OnePass
