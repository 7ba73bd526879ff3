import OnePass.Proofs.Growth
import OnePass.Proofs.Validity

/-!
What surrounds a statement is the same before and after it, in every outcome: the table of symbols,
and all of the code but the ends of the open method and of the labels. So every scope that is opened
is closed again, in the table as in the methods.
-/

namespace OnePass
namespace Table

/-- One more block scope is open in `u` than in `t`. -/
def Inside (t u : Table) : Prop :=
  ∃ scope, u = { t with blocks := scope :: t.blocks }

variable {t u : Table}

theorem inside_openScope (t : Table) : t.Inside t.openScope :=
  ⟨_, rfl⟩

theorem Inside.declare (h : t.Inside u) (symbol : Symbol) (l : Location) :
    t.Inside (u.declare symbol l) := by
  obtain ⟨scope, rfl⟩ := h
  exact ⟨scope.declare symbol l, rfl⟩

theorem Inside.closeScope (h : t.Inside u) : u.closeScope = t := by
  obtain ⟨scope, rfl⟩ := h
  rfl

end Table

namespace Pass

/-- A statement leaves the table as it was; the items of a block change its scope only. -/
def Keeps (p q : Pass) : Part → Prop
  | .statement => q.table = p.table
  | .items => ∀ t : Table, t.Inside p.table → t.Inside q.table

variable {part : Part} {loop : Option LoopLabels} {p q : Pass}

theorem keeps_of_eq (h : q.table = p.table) : p.Keeps q part := by
  cases part with
  | statement => exact h
  | items => exact fun t ht => h ▸ ht

/-- What a block declares is gone behind it. -/
theorem Ran.keepsTable (h : Ran part loop p q) : p.Keeps q part := by
  induction h with
  | quiet h => exact keeps_of_eq h.table
  | @trans part _ _ _ _ _ _ ih ih' =>
      cases part with
      | statement => exact Eq.trans ih' ih
      | items => exact fun t ht => ih' t (ih t ht)
  | item _ ih => exact keeps_of_eq ih
  | declared l _ _ _ =>
      intro t ht
      rw [table_declareLocal]
      exact ht.declare _ l
  | abandoned h =>
      obtain ⟨is, h, -⟩ := h
      exact h.table
  | discarded h =>
      obtain ⟨is, h, -⟩ := Action.expression_writes h
      rw [Keeps]
      split <;> simp [h.table]
  | returned _ | jumped _ => exact table_perform _ _
  | returnedValue _ _ h _ h' =>
      obtain ⟨is, h, -⟩ := Action.expression_writes h
      rw [Keeps, table_perform, h'.table, h.table]
  | @block _ p q _ ih =>
      rw [Keeps, table_closeBlock]
      exact (ih p.table (p.table_openBlock ▸ p.table.inside_openScope)).closeScope
  | ifThen h _ ih =>
      obtain ⟨is, h, -⟩ := h.writes
      rw [Keeps, table_skipUnless] at ih
      rw [Keeps, table_perform, ih, h.table]
  | ifElse h _ h' _ ih ih' =>
      obtain ⟨is, h, -⟩ := h.writes
      rw [Keeps, table_skipUnless] at ih
      rw [Keeps, table_otherwise] at ih'
      rw [Keeps, table_perform, ih', h'.table, ih, h.table]
  | whileAbandoned h =>
      obtain ⟨is, h, -⟩ := h
      rw [Keeps, table_perform, h.table, table_beginLoop]
  | whileLoop h _ ih =>
      obtain ⟨is, h, -⟩ := h.writes
      rw [Keeps, table_perform] at ih
      rw [Keeps, table_endLoop, ih, h.table, table_beginLoop]
  | infinite _ ih =>
      rw [Keeps, table_beginLoop] at ih
      rw [Keeps, table_endLoop, ih]

end Pass

/-! The code around a statement -/

namespace Code

/-- The open scopes of each method, and whether one was closed that was not open. -/
def scopes (c : Code) : List (Nat × Bool) :=
  c.methods.toList.map fun m => (m.depth, m.underflow)

/-- Code that has been added to at the end of the open method and of the labels only. -/
structure OnlyGrows (c d : Code) : Prop where
  fields : d.fields = c.fields
  size : d.methods.size = c.methods.size
  scopes : d.scopes = c.scopes
  currentIndex : d.currentIndex = c.currentIndex
  current : ∃ code locals, d.current =
    { c.current with code := c.current.code ++ code, locals := c.current.locals ++ locals }
  others : ∀ index, index ≠ c.currentIndex → d.methods[index]? = c.methods[index]?
  labels : c.labels.toList <+: d.labels.toList

variable (c : Code)

theorem scopes_updateCurrent {f : Method → Method} (hdepth : ∀ m, (f m).depth = m.depth)
    (hunderflow : ∀ m, (f m).underflow = m.underflow) : (c.updateCurrent f).scopes = c.scopes := by
  cases hb : c.body <;> simp [scopes, methods, updateCurrent, hb, hdepth, hunderflow]

theorem scopes_grow (g : Growth) : (c.grow g).scopes = c.scopes :=
  c.scopes_updateCurrent (fun _ => rfl) fun _ => rfl

theorem onlyGrows_grow (g : Growth) : c.OnlyGrows (c.grow g) where
  fields := c.fields_grow g
  size := by simp [methods_grow]
  scopes := c.scopes_grow g
  currentIndex := c.currentIndex_grow g
  current := ⟨_, _, c.current_grow g⟩
  others index hindex := by simp [methods_grow, Array.getElem?_modify, Ne.symm hindex]
  labels := by simp

theorem isBalanced_of_scopes {c : Code} {n : Nat} (h : c.scopes = List.replicate n (0, false)) :
    ∀ m ∈ c.methods, m.isBalanced := by
  intro m hm
  have hscope : (m.depth, m.underflow) ∈ c.scopes :=
    List.mem_map_of_mem (f := fun m : Method => (m.depth, m.underflow)) (by simpa using hm)
  rw [h] at hscope
  have heq := List.eq_of_mem_replicate hscope
  simp_all [Method.isBalanced]

end Code

namespace Pass

variable {p q : Pass}

theorem scopes_bindParameters (params : List (String × Ty)) (ordinal : Nat) (p : Pass) :
    (Action.bindParameters params ordinal p).code.scopes = p.code.scopes := by
  induction params generalizing ordinal p with
  | nil => rfl
  | cons param params ih =>
      rw [Action.bindParameters, ih, code_bindParameter]
      exact Code.scopes_updateCurrent _ (fun _ => rfl) fun _ => rfl

/-- Items of a program leave no scope of a method open, and close none that was open before. -/
theorem Built.scopes (h : Built p q) :
    ∃ added, q.code.scopes = p.code.scopes ++ List.replicate added (0, false) := by
  induction h with
  | ran h =>
      obtain ⟨g, hg, -⟩ := h.grows
      exact ⟨0, by rw [hg, Code.scopes_grow]; simp⟩
  | trans _ _ ih ih' =>
      obtain ⟨m, hm⟩ := ih
      obtain ⟨n, hn⟩ := ih'
      exact ⟨m + n, by rw [hn, hm, List.append_assoc, List.replicate_append_replicate]⟩
  | field size l _ _ _ _ =>
      exact ⟨0, by simp [declareField, Code.scopes, Code.methods, Code.addField]⟩
  | signature l _ h _ => exact ⟨0, by simp [h.code, beginSignature]⟩
  | method l _ h hran =>
      obtain ⟨g, hg, -⟩ := hran.grows
      refine ⟨1, ?_⟩
      have hclose : ∀ c : Code, c.closeMethod.scopes = c.scopes := by
        simp [Code.scopes, Code.methods_closeMethod]
      rw [closeMethod, code_edit, code_perform, Code.perform, hclose, hg, Code.scopes_grow,
        openMethod, code_completeMethod, scopes_bindParameters, code_perform, h.code]
      simp [beginSignature, Code.scopes, Code.methods_addMethod]

theorem Built.depth (h : Built p q) : q.table.depth = p.table.depth := by
  refine h.observe (f := Table.depth) ?_ ?_ ?_ ?_
  · exact fun t depth name s _ => congrArg (· + 1) (t.length_overwriteAt depth name s)
  · exact fun t s l => congrArg (· + 1) (t.length_updateInnermost _)
  · exact fun _ _ _ => rfl
  · intro t u hu
    simp only [Table.depth, Table.openScope, Table.closeScope, List.length_cons,
      List.length_tail] at hu ⊢
    omega

theorem table_run (source : String) (config : Config) (host : Host.Registry) :
    (run source config host).2.table = (final source config host).table := by
  rw [run_eq]
  generalize final source config host = q
  rfl

end Pass

/-- A statement leaves the table as it was, and of the code only the ends of the open method and of
the labels grow, whatever its outcome. An item of a program closes the scopes that it opens, in the
table and in the methods, so that no scope is open behind a whole program. -/
theorem statement_restores_environment :
    (∀ (loop : Option LoopLabels) (p : Pass),
      let q := (Action.statement loop p).2
      q.table = p.table ∧ p.code.OnlyGrows q.code) ∧
    (∀ p : Pass,
      let q := (Action.programItem p).2
      q.table.depth = p.table.depth ∧
        ∃ added, q.code.scopes = p.code.scopes ++ List.replicate added (0, false)) ∧
    ∀ (source : String) (config : Config) (host : Host.Registry),
      let s := (run source config host).2
      s.table.depth = 1 ∧ ∀ m ∈ s.code.methods, m.isBalanced := by
  refine ⟨fun loop p => ⟨(Action.ran_statement loop p).keepsTable, ?_⟩, fun p => ?_, ?_⟩
  · obtain ⟨g, hg, -⟩ := (Action.ran_statement loop p).grows
    rw [hg]
    exact p.code.onlyGrows_grow g
  · exact ⟨Action.built_programItem.depth, Action.built_programItem.scopes⟩
  · intro source config host
    have hbuilt := (Pass.built_run source config host).1
    simp only [Pass.table_run, Pass.code_run]
    constructor
    · obtain ⟨_, _, htable, -⟩ := Pass.table_initial source config host
      rw [hbuilt.depth, htable]
      rfl
    · obtain ⟨n, hn⟩ := hbuilt.scopes
      rw [Pass.code_initial] at hn
      exact Code.isBalanced_of_scopes (n := n + 1) (by rw [hn, List.replicate_succ]; rfl)

end OnePass
