import OnePass.Proofs.Environment
import OnePass.Proofs.Recovery

/-!
Abandoned declarations. A declaration enters its name into the table and into the code when nothing
of it can be refused any more. Only a method is entered into the table earlier, with its name, so
that it can call itself. If its signature is abandoned, it stays there without parameters and
without an index.
-/

namespace OnePass

/-! New names -/

namespace Table

/-- The table with one more declaration in its innermost scope, behind all others of it. -/
def withNew (t : Table) (symbol : Symbol) (l : Location) : Table :=
  t.updateInnermost (·.add symbol.name ⟨symbol, l⟩)

theorem updateInnermost_congr {t : Table} {f g : Frame → Frame}
    (h : f t.innermost = g t.innermost) : t.updateInnermost f = t.updateInnermost g := by
  obtain ⟨_, fields, blocks, _, _⟩ := t
  cases blocks with
  | nil => exact congrArg (Table.mk _ · _ _ _) h
  | cons scope rest => exact congrArg (fun scope => Table.mk _ _ (scope :: rest) _ _) h

theorem declare_of_fresh {t : Table} {symbol : Symbol} (h : t.declaredAt? symbol.name = none)
    (l : Location) : t.declare symbol l = t.withNew symbol l := by
  have hfresh : t.innermost.index.find? symbol.name = none :=
    Catalog.index_of_find? (Option.map_eq_none_iff.mp h)
  exact updateInnermost_congr (Catalog.put_of_none hfresh _)

end Table

namespace Pass

/-- Neither the table nor the code has changed. -/
structure SameStores (p q : Pass) : Prop where
  table : q.table = p.table
  code : q.code = p.code

theorem Writes.sameStores {p q : Pass} (h : p.Writes [] q) : p.SameStores q :=
  ⟨h.table, h.code⟩

theorem SameStores.trans {p q r : Pass} (h : p.SameStores q) (h' : q.SameStores r) :
    p.SameStores r :=
  ⟨h'.table.trans h.table, h'.code.trans h.code⟩

/-- Parameters are declared in the scope that was opened for them. -/
theorem Parameters.inside {params : List (String × Ty)} {p q : Pass} {t : Table}
    (h : Parameters params p q) (hp : t.Inside p.table) : t.Inside q.table := by
  induction h with
  | nil h => exact h.table ▸ hp
  | snoc l _ _ _ h ih =>
      rw [h.table, declareParam, table_edit]
      exact (ih hp).declare _ l

/-- The pass at the parameters of a method, whose name has been declared. -/
def atParameters (p : Pass) (head : MethodHead) : Pass :=
  (p.advanceBy 3).beginSignature head.name head.returnType head.location

end Pass

namespace Action

variable {α β : Type} {m : Action α} {f : α → Action β} {p q : Pass}

/-- An action that changes the table or the code is not abandoned. -/
def Atomic (m : Action α) : Prop :=
  ∀ p e q, m p = (.error e, q) → p.SameStores q

namespace Atomic

theorem of_ok (h : ∀ p, ∃ a q, m p = (.ok a, q)) : Atomic m := by
  intro p e q herror
  obtain ⟨a, r, hok⟩ := h p
  cases hok.symm.trans herror

theorem bind {Q : Table → α → Prop} (hm : ∀ t, Writing t (fun _ => False) m (Q t))
    (hf : ∀ a, Atomic (f a)) : Atomic (m >>= f) := by
  intro p e r
  have hwrites := (hm p.table).writes_nothing rfl
  cases h : m p with
  | mk out q =>
      rw [h] at hwrites
      cases out with
      | error e' =>
          rw [bind_error h]
          rintro ⟨⟩
          exact hwrites.sameStores
      | ok a =>
          rw [bind_ok h]
          exact fun hout => hwrites.sameStores.trans (hf a q e r hout)

end Atomic

/-! Variables and fields -/

theorem atomic_variableDeclaration : Atomic variableDeclaration := by
  refine .bind (fun _ => .type) fun ty => .bind (fun _ => .identifier _) fun (name, l) => ?_
  refine .bind (fun _ => .requireAt _ _ _) fun _ => .bind (fun _ => .requireFresh _ _ _) fun _ => ?_
  exact .bind (fun _ => .consume _) fun _ => .of_ok fun p => ⟨_, _, rfl⟩

theorem atomic_fieldDeclaration (ty : Ty) (name : String) (l : Location) :
    Atomic (fieldDeclaration ty name l) := by
  refine .bind (fun _ => writing_arraySuffix) fun size => ?_
  refine .bind (fun _ => .requireAt _ _ _) fun _ => .bind (fun _ => .requireFresh _ _ _) fun _ => ?_
  exact .bind (fun _ => .consume _) fun _ => .of_ok fun p => ⟨_, _, rfl⟩

theorem atomic_fieldOnly : Atomic fieldOnly :=
  .bind (fun _ => .type) fun ty => .bind (fun _ => .identifier _) fun (name, l) =>
    atomic_fieldDeclaration ty name l

/-! Methods -/

theorem type_of_current {t : Token} {ty : Ty} (ht : p.input.current? = some t)
    (hty : typeOf? p.table (some t) = some ty) : type p = (.ok ty, p.advance) := by
  unfold type
  rw [bind_ok (view_apply _ p), ht, hty]
  rfl

theorem declaration_of_methodHead {head : MethodHead} (h : p.methodHead? = some head) :
    declaration p =
      methodDeclaration head.returnType head.name head.location p.advance.advance := by
  unfold Pass.methodHead? at h
  split at h
  · rename_i t _ name l _ rest hlexemes
    obtain ⟨ty, hty, rfl⟩ := Option.map_eq_some_iff.mp h
    have hbehindType := p.lexemes_advance.trans (congrArg List.tail hlexemes)
    have hbehindName := p.advance.lexemes_advance.trans (congrArg List.tail hbehindType)
    have hname : identifier .memberName p.advance = (.ok (name, l), p.advance.advance) :=
      identifier_eq_ok.mpr
        ⟨Pass.current_of_lexemes hbehindType, Pass.here_of_lexemes hbehindType, rfl⟩
    have hmark := Pass.current_of_lexemes hbehindName
    unfold declaration
    rw [bind_ok (type_of_current (Pass.current_of_lexemes hlexemes) hty), bind_ok hname]
    dsimp only
    rw [bind_ok (atMark_apply _ _), hmark]
    rfl
  · cases h

/-- A name that is declared already is refused. -/
theorem requireFresh_of_declared {what : Declared} {name : String}
    (h : p.table.declaredAt? name ≠ none) (l : Location) :
    ∃ e q, requireFresh what name l p = (.error e, q) ∧ p.SameStores q := by
  have hquiet : Writing p.table (fun _ => False) (requireFresh what name l) _ :=
    .requireFresh what name l
  have hwrites := hquiet.writes_nothing rfl
  have hvalue := (hquiet p rfl).value
  cases hout : requireFresh what name l p with
  | mk out q =>
      rw [hout] at hwrites hvalue
      cases out with
      | error e => exact ⟨e, q, rfl, hwrites.sameStores⟩
      | ok u => exact absurd (hvalue u rfl) h

/-- The parameters of a method and the parenthesis behind them. -/
def signature : Action (List (String × Ty)) := do
  let params ← parameters
  consume .rightParen
  return params

theorem signature_eq_error {e : Abandoned} (h : signature p = (.error e, q)) :
    parameters p = (.error e, q) ∨
      ∃ params r, parameters p = (.ok params, r) ∧ consume .rightParen r = (.error e, q) := by
  unfold signature at h
  cases hparams : parameters p with
  | mk out r =>
      cases out with
      | error e' =>
          rw [bind_error hparams] at h
          exact .inl h
      | ok params =>
          rw [bind_ok hparams] at h
          cases hclose : consume .rightParen r with
          | mk out s =>
              cases out with
              | error e' =>
                  rw [bind_error hclose] at h
                  cases h
                  exact .inr ⟨params, r, rfl, hclose⟩
              | ok u =>
                  rw [bind_ok hclose] at h
                  cases h

/-- A signature that is abandoned has declared some parameters. -/
theorem parameters_of_signature {e : Abandoned} (h : signature p = (.error e, q)) :
    ∃ params, Pass.Parameters params p q := by
  have hparams := readsParameters p
  rcases signature_eq_error h with hout | ⟨params, r, hout, hclose⟩
  · rw [hout] at hparams
    obtain ⟨params, hparams, -⟩ := hparams
    exact ⟨params, hparams⟩
  · rw [hout] at hparams
    have hquiet : Writing r.table (fun _ => False) (consume .rightParen) := .consume _
    have hwrites := hquiet.writes_nothing rfl
    rw [hclose] at hwrites
    exact ⟨params, Pass.Parameters.quiet hparams hwrites⟩

theorem methodRest_of_signature {e : Abandoned} (h : signature p = (.error e, q)) (depth : Nat)
    (name : String) (ty : Ty) : methodRest depth name ty p = (.error e, q) := by
  unfold methodRest
  rcases signature_eq_error h with hout | ⟨params, r, hout, hclose⟩
  · rw [bind_error hout]
  · rw [bind_ok hout, bind_error hclose]

theorem methodDeclaration_of_signature {e : Abandoned} {ty : Ty} {name : String} {l : Location}
    (hfresh : p.table.declaredAt? name = none)
    (h : signature (p.advance.beginSignature name ty l) = (.error e, q)) :
    methodDeclaration ty name l p = (.error e, q.edit .closeScope) := by
  have hrequire : requireFresh .method name l p = (.ok (), p) := by
    simp [requireFresh, hfresh]
  have hrest := methodRest_of_signature h p.advance.table.depth name ty
  unfold methodDeclaration
  rw [bind_ok hrequire, bind_ok (skip_apply p), bind_ok (view_apply _ _)]
  show (methodRest _ name ty).andFinally _ (p.advance.beginSignature name ty l) = _
  rw [andFinally, hrest]

/-- Behind an abandoned signature, only the symbol of the method is new. -/
theorem stores_of_signature {e : Abandoned} {head : MethodHead}
    (hfresh : p.table.declaredAt? head.name = none)
    (h : signature (p.atParameters head) = (.error e, q)) :
    (q.edit .closeScope).code = p.code ∧ (q.edit .closeScope).table =
      p.table.withNew ⟨head.name, .method head.returnType [] none⟩ head.location := by
  obtain ⟨params, hparams⟩ := parameters_of_signature h
  have hstart := (Pass.Writes.advanceBy 3 p).sameStores
  constructor
  · rw [Pass.code_edit, hparams.code, ← hstart.code]
    simp only [Pass.atParameters, Pass.beginSignature, Pass.code_edit]
  · have hinside := hparams.inside (Table.inside_openScope _)
    rw [Pass.table_edit, Table.edit, hinside.closeScope, ← Table.declare_of_fresh hfresh,
      ← hstart.table]
    rfl

end Action

/-- An abandoned declaration of a variable or a field changes neither the table nor the code, and
neither does one of a method whose name is declared already. A method whose signature is abandoned
is entered into the innermost scope, without parameters and without an index, and nothing else. -/
theorem abandoned_declaration_keeps_stores (p : Pass) :
    (∀ e q, Action.variableDeclaration p = (.error e, q) → p.SameStores q) ∧
    (p.methodHead? = none → ∀ e q, Action.declaration p = (.error e, q) → p.SameStores q) ∧
    ∀ head, p.methodHead? = some head →
      (p.table.declaredAt? head.name ≠ none →
        ∃ e q, Action.declaration p = (.error e, q) ∧ p.SameStores q) ∧
      (p.table.declaredAt? head.name = none →
        ∀ e q, Action.signature (p.atParameters head) = (.error e, q) →
          ∃ r, Action.declaration p = (.error e, r) ∧ r.code = p.code ∧ r.table =
            p.table.withNew ⟨head.name, .method head.returnType [] none⟩ head.location) := by
  refine ⟨Action.atomic_variableDeclaration p, fun h => ?_, fun head h => ?_⟩
  · rw [Action.declaration_of_no_methodHead h]
    exact Action.atomic_fieldOnly p
  · have hread := ((Pass.Writes.advance p).trans (.advance p.advance)).sameStores
    rw [Action.declaration_of_methodHead h]
    constructor
    · intro hdeclared
      rw [← hread.table] at hdeclared
      obtain ⟨e, q, hrefused, hsame⟩ := Action.requireFresh_of_declared hdeclared head.location
      exact ⟨e, q, Action.bind_error hrefused, hread.trans hsame⟩
    · intro hfresh e q h
      refine ⟨_, Action.methodDeclaration_of_signature ?_ h, Action.stores_of_signature hfresh h⟩
      rwa [hread.table]

/-- A second method of a name, and a method with a parameter that is void. -/
theorem abandoned_declaration_keeps_stores_methods :
    let p := (Action.declaration (Pass.initial "int m; int m(int a)" {} Host.standard)).2
    let q := Pass.initial "int m(int a, void b)" {} Host.standard
    let head : MethodHead := ⟨.int, "m", ⟨1, 5, 4⟩⟩
    (∃ second, p.methodHead? = some second ∧ p.table.declaredAt? second.name ≠ none ∧
      ∃ e r, Action.declaration p = (.error e, r) ∧ p.SameStores r) ∧
    q.methodHead? = some head ∧ q.table.declaredAt? head.name = none ∧
    ∃ e r, Action.declaration q = (.error e, r) ∧ r.code = q.code ∧
      r.table = q.table.withNew ⟨"m", .method .int [] none⟩ ⟨1, 5, 4⟩ := by
  intro p q head
  have hsecond : p.methodHead? = some ⟨.int, "m", ⟨1, 12, 11⟩⟩ := by decide +kernel
  have hdeclared : p.table.declaredAt? "m" ≠ none := by decide +kernel
  have hhead : q.methodHead? = some head := by decide +kernel
  have hfresh : q.table.declaredAt? head.name = none := by decide +kernel
  have hvoid : (Action.signature (q.atParameters head)).1.isOk = false := by decide +kernel
  refine ⟨⟨_, hsecond, hdeclared, ?_⟩, hhead, hfresh, ?_⟩
  · exact ((abandoned_declaration_keeps_stores p).2.2 _ hsecond).1 hdeclared
  · cases hsignature : Action.signature (q.atParameters head) with
    | mk out r =>
        rw [hsignature] at hvoid
        cases out with
        | ok _ => cases hvoid
        | error e =>
            have hmethod := (abandoned_declaration_keeps_stores q).2.2 head hhead
            exact ⟨e, hmethod.2 hfresh e r hsignature⟩

end OnePass
