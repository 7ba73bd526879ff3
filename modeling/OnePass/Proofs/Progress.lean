import OnePass.Proofs.Descent
import OnePass.Proofs.Finishing

/-!
Progress of the pass. Every production reads a token or is at the end of the text, also when it
is abandoned, and the productions inside of it begin behind a token that it has read. So the items
of a program and of a block are read one after the other up to the end, and the pass stops there.
-/

namespace OnePass
namespace Action

variable {d k n : Nat}

/-! Expressions -/

theorem alike_operate {rule : OperandRule} {l : Location} {left right : Ty} :
    Alike 0 n (operate rule l left right) (operate rule l left right) := by
  refine (Alike.require _ _).bind fun _ => ?_
  split
  · exact (Alike.fail _).loose
  · exact .pure _
  · exact (Alike.warn _ _).bind fun _ => .pure _

/-- Both actions do the same, read a token or are at the end of the text, and have no value that
costs no token. -/
structure Starts {α : Type} (m m' : Action α) (p : Pass) : Prop where
  same : m p = m' p
  moves : p.Moves 1 (m p).2
  costs : ∀ a q, m p = (.ok a, q) → q.remaining < p.remaining

theorem Starts.bind {α β : Type} {m m' : Action α} {f f' : α → Action β} {p : Pass}
    (hm : Starts m m' p)
    (hf : ∀ a q, q.remaining < p.remaining → f a q = f' a q ∧ q.Moves 0 (f a q).2) :
    Starts (m >>= f) (m' >>= f') p := by
  obtain ⟨hsame, hmoves⟩ :=
    alike_bind_at ⟨hm.same, hm.moves⟩ fun a q h _ => hf a q (hm.costs a q h)
  refine ⟨hsame, hmoves, fun b r h => ?_⟩
  obtain ⟨a, q, hq, hr⟩ := bind_eq_ok.mp h
  have hless := hm.costs a q hq
  have hreads := (hf a q hless).2.reads
  rw [hr] at hreads
  exact Nat.lt_of_le_of_lt hreads hless

theorem starts_advance {p : Pass} {t : Token} (h : p.input.current? = some t) :
    Starts advance advance p := by
  refine ⟨rfl, .advance p, ?_⟩
  rintro _ _ ⟨⟩
  have := Pass.remaining_pos h
  rw [p.remaining_advance]
  omega

/-- Actions that do the same with fewer than `n` tokens left. Those that a production begins with do
so with one token more, since the productions inside begin behind it. -/
def Logic.alike (n : Nat) : Logic where
  Origin := Location
  first l := l
  second l := l
  Means _ _ := True
  Careful := False
  On p _ m m' := p.remaining < n → m p = m' p ∧ p.Moves 0 (m p).2
  Begun p _ m m' := p.remaining ≤ n → Starts m m' p
  pure p _ a := Alike.pure a p
  bind hm hf hp := alike_bind_at (hm hp) fun a q _ hq => hf a q (Nat.lt_of_le_of_lt hq hp)
  begun_bind hm hf hp := (hm hp).bind fun a q hq => hf a q (Nat.lt_of_lt_of_le hq hp)
  on_of_begun h hp := by
    obtain ⟨hsame, hmoves, -⟩ := h (Nat.le_of_lt hp)
    exact ⟨hsame, hmoves.mono (Nat.zero_le _)⟩
  fail p _ c _ := ⟨rfl, (Alike.fail c p (Nat.lt_succ_self _)).2, by simp⟩
  failAt p _ c _ := ⟨rfl, (Alike.failAt _ c p (Nat.lt_succ_self _)).2, by simp⟩
  emit {p _ i} _ _ := Alike.emit i p
  operated {_ p _ _ _ _ i _ _} _ _ hf :=
    (alike_operate.bind fun ty => (Alike.emit i).bind fun _ => hf ty) p
  bound p _ name m := Alike.update (fun p => ⟨.of_step (.bind p name m), rfl⟩) p
  peek_bind h := h
  begun_peek_bind {_ p _ _ _} h hp := ⟨(h hp).same, (h hp).moves, (h hp).costs⟩
  advance_bind ht _ h hp :=
    (starts_advance ht).bind fun l q hq => h l q (Nat.lt_of_lt_of_le hq hp)
  resolve_bind {_ p _ name _ _} h _ :=
    (Alike.resolve name).bind (fun found => h found fun _ _ => trivial) p
  type p _ := Alike.type.loose p
  startsType_bind h _ := h _
  recurse h l i := Alike.recurse_guarded (fun more more' ih i => h more more' (fun _ => ih) l i) i

section Productions

variable {nested nested' : Nonterminal → Action Ty}

theorem alike_of_begins {α : Type} {m m' : Action α} {l : Location}
    (h : (Logic.alike n).Begins l m m') : Alike 1 (n + 1) m m' := by
  intro p hp
  obtain ⟨hsame, hmoves, -⟩ : Starts m m' p := h p (Nat.le_of_lt_succ hp)
  exact ⟨hsame, hmoves⟩

theorem holds_nested (h : ∀ j, Alike 1 n (nested j) (nested' j)) (l : Location)
    (j : Nonterminal) : (Logic.alike n).Holds l (nested j) (nested' j) :=
  (h j).loose

theorem alike_simpleBody (h : ∀ j, Alike 1 n (nested j) (nested' j)) :
    Alike 1 (n + 1) (simpleBody nested) (simpleBody nested') :=
  alike_of_begins (l := .start) (Logic.begins_simpleBody (holds_nested h) False.elim)

theorem alike_multiplicative (h : ∀ j, Alike 1 n (nested j) (nested' j)) :
    Alike 1 (n + 1) (multiplicative nested) (multiplicative nested') :=
  alike_of_begins (l := .start) (Logic.begins_multiplicative (holds_nested h) False.elim)

theorem alike_combine {op : AdditiveOp} {l : Location} {left right : Ty} :
    Alike 0 n (combine op l left right) (combine op l left right) :=
  Logic.holds_combine (L := .alike n) (o := l)

theorem alike_argumentsRound (h : ∀ j, Alike 1 (k + 1) (nested j) (nested' j))
    {each : Nat → Ty → Action Unit} (heach : ∀ i ty, Alike 0 (k + 1) (each i ty) (each i ty))
    {more more' : List Ty → Action (List Ty)} (hmore : ∀ args, Alike 1 k (more args) (more' args))
    (args : List Ty) :
    Alike 1 (k + 1) (argumentsRound nested each more args)
      (argumentsRound nested' each more' args) := by
  refine (h .expression).bind fun ty => (heach _ ty).bind fun _ => ?_
  exact Alike.accept_bind (hmore _).loose (.pure _)

theorem alike_factorsRound (h : ∀ j, Alike 1 k (nested j) (nested' j)) {more more' : Ty → Action Ty}
    (hmore : ∀ ty, Alike 0 k (more ty) (more' ty)) (left : Ty) :
    Alike 0 (k + 1) (factorsRound nested more left) (factorsRound nested' more' left) := by
  refine Alike.peek_bind (.pure _) fun token => ?_
  split
  · exact (Alike.pure _).ahead
  · refine (Alike.advance.ahead.bind fun l => ?_).loose
    refine ((alike_simpleBody h).mono (Nat.zero_le _) (Nat.le_succ _)).bind fun right => ?_
    exact alike_operate.bind fun ty => (Alike.emit _).bind fun _ => hmore ty

theorem alike_summandsRound (h : ∀ j, Alike 1 k (nested j) (nested' j))
    {more more' : Ty → Action Ty} (hmore : ∀ ty, Alike 0 k (more ty) (more' ty)) (left : Ty) :
    Alike 0 (k + 1) (summandsRound nested more left) (summandsRound nested' more' left) := by
  refine Alike.peek_bind (.pure _) fun token => ?_
  split
  · exact (Alike.pure _).ahead
  · refine (Alike.advance.ahead.bind fun l => ?_).loose
    refine ((alike_multiplicative h).mono (Nat.zero_le _) (Nat.le_succ _)).bind fun right => ?_
    exact alike_combine.bind fun ty => hmore ty

end Productions

theorem descends_production : Descends 1 production :=
  fun _ _ _ h i =>
    alike_of_begins (l := .start) (Logic.begins_production (holds_nested h) False.elim i)

theorem alike_production (i : Nonterminal) :
    Alike 1 n (recurse production i) (recurse production i) :=
  Alike.recurse (fun k _ => descends_production k) i

theorem alike_expression : Alike 1 n expression expression :=
  alike_production .expression

/-! Statements -/

section Statements

variable {nested nested' : Option LoopLabels → Action Unit}

theorem alike_requireFresh {what : Declared} {name : String} {l : Location} :
    Alike 0 n (requireFresh what name l) (requireFresh what name l) := by
  intro p _
  refine ⟨rfl, ?_⟩
  unfold requireFresh
  split
  · exact (Pass.Idles.refl p).moves
  · rename_i first _
    have hreport : p.Idles (p.report .error l (Complaint.alreadyDeclared what name).message) :=
      .report nofun
    refine Pass.Moves.mono (d := 1) ?_ (Nat.zero_le _)
    dsimp only
    split
    · exact hreport.moves_trans (Pass.moves_resynchronise _)
    · refine (hreport.trans (.report ?_)).moves_trans (Pass.moves_resynchronise _)
      exact fun _ => Pass.errorCount_report p l _

theorem alike_variableDeclaration : Alike 1 n variableDeclaration variableDeclaration := by
  refine Alike.type.bind fun ty => (Alike.identifier _).loose.bind fun ⟨name, l⟩ => ?_
  refine (Alike.requireAt _ _ _).bind fun _ => alike_requireFresh.bind fun _ => ?_
  refine (Alike.consume _).loose.bind fun _ => (Alike.view _).bind fun index => ?_
  exact (Alike.perform _).bind fun _ => .edit _

theorem alike_condition : Alike 1 n condition condition := by
  refine (Alike.consume _).bind fun _ => alike_expression.loose.bind fun ty => ?_
  exact (Alike.require _ _).bind fun _ => (Alike.consume _).loose

/-- Every item of a block reads a token, so the next one begins behind it. -/
theorem alike_blockRound (h : ∀ loop, Alike 1 (k + 1) (nested loop) (nested' loop))
    {loop : Option LoopLabels} {more more' : Unit → Action Unit}
    (hmore : ∀ u, Alike 1 k (more u) (more' u)) (u : Unit) :
    Alike 1 (k + 1) (blockRound nested loop more u) (blockRound nested' loop more' u) := by
  refine Alike.peek_bind (Alike.consume _) fun token => ?_
  split
  · exact (Alike.consume _).ahead
  · exact (Alike.consume _).ahead
  · refine Ahead.view_bind fun isType => ?_
    cases isType with
    | true => exact alike_variableDeclaration.attempt.ahead.bind fun _ => (hmore ()).loose
    | false => exact (h loop).attempt.ahead.bind fun _ => (hmore ()).loose

theorem alike_blockItems (h : ∀ loop, Alike 1 n (nested loop) (nested' loop))
    (loop : Option LoopLabels) : Alike 1 n (blockItems nested loop) (blockItems nested' loop) := by
  refine Alike.recurse (fun k hk more more' hmore => ?_) ()
  exact alike_blockRound (fun loop => (h loop).mono (Nat.le_refl _) hk) hmore

theorem ahead_block (h : ∀ loop, Alike 1 n (nested loop) (nested' loop))
    {loop : Option LoopLabels} : Ahead 1 n (block nested loop) (block nested' loop) := by
  refine (Alike.consume _).ahead.bind fun _ => (Alike.edit _).bind fun _ => ?_
  refine (Alike.perform _).bind fun _ => ?_
  refine (alike_blockItems h loop).loose.andFinally fun p => ?_
  exact (Pass.Idles.perform p _).trans (.edit _ _)

theorem ahead_ifStatement (h : ∀ loop, Alike 1 n (nested loop) (nested' loop))
    {loop : Option LoopLabels} :
    Ahead 1 n (ifStatement nested loop) (ifStatement nested' loop) := by
  have hbranch := (h loop).loose.attempt
  refine Alike.skip.ahead.bind fun _ => alike_condition.loose.bind fun _ => ?_
  refine Alike.newLabel.bind fun otherwise => (Alike.emit _).bind fun _ => ?_
  refine hbranch.bind fun _ => (Alike.accept _).bind fun hasElse => ?_
  cases hasElse with
  | true =>
      refine Alike.newLabel.bind fun done => (Alike.emit _).bind fun _ => ?_
      exact (Alike.perform _).bind fun _ => hbranch.bind fun _ => .perform _
  | false => exact .perform _

theorem ahead_whileStatement (h : ∀ loop, Alike 1 n (nested loop) (nested' loop)) :
    Ahead 1 n (whileStatement nested) (whileStatement nested') := by
  refine Alike.skip.ahead.bind fun _ => Alike.newLabel.bind fun again => ?_
  refine Alike.newLabel.bind fun exit => (Alike.perform _).bind fun _ => ?_
  have hcondition : Alike 0 n (condition.ifAbandoned (·.perform (.markLabel exit)))
      (condition.ifAbandoned (·.perform (.markLabel exit))) :=
    alike_condition.loose.ifAbandoned fun p => .perform p _
  refine hcondition.bind fun _ => (Alike.emit _).bind fun _ => (h _).loose.attempt.bind fun _ => ?_
  exact (Alike.emit _).bind fun _ => .perform _

theorem ahead_loopStatement (h : ∀ loop, Alike 1 n (nested loop) (nested' loop)) :
    Ahead 1 n (loopStatement nested) (loopStatement nested') := by
  refine Alike.skip.ahead.bind fun _ => Alike.newLabel.bind fun again => ?_
  refine Alike.newLabel.bind fun exit => (Alike.perform _).bind fun _ => ?_
  refine (h _).loose.attempt.bind fun _ => (Alike.emit _).bind fun _ => ?_
  refine (Alike.perform _).bind fun _ => (Alike.accept _).bind fun ended => ?_
  cases ended with
  | true => exact .pure _
  | false => exact (Alike.failHere _).loose

theorem alike_returnValue {l : Location} {ty : Ty} :
    Alike 1 n (returnValue l ty) (returnValue l ty) := by
  have hexpression : Alike 1 n (expression.ifAbandoned (·.perform (.emit .ret)))
      (expression.ifAbandoned (·.perform (.emit .ret))) :=
    alike_expression.ifAbandoned fun p => .perform p _
  refine hexpression.bind fun found => ?_
  split
  · exact (Alike.emit _).bind fun _ => (Alike.failAt _ _).loose
  · split
    · refine (Alike.emit? _).bind fun _ => (Alike.emit _).bind fun _ => ?_
      exact (Alike.consume _).loose
    · exact (Alike.emit _).bind fun _ => (Alike.fail _).loose

theorem alike_returnStatement : Alike 1 n returnStatement returnStatement := by
  refine Alike.advance.bind fun l => (Alike.view _).bind fun ty => ?_
  refine (Alike.view _).bind fun bare => ?_
  cases bare with
  | true =>
      exact (Alike.emit _).bind fun _ => (Alike.requireAt _ _ _).bind fun _ => Alike.skip.loose
  | false => exact alike_returnValue.loose

theorem alike_jump {word : Keyword} {target : Option Label} :
    Alike 1 n (jump word target) (jump word target) := by
  refine Alike.advance.bind fun l => ?_
  cases target with
  | none => exact (Alike.failAt _ _).loose
  | some label => exact (Alike.emit _).bind fun _ => (Alike.consume _).loose

theorem alike_expressionStatement : Alike 1 n expressionStatement expressionStatement := by
  refine alike_expression.bind fun ty => ?_
  split
  · exact (Alike.pure ()).bind fun _ => (Alike.consume _).loose
  · exact (Alike.emit _).bind fun _ => (Alike.consume _).loose

end Statements

theorem descends_statementBody : Descends 1 statementBody := by
  intro n f g h loop
  refine Alike.peek_bind alike_expressionStatement fun token => ?_
  split
  · exact ahead_block h
  · exact Alike.skip.ahead
  · split
    · exact ahead_ifStatement h
    · exact ahead_whileStatement h
    · exact ahead_loopStatement h
    · exact alike_returnStatement.ahead
    · exact alike_jump.ahead
    · exact alike_jump.ahead
    · exact (Alike.fail _).ahead
    · exact (Alike.fail _).ahead
  · exact alike_expressionStatement.ahead

theorem alike_statement (loop : Option LoopLabels) : Alike 1 n (statement loop) (statement loop) :=
  Alike.recurse (fun k _ => descends_statementBody k) loop

/-! Programs -/

theorem alike_arraySuffix : Alike 0 n arraySuffix arraySuffix := by
  refine (Alike.accept _).bind fun bracket => ?_
  cases bracket with
  | false => exact .pure _
  | true =>
      refine (Alike.view _).bind fun token => ?_
      split
      · refine (Alike.require _ _).bind fun _ => Alike.skip.loose.bind fun _ => ?_
        exact (Alike.consume _).loose.bind fun _ => .pure _
      · exact (Alike.failHere _).loose

theorem alike_fieldDeclaration {ty : Ty} {name : String} {l : Location} :
    Alike 0 n (fieldDeclaration ty name l) (fieldDeclaration ty name l) := by
  refine alike_arraySuffix.bind fun size => (Alike.requireAt _ _ _).bind fun _ => ?_
  refine alike_requireFresh.bind fun _ => (Alike.consume _).loose.bind fun _ => ?_
  exact (Alike.view _).bind fun index => (Alike.perform _).bind fun _ => .edit _

theorem descends_parametersRound : Descends 1 parametersRound := by
  intro n more more' hmore params
  refine Alike.type.bind fun ty => (Alike.identifier _).loose.bind fun ⟨name, l⟩ => ?_
  refine (Alike.requireAt _ _ _).bind fun _ => alike_requireFresh.bind fun _ => ?_
  exact (Alike.edit _).bind fun _ => Alike.accept_bind (hmore _).loose (.pure _)

theorem alike_moreParameters (params : List (String × Ty)) :
    Alike 1 n (moreParameters params) (moreParameters params) :=
  Alike.recurse (fun k _ => descends_parametersRound k) params

theorem alike_parameters : Alike 0 n parameters parameters := by
  refine (Alike.view _).bind fun closes => ?_
  cases closes with
  | true => exact .pure _
  | false => exact (alike_moreParameters []).loose

theorem idles_bindParameter (name : String) (ordinal : Nat) (ty : Ty) (p : Pass) :
    p.Idles (bindParameter name ordinal ty p) := by
  have hadd := Pass.Idles.perform p (.addParam name ordinal ty)
  unfold bindParameter
  dsimp only
  split
  · exact hadd.trans ⟨.of_step (.complete _ _ _ _), rfl⟩
  · exact hadd

theorem idles_bindParameters (params : List (String × Ty)) (ordinal : Nat) (p : Pass) :
    p.Idles (bindParameters params ordinal p) := by
  induction params generalizing ordinal p with
  | nil => exact .refl p
  | cons param params ih => exact (idles_bindParameter _ _ _ p).trans (ih _ _)

theorem idles_completeMethod (depth : Nat) (name : String) (types : List Ty) (index : Nat)
    (p : Pass) : p.Idles (completeMethod depth name types index p) := by
  unfold completeMethod
  split
  · exact ⟨.of_step (.complete _ _ _ _), rfl⟩
  · exact .refl p

theorem alike_methodBody : Alike 0 n methodBody methodBody := by
  refine (Alike.accept _).bind fun brace => ?_
  cases brace with
  | true => exact (alike_blockItems alike_statement none).loose
  | false => exact (Alike.failHere _).loose

theorem alike_methodRest {depth : Nat} {name : String} {ty : Ty} :
    Alike 0 n (methodRest depth name ty) (methodRest depth name ty) := by
  refine alike_parameters.bind fun params => (Alike.consume _).loose.bind fun _ => ?_
  refine (Alike.perform _).bind fun _ => (Alike.view _).bind fun index => ?_
  refine (Alike.update (idles_bindParameters params 1)).bind fun _ => ?_
  refine (Alike.update (idles_completeMethod depth name _ index)).bind fun _ => ?_
  exact alike_methodBody.andFinally fun p => .perform p _

theorem alike_methodDeclaration {ty : Ty} {name : String} {l : Location} :
    Alike 0 n (methodDeclaration ty name l) (methodDeclaration ty name l) := by
  refine alike_requireFresh.bind fun _ => Alike.skip.loose.bind fun _ => ?_
  refine (Alike.view _).bind fun depth => (Alike.edit _).bind fun _ => ?_
  exact (Alike.edit _).bind fun _ => alike_methodRest.andFinally fun p => .edit p _

theorem alike_declaration : Alike 1 n declaration declaration := by
  refine Alike.type.bind fun ty => (Alike.identifier _).loose.bind fun ⟨name, l⟩ => ?_
  refine (Alike.view _).bind fun isMethod => ?_
  cases isMethod with
  | true => exact alike_methodDeclaration
  | false => exact alike_fieldDeclaration

/-- A closing brace that an earlier error has left over is noted and skipped. -/
theorem moves_skipping {p : Pass} (h : p.diagnostics.hasErrors) (l : Location) (r : Remark) :
    Pass.Moves 1 p ((note l r >>= fun _ => skip) p).2 := by
  have herrors : 0 < p.diagnostics.errorCount := by
    simpa [Diagnostics.hasErrors, Nat.pos_iff_ne_zero] using h
  exact (Pass.Idles.report fun _ => herrors).moves_trans (.advance _)

theorem alike_programItem : Alike 1 n programItem programItem := by
  refine Alike.view_bind fun token => Alike.view_bind fun isType => ?_
  split
  · exact alike_declaration
  · split
    · exact alike_statement none
    · intro p hp
      refine ⟨rfl, ?_⟩
      rw [bind_ok (view_apply _ p)]
      split
      · rename_i h
        exact moves_skipping h.1 _ _
      · exact (Alike.fail _ p hp).2

theorem descends_programRound : Descends 0 programRound := by
  intro n more more' hmore _
  refine Alike.peek_bind (.pure _) fun token => ?_
  exact (alike_programItem.attempt.ahead.bind fun _ => hmore ()).loose

/-- The runs inside of a run begin with fewer tokens left. -/
structure Descending : Prop where
  production : Descends 1 production
  arguments (each : Nat → Ty → Action Unit) (heach : ∀ n i ty, Alike 0 n (each i ty) (each i ty)) :
    Descends 1 (argumentsRound (recurse Action.production) each)
  factors : Descends 0 (factorsRound (recurse Action.production))
  summands : Descends 0 (summandsRound (recurse Action.production))
  statement : Descends 1 statementBody
  block (loop : Option LoopLabels) : Descends 1 (blockRound Action.statement loop)
  parameters : Descends 1 parametersRound
  program : Descends 0 programRound

theorem descending : Descending where
  production := descends_production
  arguments _ heach := fun _ _ _ hmore => alike_argumentsRound alike_production (heach _) hmore
  factors := fun _ _ _ hmore => alike_factorsRound alike_production hmore
  summands := fun _ _ _ hmore => alike_summandsRound alike_production hmore
  statement := descends_statementBody
  block _ := fun _ _ _ hmore => alike_blockRound alike_statement hmore
  parameters := descends_parametersRound
  program := descends_programRound

/-- The recursive actions follow the equations of their bodies, in which nothing is guarded. -/
structure Unguarded : Prop where
  production (i : Nonterminal) :
    recurse production i = Action.production (recurse Action.production) i
  arguments (each : Nat → Ty → Action Unit) (heach : ∀ n i ty, Alike 0 n (each i ty) (each i ty))
    (args : List Ty) : moreArguments (recurse Action.production) each args =
      argumentsRound (recurse Action.production) each
        (moreArguments (recurse Action.production) each) args
  factors (left : Ty) : factors (recurse Action.production) left =
    factorsRound (recurse Action.production) (Action.factors (recurse Action.production)) left
  summands (left : Ty) : summands (recurse Action.production) left =
    summandsRound (recurse Action.production) (Action.summands (recurse Action.production)) left
  statement (loop : Option LoopLabels) :
    statement loop = statementBody Action.statement loop
  block (loop : Option LoopLabels) : blockItems Action.statement loop =
    blockRound Action.statement loop (fun _ => blockItems Action.statement loop) ()
  parameters (params : List (String × Ty)) :
    moreParameters params = parametersRound moreParameters params
  program : programItems = programRound (fun _ => programItems) ()

theorem unguarded : Unguarded where
  production := descending.production.recurse_eq
  arguments each heach := (descending.arguments each heach).recurse_eq
  factors := descending.factors.recurse_eq
  summands := descending.summands.recurse_eq
  statement := descending.statement.recurse_eq
  block loop := (descending.block loop).recurse_eq ()
  parameters := descending.parameters.recurse_eq
  program := descending.program.recurse_eq ()

/-- An action that reads a token whatever its outcome. -/
theorem remaining_lt {α : Type} {m : Action α} (h : ∀ n, Alike 1 n m m) {p : Pass}
    (hp : 0 < p.remaining) : (m p).2.remaining < p.remaining := by
  have hle := (h (p.remaining + 1) p (Nat.lt_succ_self _)).2.reads
  omega

/-- The items of a program are read up to the end of its text. -/
theorem lexemes_programItems (p : Pass) : (programItems p).2.input.lexemes = [] := by
  induction hr : p.remaining using Nat.strongRecOn generalizing p with
  | _ k ih =>
      rw [unguarded.program, programRound, bind_ok (peek_apply p)]
      cases hcurrent : p.input.current? with
      | none =>
          have hend : p.input.lexemes = [] := by simpa [Tokens.current?] using hcurrent
          exact hend
      | some t =>
          have hitem := remaining_lt (fun _ => alike_programItem) (Pass.remaining_pos hcurrent)
          exact ih _ (hr ▸ hitem) (programItem p).2 rfl

end Action

/-- A compilation stops at the end of its text. Every recursion runs itself again only with fewer
tokens left and needs no guard, and in front of a token every item of a program and of a block
reads one, whatever its outcome. So a compilation succeeds exactly if it counts no error. -/
theorem run_reads_all (source : String) (config : Config) (host : Host.Registry) :
    Action.Descending ∧ Action.Unguarded ∧
    (∀ p : Pass, 0 < p.remaining →
      (Action.programItem p).2.remaining < p.remaining ∧
      (Action.variableDeclaration p).2.remaining < p.remaining ∧
      ∀ loop, (Action.statement loop p).2.remaining < p.remaining) ∧
    (Pass.final source config host).input.lexemes = [] ∧
    ((run source config host).1 = true ↔
      (run source config host).2.diagnostics.errorCount = 0) := by
  refine ⟨Action.descending, Action.unguarded, ?_, Action.lexemes_programItems _, ?_⟩
  · intro p hp
    exact ⟨Action.remaining_lt (fun _ => Action.alike_programItem) hp,
      Action.remaining_lt (fun _ => Action.alike_variableDeclaration) hp,
      fun loop => Action.remaining_lt (fun _ => Action.alike_statement loop) hp⟩
  · rw [run_fst]
    exact decide_eq_true_iff

end OnePass
