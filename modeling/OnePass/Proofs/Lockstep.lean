import OnePass.Proofs.Coupling

/-!
All productions keep to a coupling. A production looks at its pass only through what a coupling
compares, so two runs of it stay in step, as far as the coupling compares them at all. Expressions
are compared up to a point where their statement goes on; statements and declarations end by
themselves and are compared as a whole.
-/

namespace OnePass
namespace Coupling

open OnePass.Action

variable {C : Coupling} {k : Extent} {p q : Pass} {l l' : Location}

/-! Expressions -/

theorem follows_operate {rule : OperandRule} (hl : C.Near l l') {left right : Ty} :
    C.Follows k (operate rule l left right) (operate rule l' left right) := by
  refine (Follows.require _ _).bind fun _ => ?_
  split
  · exact .fail _
  · exact .pure _
  · exact (Follows.warn hl _).bind fun _ => .pure _

/-- The second action follows the first one up to a point inside of a statement. -/
def logic (C : Coupling) : Logic where
  Origin := { l : Location × Location // C.Near l.1 l.2 }
  first l := l.1.1
  second l := l.1.2
  Means _ _ := True
  Careful := True
  On p _ m m' := C.FollowsAt .inside m m' p
  Begun p _ m m' := C.FollowsAt .inside m m' p
  pure p _ a := Follows.pure a p
  bind hm hf := hm.bind fun a r _ => hf a r
  begun_bind hm hf := hm.bind fun a r _ => hf a r
  on_of_begun := id
  fail p _ c := Follows.fail c p
  failAt p l c := Follows.failAt l.2 c p
  emit {p _ i} _ _ := Follows.emit i p
  operated {_ p l _ _ _ i _ _} _ _ hf :=
    ((follows_operate l.2).bind fun ty => (Follows.emit i).bind fun _ => hf ty) p
  bound p _ name m :=
    Follows.update (fun p => ⟨.of_step (.bind p name m), rfl⟩) (fun _ _ hq => C.bound hq name m) p
  peek_bind h := h.peek_bind (C.ends_of_steps h.steps)
  begun_peek_bind h := h.peek_bind (C.ends_of_steps h.steps)
  advance_bind {_ p _ _ _ _} ht _ h :=
    Ahead.advance_bind (fun l l' hl => h ⟨(l, l'), hl⟩) p (Pass.remaining_pos ht)
  resolve_bind {_ p _ _ _ _} h hnone :=
    Follows.resolve_bind (fun found => h found fun _ _ => trivial) (fun q => (hnone q).2) p
  type p _ := Follows.type p
  startsType_bind {_ p _ _ _} h hrefuses :=
    .startsType_bind (h true) (h false) (fun hlost => (hrefuses trivial p hlost).2) id
  recurse h l i := Follows.recurse (fun more more' ih i => h more more' (fun _ => ih) l i) i

theorem follows_expression : C.Follows .inside expression expression := by
  refine .recurse_refusing refuses_production (fun f g hn hrefuses i => ?_) _
  have hinside : ∀ l j, C.logic.Holds l (f j) (g j) := fun _ => hn
  have hstart : C.Near .start .start := C.near_refl _
  exact Logic.begins_production (o := Subtype.mk (_, _) hstart) hinside (fun _ => hrefuses) i

theorem refuses_expression : expression.Refuses := by
  intro p h
  rw [expression, recurse_apply]
  exact refuses_production _ _ p h

/-! Statements -/

section Statements

variable {nested nested' : Option LoopLabels → Action Unit} {loop : Option LoopLabels}

theorem follows_variableDeclaration :
    C.Follows k variableDeclaration variableDeclaration := by
  refine Follows.type.bind fun ty => .identifier_bind fun name l l' hl => ?_
  refine (Follows.requireAt _ hl _).bind fun _ => (Follows.requireFresh hl _ _).bind fun _ => ?_
  refine (Follows.consume _).bind fun _ => .bind (.view fun p q hq => ?_) fun index => ?_
  · obtain ⟨name, hcode⟩ := C.code hq
    rw [hcode, Code.locals_renameEntry]
  · exact (Follows.perform _).bind fun _ => .edit (.declare _ hl)

theorem follows_condition : C.Follows k condition condition := by
  refine (Follows.consume _).bind fun _ => follows_expression.close (fun ty => ?_) fun ty => ?_
  · exact (Follows.require _ _).bind fun _ => .consume _
  · exact .require_bind (.consume _)

/-- An item of a block is a declaration in both runs, or a statement in both. -/
theorem follows_blockItems (hn : ∀ loop, C.Follows k (nested loop) (nested' loop))
    (hrefuses : ∀ loop, (nested loop).Refuses) :
    C.Follows k (blockItems nested loop) (blockItems nested' loop) := by
  refine .recurse (fun more more' hmore _ => ?_) ()
  refine .peek_bind_whole (.consume _) (.consume _) fun token => ?_
  split
  · exact (Follows.consume _).ahead
  · exact (Follows.consume _).ahead
  · intro p hp
    refine .startsType_bind ?_ ?_ ?_ fun hend => C.inside_of_ends hend (.inl hp)
    · exact (follows_variableDeclaration.attempt.bind fun _ => hmore ()) p
    · exact ((hn loop).attempt.bind fun _ => hmore ()) p
    · exact fun hlost => (hmore () _).steps.errors (hrefuses loop p hlost).2

theorem follows_block (hn : ∀ loop, C.Follows k (nested loop) (nested' loop))
    (hrefuses : ∀ loop, (nested loop).Refuses) :
    C.Follows k (block nested loop) (block nested' loop) := by
  refine (Follows.consume _).bind fun _ => (Follows.edit .openScope).bind fun _ => ?_
  refine (Follows.perform _).bind fun _ => (follows_blockItems hn hrefuses).andFinally ?_ ?_
  · exact fun p => (Pass.Idles.perform p _).trans (.edit _ _)
  · exact fun p q hq => C.edit (C.perform hq _) .closeScope

theorem ahead_ifStatement (hn : ∀ loop, C.Follows k (nested loop) (nested' loop)) :
    C.Ahead k (ifStatement nested loop) (ifStatement nested' loop) := by
  have hbranch := (hn loop).attempt
  refine Ahead.skip.bind fun _ => follows_condition.bind fun _ => ?_
  refine Follows.newLabel.bind fun otherwise => (Follows.emit _).bind fun _ => ?_
  refine hbranch.bind fun _ => .else_bind ?_ (.markLabel _)
  refine Follows.newLabel.bind fun done => (Follows.emit _).bind fun _ => ?_
  exact (Follows.markLabel _).bind fun _ => hbranch.bind fun _ => .markLabel _

theorem ahead_whileStatement (hn : ∀ loop, C.Follows k (nested loop) (nested' loop)) :
    C.Ahead k (whileStatement nested) (whileStatement nested') := by
  refine Ahead.skip.bind fun _ => Follows.newLabel.bind fun again => ?_
  refine Follows.newLabel.bind fun exit => (Follows.markLabel _).bind fun _ => ?_
  have hcondition : C.Follows k (condition.ifAbandoned (·.perform (.markLabel exit)))
      (condition.ifAbandoned (·.perform (.markLabel exit))) :=
    follows_condition.ifAbandoned (fun p => .perform p _) fun _ _ hq => C.perform hq _
  refine hcondition.bind fun _ => (Follows.emit _).bind fun _ => (hn _).attempt.bind fun _ => ?_
  exact (Follows.emit _).bind fun _ => .markLabel _

theorem ahead_loopStatement (hn : ∀ loop, C.Follows k (nested loop) (nested' loop)) :
    C.Ahead k (loopStatement nested) (loopStatement nested') := by
  refine Ahead.skip.bind fun _ => Follows.newLabel.bind fun again => ?_
  refine Follows.newLabel.bind fun exit => (Follows.markLabel _).bind fun _ => ?_
  refine (hn _).attempt.bind fun _ => (Follows.emit _).bind fun _ => ?_
  refine (Follows.markLabel _).bind fun _ => ?_
  exact .accept_bind (.pure _) (.failHere _) (.inr (.failHere _))

theorem ahead_returnNothing (hl : C.Near l l') {ty : Ty} :
    C.Ahead k (returnNothing l ty) (returnNothing l' ty) := by
  refine .idle_bind (.emit .ret) ?_ fun _ => .idle_bind (.requireAt _ hl _) ?_ fun _ => .skip
  · rintro p _ r ⟨⟩
    rfl
  · intro p _ r h
    rw [(requireAt_eq_ok.mp h).2]

theorem follows_returnValue (hl : C.Near l l') {ty : Ty} :
    C.Follows k (returnValue l ty) (returnValue l' ty) := by
  have hexpression : C.Follows .inside (expression.ifAbandoned (·.perform (.emit .ret)))
      (expression.ifAbandoned (·.perform (.emit .ret))) :=
    follows_expression.ifAbandoned (fun p => .perform p _) fun _ _ hq => C.perform hq _
  refine hexpression.close (fun found => ?_) fun found => ?_
  · split
    · exact (Follows.emit _).bind fun _ => .failAt hl _
    · split
      · exact (Follows.emit? _).bind fun _ => (Follows.emit _).bind fun _ => .consume _
      · exact (Follows.emit _).bind fun _ => .fail _
  · split
    · exact .emit_bind (.failAt _ _)
    · split
      · exact .emit?_bind (.emit_bind (.consume _))
      · exact .emit_bind (.fail _)

theorem refuses_returnValue {ty : Ty} : (returnValue l ty).Refuses := by
  have hexpression : (expression.ifAbandoned (·.perform (.emit .ret))).Refuses := by
    intro p hp
    have hrejected := refuses_expression p hp
    unfold Action.ifAbandoned
    cases h : expression p with
    | mk out q =>
        rw [h] at hrejected
        obtain ⟨rfl, herrors⟩ := hrejected
        exact ⟨rfl, by rwa [Pass.diagnostics_perform]⟩
  exact hexpression.bind

theorem ahead_returnStatement : C.Ahead k returnStatement returnStatement := by
  refine .advance_bind fun l l' hl => .bind (.view fun p q hq => ?_) fun ty => ?_
  · obtain ⟨name, hcode⟩ := C.code hq
    rw [hcode, Code.returnType_renameEntry]
  · exact .atMark_bind (ahead_returnNothing hl) (follows_returnValue hl) (.inr refuses_returnValue)

theorem ahead_jump {word : Keyword} {target : Option Label} :
    C.Ahead k (jump word target) (jump word target) := by
  refine .advance_bind fun l l' hl => ?_
  cases target with
  | none => exact .failAt hl _
  | some label => exact (Follows.emit _).bind fun _ => .consume _

theorem follows_expressionStatement : C.Follows k expressionStatement expressionStatement := by
  refine follows_expression.close (fun ty => ?_) fun ty => ?_
  · split
    · exact .consume _
    · exact (Follows.emit _).bind fun _ => .consume _
  · split
    · exact .consume _
    · exact .emit_bind (.consume _)

theorem refuses_expressionStatement : expressionStatement.Refuses :=
  refuses_expression.bind

theorem refuses_statementBody (nested : Option LoopLabels → Action Unit)
    (loop : Option LoopLabels) : (statementBody nested loop).Refuses := by
  intro p h
  unfold statementBody
  rw [bind_ok (peek_apply p)]
  rcases h.current_cases with hcurrent | ⟨name, hcurrent, -⟩ <;>
    simpa only [hcurrent] using refuses_expressionStatement p h

theorem follows_statementBody (hn : ∀ loop, C.Follows k (nested loop) (nested' loop))
    (hrefuses : ∀ loop, (nested loop).Refuses) (loop : Option LoopLabels) :
    C.Follows k (statementBody nested loop) (statementBody nested' loop) := by
  refine .peek_bind_whole follows_expressionStatement refuses_expressionStatement fun token => ?_
  split
  · exact (follows_block hn hrefuses).ahead
  · exact .skip
  · split
    · exact ahead_ifStatement hn
    · exact ahead_whileStatement hn
    · exact ahead_loopStatement hn
    · exact ahead_returnStatement
    · exact ahead_jump
    · exact ahead_jump
    · exact (Follows.fail _).ahead
    · exact (Follows.fail _).ahead
  · exact follows_expressionStatement.ahead

end Statements

theorem follows_statement (loop : Option LoopLabels) :
    C.Follows k (statement loop) (statement loop) :=
  .recurse_refusing refuses_statementBody (fun _ _ => follows_statementBody) loop

theorem refuses_statement (loop : Option LoopLabels) : (statement loop).Refuses := by
  intro p h
  rw [statement, recurse_apply]
  exact refuses_statementBody _ _ p h

/-! Programs -/

theorem follows_arraySuffix : C.Follows .inside arraySuffix arraySuffix := by
  refine .accept_bind (.peek_bind fun token => ?_) (.pure _) (.inl rfl)
  split
  · refine (Follows.require _ _).bind fun _ => Follows.skip.bind fun _ => ?_
    exact (Follows.consume _).bind fun _ => .pure _
  · exact .failHere _

theorem follows_fieldDeclaration {ty : Ty} {name : String} (hl : C.Near l l') :
    C.Follows k (fieldDeclaration ty name l) (fieldDeclaration ty name l') := by
  refine follows_arraySuffix.close (fun size => ?_) fun size => ?_
  · refine (Follows.requireAt _ hl _).bind fun _ => (Follows.requireFresh hl _ _).bind fun _ => ?_
    refine (Follows.consume _).bind fun _ => .bind (.view fun p q hq => ?_) fun index => ?_
    · obtain ⟨name, hcode⟩ := C.code hq
      rw [hcode]
      rfl
    · exact (Follows.perform _).bind fun _ => .edit (.declareField _ hl)
  · exact .requireAt_bind (.requireFresh_bind (Refuses.consume _).bind)

theorem refuses_fieldDeclaration {ty : Ty} {name : String} :
    (fieldDeclaration ty name l).Refuses := by
  intro p h
  have hnone : arraySuffix p = (.ok none, p) := by
    unfold arraySuffix acceptMark
    rw [Action.accept_bind, if_neg (h.ne_mark _)]
    rfl
  unfold fieldDeclaration
  rw [bind_ok hnone]
  exact Refuses.requireAt_bind (.requireFresh_bind (Refuses.consume _).bind) p h

theorem follows_moreParameters (params : List (String × Ty)) :
    C.Follows .inside (moreParameters params) (moreParameters params) := by
  refine .recurse (fun more more' hmore params => ?_) params
  refine Follows.type.bind fun ty => .identifier_bind fun name l l' hl => ?_
  refine (Follows.requireAt _ hl _).bind fun _ => (Follows.requireFresh hl _ _).bind fun _ => ?_
  refine (Follows.edit (.declare _ hl)).bind fun _ => ?_
  exact .accept_bind (hmore _) (.pure _) (.inl rfl)

theorem follows_parameters : C.Follows .inside parameters parameters :=
  .atMark_bind (Follows.pure _).ahead (follows_moreParameters []) (.inl rfl)

theorem coupled_bindParameter (h : C.Coupled p q) (name : String) (ordinal : Nat) (ty : Ty) :
    C.Coupled (bindParameter name ordinal ty p) (bindParameter name ordinal ty q) := by
  obtain ⟨entry, hcode⟩ := C.code h
  have hperform := C.perform h (.addParam name ordinal ty)
  unfold bindParameter
  dsimp only
  rw [(C.table hperform).symbolAt, (C.table hperform).depth, hcode, Code.params_renameEntry]
  split
  · exact C.complete hperform _ _ _
  · exact hperform

theorem coupled_bindParameters (h : C.Coupled p q) (params : List (String × Ty)) (ordinal : Nat) :
    C.Coupled (bindParameters params ordinal p) (bindParameters params ordinal q) := by
  induction params generalizing ordinal p q with
  | nil => exact h
  | cons param params ih => exact ih (coupled_bindParameter h _ _ _) _

theorem coupled_completeMethod (h : C.Coupled p q) (depth : Nat) (name : String)
    (types : List Ty) (index : Nat) :
    C.Coupled (completeMethod depth name types index p)
      (completeMethod depth name types index q) := by
  unfold completeMethod
  rw [(C.table h).symbolAt]
  split
  · exact C.complete h _ _ _
  · exact h

theorem follows_methodBody : C.Follows k methodBody methodBody := by
  refine .accept_bind ?_ (.failHere _) (.inr (.failHere _))
  exact follows_blockItems follows_statement refuses_statement

theorem follows_methodRest {depth : Nat} {name : String} {ty : Ty} :
    C.Follows k (methodRest depth name ty) (methodRest depth name ty) := by
  refine follows_parameters.close (fun params => ?_) fun params => (Refuses.consume _).bind
  refine (Follows.consume _).bind fun _ => (Follows.perform _).bind fun _ => ?_
  refine .bind (.view fun p q hq => ?_) fun index => ?_
  · obtain ⟨name, hcode⟩ := C.code hq
    rw [hcode]
    rfl
  · refine .bind (.update (idles_bindParameters params 1) ?_) fun _ => ?_
    · exact fun _ _ hq => coupled_bindParameters hq _ _
    · refine .bind (.update (idles_completeMethod depth name _ index) ?_) fun _ => ?_
      · exact fun _ _ hq => coupled_completeMethod hq _ _ _ _
      · exact follows_methodBody.andFinally (fun p => .perform p _) fun _ _ hq => C.perform hq _

theorem ahead_methodDeclaration {ty : Ty} {name : String} (hl : C.Near l l') :
    C.Ahead k (methodDeclaration ty name l) (methodDeclaration ty name l') := by
  refine .idle_bind (.requireFresh hl _ _) ?_ fun _ => Ahead.skip.bind fun _ => ?_
  · intro p _ r h
    cases hfirst : p.table.declaredAt? name with
    | none =>
        rw [requireFresh_of_none hfirst] at h
        cases h
        rfl
    | some first => simp [requireFresh, hfirst] at h
  · refine .bind (.view fun p q hq => (C.table hq).depth) fun depth => ?_
    refine (Follows.edit (.declare _ hl)).bind fun _ => (Follows.edit .openScope).bind fun _ => ?_
    exact follows_methodRest.andFinally (fun p => .edit p _) fun _ _ hq => C.edit hq .closeScope

theorem follows_declaration : C.Follows k declaration declaration := by
  refine Follows.type.bind fun ty => .identifier_bind fun name l l' hl => ?_
  refine .atMark_bind (ahead_methodDeclaration hl) (follows_fieldDeclaration hl) (.inr ?_)
  exact refuses_fieldDeclaration

/-- A closing brace that an earlier error has left over is noted in both runs. -/
theorem followsAt_skipping (hp : 0 < p.remaining) (h : p.diagnostics.hasErrors) (r : Remark) :
    C.FollowsAt k (view (fun p => p.input.here) >>= fun l => note l r >>= fun _ => skip)
      (view (fun p => p.input.here) >>= fun l => note l r >>= fun _ => skip) p := by
  have hsteps := (moves_skipping h p.input.here r).steps
  refine ⟨hsteps, nofun, fun q hq hend => ⟨rfl, ?_⟩⟩
  have hinside := C.inside_of_ends (C.ends_of_steps hsteps hend) (.inl hp)
  have hnoted := C.report hq (C.here hq hinside) .note r.message
  have hskipped := C.ends_of_steps (.of_step (.advance _)) hend
  exact C.advance hnoted (C.inside_of_ends hskipped (.inl hp))

theorem ahead_programItem : C.Ahead k programItem programItem := by
  refine .peek_bind fun token p hp => .startsType_bind (follows_declaration p) ?_ ?_ ?_
  · simp only [Bool.false_eq_true, if_false]
    split
    · exact follows_statement none p
    · refine FollowsAt.bind (Follows.view (fun p q hq => ?_) p) fun hasErrors r hview => ?_
      · rw [Diagnostics.hasErrors, C.errorCount hq, Diagnostics.hasErrors]
      · obtain ⟨rfl, rfl⟩ : p.diagnostics.hasErrors = hasErrors ∧ p = r := by simpa using hview
        split
        · rename_i h
          exact followsAt_skipping hp h.1 _
        · exact Follows.fail _ p
  · intro hlost
    simp only [Bool.false_eq_true, if_false]
    split
    · exact (refuses_statement none p hlost).2
    · rw [bind_ok (view_apply _ p)]
      split
      · rename_i h
        have herrors : 0 < p.diagnostics.errorCount := by
          simpa [Diagnostics.hasErrors, Nat.pos_iff_ne_zero] using h.1
        exact (moves_skipping h.1 _ _).steps.errors herrors
      · exact (rejected_failAt _ _ p).2
  · exact fun hend => C.inside_of_ends hend (.inl hp)

/-- The items of a program up to the end of the text, which both runs reach together. -/
theorem follows_programItems (hends : ∀ p, C.Ends k p → C.Ends .inside p) :
    C.Follows k programItems programItems := by
  refine .recurse (fun more more' hmore _ p => ?_) ()
  cases ht : p.input.current? with
  | none =>
      refine FollowsAt.peek_bind ?_ (fun hend => ?_)
      · rw [ht]
        exact Follows.pure () p
      · rw [ht] at hend
        exact hends p hend
  | some t =>
      refine Ahead.peek_bind (fun token p hp => ?_) p (Pass.remaining_pos ht)
      exact (ahead_programItem p hp).attempt.bind fun _ r _ => hmore () r

end Coupling
end OnePass
