import OnePass.Proofs.Faults

/-!
Recovery from faults. No expression reads a semicolon, and whatever is wrong with it is reported
once. So the statements and declarations that end with a semicolon end behind the first one, with
or without a fault: nothing of them is left over, and nothing of the next one is skipped.
-/

namespace OnePass
namespace Action

variable {start : Tokens}

/-! Expressions -/

theorem faults_operate {rule : OperandRule} {left right : Ty} :
    Faults .inside start (operate rule start.here left right) := by
  refine (Faults.require _ _).bind fun _ => ?_
  split
  · exact .fail _
  · exact .pure _
  · exact (Faults.warn _).bind fun _ => .pure _

/-- Faults inside of a statement. -/
def Logic.faults : Logic where
  Origin := Tokens
  first := Tokens.here
  second := Tokens.here
  Means _ _ := True
  Careful := False
  On p start m _ := start.Reaches p.input → Ended .inside start p (m p)
  Begun p start m _ := start.Reaches p.input → Ended .inside start p (m p)
  pure p _ a := Faults.pure a p
  bind hm hf hp := (hm hp).bind fun a q _ hq => hf a q hq
  begun_bind hm hf hp := (hm hp).bind fun a q _ hq => hf a q hq
  on_of_begun := id
  fail p _ c := Faults.fail c p
  failAt p _ c := Faults.failAt c p
  emit {p _ i} _ _ := Faults.emit i p
  operated {_ p _ _ _ _ i _ _} _ _ hf :=
    (faults_operate.bind fun ty => (Faults.emit i).bind fun _ => hf ty) p
  bound p _ name m := Faults.silent (.update fun p => .bound p name m) p
  peek_bind h := h
  begun_peek_bind h := h
  advance_bind {_ p _ t _ _} ht hmark h :=
    FaultsAt.advance_bind (t := some t) h (by simpa using hmark) p ht
  resolve_bind {_ p _ name _ _} h _ :=
    (Faults.silent (.resolve name)).bind (fun found => h found fun _ _ => trivial) p
  type p _ := Faults.type p
  startsType_bind h _ := h _
  recurse h start i := Faults.recurse (fun more ih start i => h more more ih start i) start i

theorem faults_expression : Faults .inside start expression := by
  refine .recurse (fun nested hn start i => ?_) start _
  have hinside : ∀ start j, Logic.faults.Holds start (nested j) (nested j) := hn
  exact Logic.begins_production hinside False.elim i

/-! Statements and declarations that end with a semicolon -/

theorem faults_condition : Faults .inside start condition := by
  refine (Faults.consume (by decide)).bind fun _ => faults_expression.bind fun ty => ?_
  exact (Faults.require _ _).bind fun _ => .consume (by decide)

theorem faults_variableDeclaration : Faults .whole start variableDeclaration := by
  refine Faults.type.bind fun ty => .identifier_bind fun name s => ?_
  refine (Faults.requireAt _ _).bind fun _ => (Faults.requireFresh _ _).bind fun _ => ?_
  refine Faults.consume_semicolon.bind_silent fun _ => .bind (.view _) fun index => ?_
  exact .bind (.perform _) fun _ => .edit _

theorem faults_expressionStatement : Faults .whole start expressionStatement := by
  refine faults_expression.bind fun ty => ?_
  split
  · exact (Faults.pure ()).bind fun _ => .consume_semicolon
  · exact (Faults.emit _).bind fun _ => .consume_semicolon

theorem faults_returnNothing {ty : Ty} :
    FaultsAt (some (.punct .semicolon)) .whole start (returnNothing start.here ty) :=
  .emit_bind (.requireAt_bind .skip_semicolon)

theorem faults_returnValue {ty : Ty} : Faults .whole start (returnValue start.here ty) := by
  refine (faults_expression.ifAbandoned fun p => .perform p _).bind fun found => ?_
  split
  · exact (Faults.emit _).bind fun _ => .failAt _
  · split
    · exact (Faults.emit? _).bind fun _ => (Faults.emit _).bind fun _ => .consume_semicolon
    · exact (Faults.emit _).bind fun _ => .fail _

/-- Behind its keyword a return ends with the next semicolon. -/
theorem ended_returnStatement (p : Pass) :
    Ended .whole p.input p.advance (returnStatement p) := by
  have hrest : Faults .whole p.input (do
      let returnType ← view fun p => p.code.current.returnType
      if ← atMark .semicolon then returnNothing p.input.here returnType
      else returnValue p.input.here returnType) := by
    refine (Faults.silent (.view _)).bind fun ty => .atMark_bind ?_ ?_
    · exact faults_returnNothing
    · exact faults_returnValue
  exact hrest p.advance (p.input_advance ▸ p.input.reaches_tail)

theorem ended_jump (word : Keyword) (target : Option Label) (p : Pass) :
    Ended .whole p.input p.advance (jump word target p) := by
  have hp : p.input.Reaches p.advance.input := p.input_advance ▸ p.input.reaches_tail
  cases target with
  | none => exact Faults.failAt _ p.advance hp
  | some label =>
      exact ((Faults.emit (.branch label)).bind fun _ => .consume_semicolon) p.advance hp

theorem faults_arraySuffix : Faults .inside start arraySuffix := by
  refine (Faults.acceptMark (by decide)).bind fun bracket => ?_
  split
  · refine .peek_bind fun t => ?_
    split
    · refine .require_bind (.skip_bind ?_ (by simp))
      exact (Faults.consume (by decide)).bind fun _ => .pure _
    · exact (Faults.failHere _).faultsAt
  · exact .pure _

theorem faults_fieldDeclaration {ty : Ty} {name : String} :
    Faults .whole start (fieldDeclaration ty name start.here) := by
  refine faults_arraySuffix.bind fun size => (Faults.requireAt _ _).bind fun _ => ?_
  refine (Faults.requireFresh _ _).bind fun _ => ?_
  refine Faults.consume_semicolon.bind_silent fun _ => .bind (.view _) fun index => ?_
  exact .bind (.perform _) fun _ => .edit _

end Action

/-- What a declaration says in front of the parameters of a method. -/
structure MethodHead where
  returnType : Ty
  name : String
  location : Location
deriving DecidableEq, Repr

namespace Pass

/-- The beginning of a method: a type and a name with a parenthesis behind it. -/
def methodHead? (p : Pass) : Option MethodHead :=
  match p.input.lexemes with
  | ⟨t, _⟩ :: ⟨.ident name, l⟩ :: ⟨.punct .leftParen, _⟩ :: _ =>
    (Action.typeOf? p.table (some t)).map (⟨·, name, l⟩)
  | _ => none

/-- Whether a statement begins here that has no other one inside of it. -/
def atSimpleStatement (p : Pass) : Bool :=
  match p.input.current? with
  | some (.punct .leftBrace) => false
  | some (.keyword word) => word != .ifWord && word != .whileWord && word != .loopWord
  | _ => true

end Pass

namespace Action

variable {p : Pass}

theorem methodHead?_of_read {t : Token} {ty : Ty} {name : String}
    (ht : p.input.current? = some t) (hty : typeOf? p.table (some t) = some ty)
    (hname : p.advance.input.current? = some (.ident name))
    (hmark : p.advance.advance.input.current? = some (.punct .leftParen)) :
    p.methodHead? = some ⟨ty, name, p.advance.input.here⟩ := by
  have hlexemes := Pass.lexemes_of_current ht
  rw [Pass.lexemes_of_current hname, Pass.lexemes_of_current hmark] at hlexemes
  simp [Pass.methodHead?, hlexemes, hty]

/-- A declaration that may not be one of a method. -/
def fieldOnly : Action Unit := do
  let ty ← type
  let (name, l) ← identifier .memberName
  fieldDeclaration ty name l

theorem declaration_of_no_methodHead (h : p.methodHead? = none) : declaration p = fieldOnly p := by
  unfold declaration fieldOnly
  cases htype : type p with
  | mk out q =>
      cases out with
      | error e => rw [bind_error htype, bind_error htype]
      | ok ty =>
          rw [bind_ok htype, bind_ok htype]
          obtain ⟨t, ht, hty, rfl⟩ := type_eq_ok htype
          cases hident : identifier .memberName p.advance with
          | mk out r =>
              cases out with
              | error e => rw [bind_error hident, bind_error hident]
              | ok found =>
                  obtain ⟨name, l⟩ := found
                  rw [bind_ok hident, bind_ok hident]
                  obtain ⟨hname, -, rfl⟩ := identifier_eq_ok.mp hident
                  have hmark : p.advance.advance.input.current? ≠ some (.punct .leftParen) := by
                    intro hmark
                    cases h.symm.trans (methodHead?_of_read ht hty hname hmark)
                  dsimp only
                  rw [bind_ok (atMark_apply _ _), beq_eq_false_iff_ne.mpr hmark]
                  rfl

/-- A declaration that is not one of a method ends with its semicolon. -/
theorem ended_declaration (h : p.methodHead? = none) :
    Ended .whole p.input p (declaration p) := by
  have hfield : Faults .whole p.input fieldOnly :=
    Faults.type.bind fun ty => .identifier_bind fun name s => faults_fieldDeclaration
  rw [declaration_of_no_methodHead h]
  exact hfield p (.refl _)

theorem Ended.read_first {α : Type} {out : Except Abandoned α × Pass}
    (h : Ended .whole p.input p.advance out)
    (ht : p.input.current? ≠ some (.punct .semicolon)) : Ended .whole p.input p out :=
  h.behind (.advance (.refl _)) rfl (p.input_advance ▸ Tokens.within_tail ht)

theorem ended_statementBody {nested : Option LoopLabels → Action Unit} {loop : Option LoopLabels}
    (h : p.atSimpleStatement) : Ended .whole p.input p (statementBody nested loop p) := by
  have hp := Tokens.Reaches.refl p.input
  have hexpression : Ended .whole p.input p (expressionStatement p) :=
    faults_expressionStatement p hp
  unfold statementBody Pass.atSimpleStatement at *
  rw [bind_ok (peek_apply p)]
  cases ht : p.input.current? with
  | none => exact hexpression
  | some t =>
      rw [ht] at h
      cases t with
      | ident _ | literal _ | unknown _ => exact hexpression
      | punct mark =>
          cases mark with
          | leftBrace => cases h
          | semicolon => exact FaultsAt.skip_semicolon p ht hp
          | _ => exact hexpression
      | keyword word =>
          have hkeyword : p.input.current? ≠ some (.punct .semicolon) := by simp [ht]
          cases word with
          | ifWord | whileWord | loopWord => cases h
          | returnWord => exact (ended_returnStatement p).read_first hkeyword
          | breakWord | continueWord => exact (ended_jump _ _ p).read_first hkeyword
          | elseWord | infiniteWord => exact Faults.fail _ p hp

theorem ended_statement (h : p.atSimpleStatement) (loop : Option LoopLabels) :
    Ended .whole p.input p (statement loop p) := by
  rw [statement, recurse_apply]
  exact ended_statementBody h

end Action

/-- A statement without another one inside, a local variable and a field end with the first
semicolon from their beginning on, whether or not they are abandoned: the pass stands right behind
it, or at the end of a text that has none. -/
theorem statement_ends_behindSemicolon (p : Pass) :
    (p.atSimpleStatement → ∀ loop,
      (Action.statement loop p).2.input = p.input.behindSemicolon) ∧
    (Action.expressionStatement p).2.input = p.input.behindSemicolon ∧
    (p.input.current? = some (.keyword .returnWord) →
      (Action.returnStatement p).2.input = p.input.behindSemicolon) ∧
    (∀ word target, p.input.current? = some (.keyword word) →
      (Action.jump word target p).2.input = p.input.behindSemicolon) ∧
    (Action.variableDeclaration p).2.input = p.input.behindSemicolon ∧
    (p.methodHead? = none → (Action.declaration p).2.input = p.input.behindSemicolon) := by
  have hp := Tokens.Reaches.refl p.input
  refine ⟨fun h loop => (Action.ended_statement h loop).input_eq,
    (Action.faults_expressionStatement p hp).input_eq, fun hreturn => ?_,
    fun word target hword => ?_,
    (Action.faults_variableDeclaration p hp).input_eq,
    fun h => (Action.ended_declaration h).input_eq⟩
  · exact ((Action.ended_returnStatement p).read_first (by simp [hreturn])).input_eq
  · exact ((Action.ended_jump word target p).read_first (by simp [hword])).input_eq

/-- A return whose value is not complete, and a field whose size is not. -/
theorem statement_ends_behindSemicolon_incomplete :
    let p := Pass.initial "return 1 + ; x" {} Host.standard
    let q := Pass.initial "int f[3 ; y" {} Host.standard
    p.input.current? = some (.keyword .returnWord) ∧ q.methodHead? = none ∧
    (Action.returnStatement p).2.input.current? = some (.ident "x") ∧
    (Action.declaration q).2.input.current? = some (.ident "y") := by
  intro p q
  have hreturn : p.input.current? = some (.keyword .returnWord) := by decide +kernel
  have hfield : q.methodHead? = none := by decide +kernel
  refine ⟨hreturn, hfield, ?_, ?_⟩
  · rw [(statement_ends_behindSemicolon p).2.2.1 hreturn]
    decide +kernel
  · rw [(statement_ends_behindSemicolon q).2.2.2.2.2 hfield]
    decide +kernel

end OnePass
