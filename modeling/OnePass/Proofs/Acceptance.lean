import OnePass.Proofs.Grammar
import OnePass.Proofs.Progress
import OnePass.Proofs.Recognition

/-!
What the pass accepts. Where no error is counted, the tokens that an action has read can be
derived from the grammar. Faults inside of statements do not stop the ones around them, but every
fault leaves an error behind, so a program that is free of errors was read by the rules from its
first token to its last.
-/

namespace OnePass

/-! Where no error is counted, none is reported -/

namespace Event

/-- A report of an error, or a note that belongs to one. -/
def isFault : Event → Bool
  | .reported d => d.severity ≠ .warning
  | _ => false

end Event

namespace Session

/-- The number of faults that the journal tells of. -/
def faultReports (s : Session) : Nat :=
  s.journal.toList.countP Event.isFault

theorem faultReports_recordAll (s : Session) (es : List Event) :
    (s.recordAll es).faultReports = s.faultReports + es.countP Event.isFault := by
  simp [recordAll_eq, faultReports]

theorem faultReports_record (s : Session) (e : Event) :
    (s.record e).faultReports = s.faultReports + if e.isFault then 1 else 0 := by
  simp [record, faultReports, List.countP_append, List.countP_singleton]

theorem countP_requestEvents (c : Code) (r : Code.Request) :
    (requestEvents c r).countP Event.isFault = 0 := by
  cases r <;> simp only [requestEvents] <;> (try split) <;> rfl

theorem countP_editEvents (t : Table) (e : Table.Edit) :
    (editEvents t e).countP Event.isFault = 0 := by
  cases e <;> simp only [editEvents] <;> (try split) <;> rfl

theorem countP_resolveEvents (t : Table) (name : String) :
    (resolveEvents t name).countP Event.isFault = 0 := by
  unfold resolveEvents
  split
  · rfl
  · split <;> rfl

end Session

namespace Pass

variable {p q r : Pass}

theorem faultReports_meet (p : Pass) : p.meet.faultReports = p.faultReports := by
  unfold meet
  split
  · rename_i e he
    obtain ⟨l, -, hl⟩ := Option.bind_eq_some_iff.mp he
    have hno : e.isFault = false := by
      unfold Event.ofLexeme? at hl
      split at hl <;> cases hl
      rfl
    simp [Session.faultReports_record, hno]
  · rfl

/-- No fault is reported from `p` to `q`, if none is counted up to `q`. -/
def Clean (p q : Pass) : Prop :=
  q.diagnostics.errorCount = 0 →
    p.diagnostics.errorCount = 0 ∧ q.faultReports = p.faultReports

theorem Clean.of_eq (hcount : q.diagnostics.errorCount = p.diagnostics.errorCount)
    (hreports : q.faultReports = p.faultReports) : p.Clean q :=
  fun hnone => ⟨hcount ▸ hnone, hreports⟩

theorem Clean.trans (h : p.Clean q) (h' : q.Clean r) : p.Clean r := by
  intro hnone
  obtain ⟨hq, hreports'⟩ := h' hnone
  obtain ⟨hp, hreports⟩ := h hq
  exact ⟨hp, hreports'.trans hreports⟩

theorem clean_report (p : Pass) {severity : Severity} (l : Location) (message : String)
    (h : severity = .note → 0 < p.diagnostics.errorCount) :
    p.Clean (p.report severity l message) := by
  cases severity with
  | error => exact fun hnone => absurd hnone (Nat.ne_of_gt (errorCount_report p l message))
  | note => exact fun hnone => absurd hnone (Nat.ne_of_gt (h rfl))
  | warning => exact .of_eq rfl (Session.faultReports_recordAll _ _)

theorem Step.clean (h : Step p q) : p.Clean q := by
  cases h with
  | advance => exact .of_eq (by simp) (faultReports_meet _)
  | perform r =>
      refine .of_eq (by simp) ((Session.faultReports_recordAll _ _).trans ?_)
      rw [Session.countP_requestEvents, Nat.add_zero]
  | edit e =>
      refine .of_eq (by simp) ((Session.faultReports_recordAll _ _).trans ?_)
      rw [Session.countP_editEvents, Nat.add_zero]
  | report severity l message h => exact clean_report p l message h
  | resolve name =>
      refine .of_eq ?_ ((Session.faultReports_recordAll _ _).trans ?_)
      · rw [resolved, Session.diagnostics_recordAll]
      · rw [Session.countP_resolveEvents, Nat.add_zero]
  | bind name m => exact .of_eq rfl (Session.faultReports_record _ _)
  | complete depth name symbol => exact .of_eq rfl rfl

theorem Steps.clean (h : p.Steps q) : p.Clean q := by
  induction h with
  | refl => exact .of_eq rfl rfl
  | tail _ hstep ih => exact ih.trans hstep.clean

end Pass

/-! Tokens that are read without an error -/

namespace Action

open Grammar

variable {α β : Type} {e : Ebnf} {es es' : List Ebnf} {p q : Pass} {m : Action α}
  {out : Except Abandoned α × Pass}

/-- Where no error has been counted in the end, the action has given a value, and what it has read
is derived by the sequence. -/
structure Accepted (es : List Ebnf) (p : Pass) (out : Except Abandoned α × Pass) : Prop where
  steps : p.Steps out.2
  derives : out.2.diagnostics.errorCount = 0 → ∃ a ts, out.1 = .ok a ∧
    Derives (.sequence es) ts ∧ tokens p.input.lexemes = ts ++ tokens out.2.input.lexemes

namespace Accepted

theorem mono (h : Accepted es p out)
    (hes : ∀ ts, Derives (.sequence es) ts → Derives (.sequence es') ts) :
    Accepted es' p out := by
  refine ⟨h.steps, fun hnone => ?_⟩
  obtain ⟨a, ts, ha, hts, hread⟩ := h.derives hnone
  exact ⟨a, ts, ha, hes ts hts, hread⟩

theorem nonterminal {n : Grammar.Nonterminal} (h : Accepted [rule n] p out) :
    Accepted [.nonterminal n] p out :=
  h.mono fun _ hts => .singleton (.nonterminal hts.of_singleton)

/-- An error that has been counted stays so. -/
theorem of_errors (h : p.Steps out.2) (hp : 0 < p.diagnostics.errorCount) :
    Accepted es p out := by
  refine ⟨h, fun hnone => ?_⟩
  exact absurd (h.clean hnone).1 (Nat.ne_of_gt hp)

theorem failAt (l : Location) (c : Complaint) :
    Accepted es p ((Action.failAt l c : Action α) p) := by
  have hreport : p.Steps (p.report .error l c.message) := .of_step (.report _ _ _ _ nofun)
  have hskip := (Pass.moves_resynchronise (p.report .error l c.message)).steps
  refine ⟨hreport.trans hskip, fun hnone => ?_⟩
  exact absurd (hskip.clean hnone).1 (Nat.ne_of_gt (Pass.errorCount_report p l c.message))

theorem fail (c : Complaint) : Accepted es p ((Action.fail c : Action α) p) :=
  failAt _ c

theorem failHere (c : Option Token → Complaint) :
    Accepted es p ((Action.failHere c : Action α) p) :=
  fail _

theorem pure (a : α) : Accepted [] p ((Pure.pure a : Action α) p) :=
  ⟨.refl, fun _ => ⟨a, [], rfl, .nil, rfl⟩⟩

theorem idle {a : α} (h : m p = (.ok a, q)) (hq : p.Idles q) : Accepted [] p (m p) := by
  rw [h]
  exact ⟨hq.steps, fun _ => ⟨a, [], rfl, .nil, by rw [hq.input, List.nil_append]⟩⟩

theorem bind_append {f : α → Action β} (hm : Accepted es p (m p))
    (hf : ∀ a q, m p = (.ok a, q) → Accepted es' q (f a q)) :
    Accepted (es ++ es') p ((m >>= f) p) := by
  cases h : m p with
  | mk out q =>
      rw [h] at hm
      cases out with
      | error _ =>
          rw [bind_error h]
          refine ⟨hm.steps, fun hnone => ?_⟩
          obtain ⟨a, -, ha, -⟩ := hm.derives hnone
          cases ha
      | ok a =>
          rw [bind_ok h]
          have hrest := hf a q h
          refine ⟨hm.steps.trans hrest.steps, fun hnone => ?_⟩
          obtain ⟨-, ts, -, hts, hread⟩ := hm.derives (hrest.steps.clean hnone).1
          obtain ⟨b, us, hb, hus, hread'⟩ := hrest.derives hnone
          refine ⟨b, ts ++ us, hb, hts.append hus, ?_⟩
          rw [hread, List.append_assoc]
          exact congrArg _ hread'

theorem bind {f : α → Action β} (hm : Accepted [e] p (m p))
    (hf : ∀ a q, m p = (.ok a, q) → Accepted es q (f a q)) :
    Accepted (e :: es) p ((m >>= f) p) :=
  bind_append hm hf

/-- A first part that reads nothing. -/
theorem idle_bind {f : α → Action β} {a : α} (h : m p = (.ok a, q)) (hq : p.Idles q)
    (hf : Accepted es q (f a q)) : Accepted es p ((m >>= f) p) := by
  rw [bind_ok h]
  refine ⟨hq.steps.trans hf.steps, fun hnone => ?_⟩
  rw [← hq.input]
  exact hf.derives hnone

theorem emit?_bind {i : Option Instr} {f : Unit → Action β}
    (hf : ∀ q, Accepted es q (f () q)) : Accepted es p ((emit? i >>= f) p) := by
  cases i with
  | none => exact hf p
  | some i => exact idle_bind rfl (.perform p (.emit i)) (hf _)

theorem view_bind {f : α → Action β} {g : Pass → α}
    (hf : ∀ a, g p = a → Accepted es p (f a p)) : Accepted es p ((view g >>= f) p) :=
  hf (g p) rfl

theorem peek_bind {f : Option Token → Action β}
    (hf : ∀ token, p.input.current? = token → Accepted es p (f token p)) :
    Accepted es p ((peek >>= f) p) :=
  view_bind hf

theorem require_bind {condition : Prop} [Decidable condition] {c : Complaint} {f : Unit → Action β}
    (hf : Accepted es p (f () p)) : Accepted es p ((require condition c >>= f) p) := by
  unfold require
  split
  · exact hf
  · exact fail c

theorem requireAt_bind {condition : Prop} [Decidable condition] {l : Location} {c : Complaint}
    {f : Unit → Action β} (hf : Accepted es p (f () p)) :
    Accepted es p ((requireAt condition l c >>= f) p) := by
  unfold requireAt
  split
  · exact hf
  · exact failAt l c

theorem requireFresh_bind {what : Declared} {name : String} {l : Location} {f : Unit → Action β}
    (hf : Accepted es p (f () p)) : Accepted es p ((requireFresh what name l >>= f) p) := by
  have hsteps : p.Steps (requireFresh what name l p).2 :=
    (alike_requireFresh p (Nat.lt_succ_self _)).2.steps
  have hreported := (Writing.requireFresh (A := fun _ => False) what name l p rfl).abandoned
  cases hfirst : p.table.declaredAt? name with
  | none =>
      have hfresh : requireFresh what name l p = (.ok (), p) := by simp [requireFresh, hfirst]
      rw [bind_ok hfresh]
      exact hf
  | some first =>
      obtain ⟨q, hq⟩ : ∃ q, requireFresh what name l p = (.error {}, q) := by
        simp [requireFresh, hfirst]
      rw [hq] at hsteps hreported
      rw [bind_error hq]
      exact ⟨hsteps, fun hnone => absurd hnone (Nat.ne_of_gt (hreported _ rfl))⟩

theorem attempt (h : Accepted es p (m p)) : Accepted es p (Action.attempt m p) := by
  refine ⟨h.steps, fun hnone => ?_⟩
  obtain ⟨-, ts, -, hts, hread⟩ := h.derives hnone
  exact ⟨(), ts, rfl, hts, hread⟩

theorem andFinally {g : Pass → Pass} (h : Accepted es p (m p)) (hg : ∀ q : Pass, q.Idles (g q)) :
    Accepted es p (m.andFinally g p) := by
  refine ⟨h.steps.trans (hg _).steps, fun hnone => ?_⟩
  obtain ⟨a, ts, ha, hts, hread⟩ := h.derives ((hg (m p).2).steps.clean hnone).1
  exact ⟨a, ts, ha, hts, by rw [hread, Action.andFinally, (hg (m p).2).input]⟩

theorem ifAbandoned {g : Pass → Pass} (h : Accepted es p (m p)) (hg : ∀ q : Pass, q.Idles (g q)) :
    Accepted es p (m.ifAbandoned g p) := by
  unfold Action.ifAbandoned
  cases hm : m p with
  | mk out q =>
      rw [hm] at h
      cases out with
      | ok a => exact h
      | error _ =>
          refine ⟨h.steps.trans (hg q).steps, fun hnone => ?_⟩
          obtain ⟨a, -, ha, -⟩ := h.derives ((hg q).steps.clean hnone).1
          cases ha

/-- The current token is read in front. -/
theorem token_cons {t : Terminal} {token : Token} (h : p.input.current? = some token)
    (ht : t.admits token) (hrest : Accepted es p.advance out) :
    Accepted (.terminal t :: es) p out := by
  refine ⟨.head (.advance p) hrest.steps, fun hnone => ?_⟩
  obtain ⟨a, ts, ha, hts, hread⟩ := hrest.derives hnone
  refine ⟨a, token :: ts, ha, .token_cons ht hts, ?_⟩
  rw [Pass.lexemes_of_current h, tokens_cons, hread]
  rfl

theorem token {t : Terminal} {token : Token} (h : p.input.current? = some token)
    (ht : t.admits token) (a : α) :
    Accepted [.terminal t] p ((.ok a, p.advance) : Except Abandoned α × Pass) :=
  token_cons h ht (pure a)

theorem optional (h : Accepted [e] p out) : Accepted [.optional e] p out :=
  h.mono fun _ hts => .singleton (.some hts.of_singleton)

theorem optional_cons (h : Accepted es p out) : Accepted (.optional e :: es) p out :=
  h.mono fun _ hts => hts.none_cons

theorem sequence (h : Accepted es p out) : Accepted [.sequence es] p out :=
  h.mono fun _ hts => .singleton hts

/-- An alternative of a choice, counted as the rule lists them. -/
theorem alternative (i : Nat) (hi : es[i]? = some e) (h : Accepted [e] p out) :
    Accepted [.choice es] p out :=
  h.mono fun _ hts => .singleton (.alternative i hi hts.of_singleton)

theorem nothing (a : α) : Accepted [.optional e] p ((Pure.pure a : Action α) p) :=
  optional_cons (pure a)

theorem consume (mark : Punct) : Accepted [.mark mark] p (Action.consume mark p) := by
  unfold Action.consume acceptMark
  rw [accept_bind]
  split
  · rename_i h
    exact token h (by simp [Terminal.admits]) ()
  · exact failHere _

theorem identifier (what : Expectation) :
    Accepted [.terminal .identifier] p (Action.identifier what p) := by
  refine peek_bind fun found h => ?_
  split
  · exact token h rfl _
  · exact failHere _

theorem type : Accepted [.nonterminal .type] p (Action.type p) := by
  refine view_bind fun found htype => ?_
  split
  · rename_i ty
    cases hcurrent : p.input.current? with
    | none => simp [hcurrent, typeOf?] at htype
    | some t =>
        rw [hcurrent] at htype
        refine ⟨.of_step (.advance p), fun _ => ⟨ty, [t], rfl, ?_, ?_⟩⟩
        · exact .singleton (Tree.derives_type htype)
        · rw [Pass.lexemes_of_current hcurrent]
          rfl
  · exact failHere _

/-- An expression is the tokens of its tree. -/
theorem expression : Accepted [.nonterminal .expression] p (Action.expression p) := by
  refine ⟨(alike_expression p (Nat.lt_succ_self _)).2.steps, fun hnone => ?_⟩
  cases h : Action.expression p with
  | mk out q =>
      cases out with
      | error e =>
          have := (writing_expression p rfl).abandoned e (by rw [h])
          omega
      | ok ty =>
          obtain ⟨tree, r, ⟨-, -, htree, hreads⟩, -⟩ := expression_recognised h
          refine ⟨ty, tokens tree.lexemes, rfl, .singleton (tree.derives htree), ?_⟩
          rw [hreads.lexemes, tokens_append]

end Accepted

/-! Statements -/

section Statements

variable {nested : Option LoopLabels → Action Unit} {loop : Option LoopLabels}

theorem accepted_variableDeclaration :
    Accepted [.nonterminal .localVariable] p (variableDeclaration p) := by
  refine .nonterminal (.sequence ?_)
  refine .bind .type fun ty p₁ _ => .bind (.identifier _) fun (name, l) p₂ _ => ?_
  refine .requireAt_bind (.requireFresh_bind (.bind (.consume _) fun _ p₃ _ => ?_))
  refine .view_bind fun index _ => .idle_bind rfl (.perform _ _) ?_
  exact .idle rfl (.edit _ _)

theorem accepted_condition :
    Accepted [.mark .leftParen, .nonterminal .expression, .mark .rightParen] p (condition p) := by
  refine .bind (.consume _) fun _ p₁ _ => .bind .expression fun ty p₂ _ => ?_
  exact .require_bind (.consume _)

/-- The items of a block and its closing brace. -/
def blockRest : List Ebnf :=
  [.repeated (.choice [.nonterminal .localVariable, .nonterminal .statement]), .mark .rightBrace]

theorem accepted_blockItems
    (hn : ∀ loop q, Accepted [.nonterminal .statement] q (nested loop q)) :
    Accepted blockRest p (blockItems nested loop p) := by
  refine recurse_induction (C := fun _ p out => Accepted blockRest p out) ?_ ?_ () p
  · exact fun _ p => .failHere _
  · intro more ih _ p
    have hclose : Accepted blockRest p (consume .rightBrace p) :=
      (Accepted.consume _).mono fun _ hts => hts.stop_cons
    refine .peek_bind fun token _ => ?_
    split
    · exact hclose
    · exact hclose
    · refine .mono ?_ fun _ => Derives.repeated_cons
      refine .view_bind fun isType _ => ?_
      cases isType with
      | true =>
          refine .bind ?_ fun _ q _ => ih () q
          exact accepted_variableDeclaration.attempt.alternative 0 rfl
      | false =>
          refine .bind ?_ fun _ q _ => ih () q
          exact (hn loop p).attempt.alternative 1 rfl

theorem accepted_block (hn : ∀ loop q, Accepted [.nonterminal .statement] q (nested loop q)) :
    Accepted [.nonterminal .compound] p (block nested loop p) := by
  refine .nonterminal (.sequence ?_)
  refine .bind (.consume _) fun _ p₁ _ => .idle_bind rfl (.edit _ _) ?_
  refine .idle_bind rfl (.perform _ _) ?_
  exact (accepted_blockItems hn).andFinally fun p => (Pass.Idles.perform p _).trans (.edit _ _)

theorem accepted_ifStatement (hn : ∀ loop q, Accepted [.nonterminal .statement] q (nested loop q))
    (h : p.input.current? = some (.keyword .ifWord)) :
    Accepted [.nonterminal .statement] p (ifStatement nested loop p) := by
  refine .nonterminal (.alternative 1 rfl (.sequence ?_))
  refine .bind (.token h rfl ()) fun _ p₁ _ => ?_
  refine .bind_append accepted_condition fun _ p₂ _ => ?_
  refine .idle_bind rfl (.perform _ _) (.idle_bind rfl (.perform _ _) ?_)
  refine .bind (hn loop _).attempt fun _ p₃ _ => ?_
  unfold acceptWord
  rw [accept_bind]
  split
  · rename_i helse
    refine .optional (.sequence (.token_cons helse rfl ?_))
    refine .idle_bind rfl (.perform _ _) (.idle_bind rfl (.perform _ _) ?_)
    refine .idle_bind rfl (.perform _ _) ?_
    exact .bind (hn loop _).attempt fun _ p₄ _ => .idle rfl (.perform _ _)
  · exact .optional_cons (.idle rfl (.perform _ _))

theorem accepted_whileStatement
    (hn : ∀ loop q, Accepted [.nonterminal .statement] q (nested loop q))
    (h : p.input.current? = some (.keyword .whileWord)) :
    Accepted [.nonterminal .statement] p (whileStatement nested p) := by
  refine .nonterminal (.alternative 2 rfl (.sequence ?_))
  refine .bind (.token h rfl ()) fun _ p₁ _ => ?_
  refine .idle_bind rfl (.perform _ _) (.idle_bind rfl (.perform _ _) ?_)
  refine .idle_bind rfl (.perform _ _) ?_
  refine .bind_append (accepted_condition.ifAbandoned fun p => .perform p _) fun _ p₂ _ => ?_
  refine .idle_bind rfl (.perform _ _) (.bind (hn _ _).attempt fun _ p₃ _ => ?_)
  exact .idle_bind rfl (.perform _ _) (.idle rfl (.perform _ _))

theorem accepted_loopStatement
    (hn : ∀ loop q, Accepted [.nonterminal .statement] q (nested loop q))
    (h : p.input.current? = some (.keyword .loopWord)) :
    Accepted [.nonterminal .statement] p (loopStatement nested p) := by
  refine .nonterminal (.alternative 3 rfl (.sequence ?_))
  refine .bind (.token h rfl ()) fun _ p₁ _ => ?_
  refine .idle_bind rfl (.perform _ _) (.idle_bind rfl (.perform _ _) ?_)
  refine .idle_bind rfl (.perform _ _) (.bind (hn _ _).attempt fun _ p₂ _ => ?_)
  refine .idle_bind rfl (.perform _ _) (.idle_bind rfl (.perform _ _) ?_)
  unfold acceptWord
  rw [accept_bind]
  split
  · rename_i hended
    exact .token hended rfl _
  · exact .failHere _

theorem accepted_returnStatement (h : p.input.current? = some (.keyword .returnWord)) :
    Accepted [.nonterminal .statement] p (returnStatement p) := by
  refine .nonterminal (.alternative 4 rfl (.sequence ?_))
  refine .bind (.token h rfl _) fun l p₁ _ => .view_bind fun ty _ => .view_bind fun bare hbare => ?_
  cases bare with
  | true =>
      have hnext : p₁.input.current? = some (.punct .semicolon) := by simpa using hbare
      refine .optional_cons (.idle_bind rfl (.perform _ _) (.requireAt_bind ?_))
      exact .token (t := .mark .semicolon) (p := p₁.perform (.emit .ret)) hnext rfl ()
  | false =>
      have hvalue := Accepted.expression.ifAbandoned (p := p₁) fun p => .perform p (.emit .ret)
      refine .bind (.optional hvalue) fun _ p₂ _ => ?_
      split
      · exact .idle_bind rfl (.perform _ _) (.failAt _ _)
      · split
        · exact .emit?_bind fun _ => .idle_bind rfl (.perform _ _) (.consume _)
        · exact .idle_bind rfl (.perform _ _) (.fail _)

theorem accepted_jump {target : Option Label} {word : Keyword}
    (h : p.input.current? = some (.keyword word)) :
    Accepted [.word word, .mark .semicolon] p (jump word target p) := by
  refine .bind (.token h (by simp [Terminal.admits]) _) fun l p₁ _ => ?_
  cases target with
  | none => exact .failAt _ _
  | some label => exact .idle_bind rfl (.perform _ _) (.consume _)

theorem accepted_expressionStatement :
    Accepted [.nonterminal .statement] p (expressionStatement p) := by
  refine .nonterminal (.alternative 7 rfl (.sequence ?_))
  refine .bind (.optional .expression) fun ty p₁ _ => ?_
  split
  · exact Accepted.consume .semicolon
  · exact .idle_bind rfl (.perform _ _) (.consume _)

end Statements

/-- A statement without an error is one of the grammar, whatever the statements inside of it have
met. -/
theorem accepted_statement (loop : Option LoopLabels) (p : Pass) :
    Accepted [.nonterminal .statement] p (statement loop p) := by
  refine recurse_induction (C := fun _ p out => Accepted [.nonterminal .statement] p out) ?_ ?_
    loop p
  · exact fun _ p => .failHere _
  · intro nested hn loop p
    refine .peek_bind fun token htoken => ?_
    split
    · exact .nonterminal ((accepted_block hn).alternative 0 rfl)
    · refine .nonterminal (.alternative 7 rfl (.sequence (.optional_cons ?_)))
      exact .token htoken rfl ()
    · split
      · exact accepted_ifStatement hn htoken
      · exact accepted_whileStatement hn htoken
      · exact accepted_loopStatement hn htoken
      · exact accepted_returnStatement htoken
      · exact .nonterminal ((accepted_jump htoken).sequence.alternative 5 rfl)
      · exact .nonterminal ((accepted_jump htoken).sequence.alternative 6 rfl)
      · exact .fail _
      · exact .fail _
    · exact accepted_expressionStatement

/-! Programs -/

theorem accepted_arraySuffix :
    Accepted [.optional (.nonterminal .arraySuffix)] p (arraySuffix p) := by
  unfold arraySuffix acceptMark
  rw [accept_bind]
  split
  · rename_i hopen
    refine .optional (.nonterminal (.sequence (.token_cons hopen rfl ?_)))
    refine .peek_bind fun token htoken => ?_
    split
    · refine .require_bind (.bind (.token htoken rfl ()) fun _ p₁ _ => ?_)
      exact .bind (.consume _) fun _ p₂ _ => .pure _
    · exact .failHere _
  · exact .nothing _

/-- What stands behind the type and the name of a field or method. -/
def memberRest : Ebnf :=
  .choice [
    .sequence [.nonterminal .arraySuffix, .mark .semicolon],
    .sequence [.mark .leftParen, .nonterminal .parameters, .mark .rightParen,
      .nonterminal .compound],
    .mark .semicolon]

theorem accepted_fieldDeclaration {ty : Ty} {name : String} {l : Location} :
    Accepted [memberRest] p (fieldDeclaration ty name l p) := by
  have hfield : Accepted [.optional (.nonterminal .arraySuffix), .mark .semicolon] p
      (fieldDeclaration ty name l p) := by
    refine .bind accepted_arraySuffix fun size p₁ _ => .requireAt_bind (.requireFresh_bind ?_)
    refine .bind (.consume _) fun _ p₂ _ => .view_bind fun index _ => ?_
    refine .idle_bind rfl (.perform _ _) ?_
    exact .idle rfl (.edit _ _)
  -- The grammar has a rule of its own for a field without a size.
  refine hfield.mono fun ts hts => .singleton ?_
  obtain ⟨us, us', rfl, hsuffix, hsemicolon⟩ := hts.of_cons
  rcases hsuffix.of_optional with rfl | hsuffix
  · refine .alternative 2 rfl ?_
    exact hsemicolon.of_singleton
  · refine .alternative 0 rfl ?_
    exact .cons hsuffix hsemicolon

theorem accepted_moreParameters (params : List (String × Ty)) :
    Accepted (typed ++ [.repeated (.sequence (.mark .comma :: typed))]) p
      (moreParameters params p) := by
  refine recurse_induction (C := fun _ p out => Accepted
    (typed ++ [.repeated (.sequence (.mark .comma :: typed))]) p out) ?_ ?_ params p
  · exact fun _ p => .failHere _
  · intro more ih params p
    refine .bind .type fun ty p₁ _ => .bind (.identifier _) fun (name, l) p₂ _ => ?_
    refine .requireAt_bind (.requireFresh_bind (.idle_bind rfl (.edit _ _) ?_))
    unfold acceptMark
    rw [accept_bind]
    split
    · rename_i hcomma
      have hmore :=
        Accepted.token_cons (t := .mark .comma) hcomma rfl (ih (params ++ [(name, ty)]) _)
      refine hmore.mono fun ts hts => ?_
      obtain ⟨us, us', rfl, hnext, hrepeated⟩ := hts.of_append (.mark .comma :: typed)
      exact .singleton (.again hnext hrepeated.of_singleton)
    · exact (Accepted.pure _).mono fun _ hts => hts.stop_cons

theorem accepted_parameters : Accepted [.nonterminal .parameters] p (parameters p) := by
  refine .nonterminal (.view_bind fun closes _ => ?_)
  cases closes with
  | true => exact .nothing _
  | false => exact .optional (.sequence (accepted_moreParameters []))

theorem accepted_methodBody : Accepted [.nonterminal .compound] p (methodBody p) := by
  unfold methodBody acceptMark
  rw [accept_bind]
  split
  · rename_i hopen
    refine .nonterminal (.sequence (.token_cons hopen rfl ?_))
    exact accepted_blockItems accepted_statement
  · exact .failHere _

theorem accepted_methodDeclaration {ty : Ty} {name : String} {l : Location}
    (h : p.input.current? = some (.punct .leftParen)) :
    Accepted [memberRest] p (methodDeclaration ty name l p) := by
  refine .alternative 1 rfl (.sequence (.requireFresh_bind ?_))
  refine .bind (.token h rfl ()) fun _ p₁ _ => .view_bind fun depth _ => ?_
  refine .idle_bind rfl (.edit _ _) (.idle_bind rfl (.edit _ _) ?_)
  refine .andFinally ?_ fun p => .edit p _
  refine .bind accepted_parameters fun params p₂ _ => .bind (.consume _) fun _ p₃ _ => ?_
  refine .idle_bind rfl (.perform _ _) (.view_bind fun index _ => ?_)
  refine .idle_bind rfl (idles_bindParameters params 1 _) ?_
  refine .idle_bind rfl (idles_completeMethod _ _ _ _ _) ?_
  exact accepted_methodBody.andFinally fun p => .perform p _

theorem accepted_declaration : Accepted [.nonterminal .declaration] p (declaration p) := by
  refine .nonterminal (.sequence ?_)
  refine .bind .type fun ty p₁ _ => .bind (.identifier _) fun (name, l) p₂ _ => ?_
  refine .view_bind fun isMethod hmethod => ?_
  cases isMethod with
  | true => exact accepted_methodDeclaration (by simpa using hmethod)
  | false => exact accepted_fieldDeclaration

/-- A brace that is left over is skipped only if an error was counted before. -/
theorem accepted_programItem :
    Accepted [.choice [.nonterminal .declaration, .nonterminal .statement]] p
      (programItem p) := by
  have hsteps := (alike_programItem p (Nat.lt_succ_self _)).2.steps
  by_cases herrors : 0 < p.diagnostics.errorCount
  · exact .of_errors hsteps herrors
  · refine .peek_bind fun token _ => .view_bind fun isType _ => ?_
    split
    · exact accepted_declaration.alternative 0 rfl
    · split
      · exact (accepted_statement none p).alternative 1 rfl
      · refine .view_bind fun hasErrors hnone => ?_
        have hfalse : hasErrors = false := by
          rw [← hnone, Diagnostics.hasErrors]
          simpa using herrors
        simp only [hfalse, Bool.false_eq_true, false_and, if_false]
        exact .fail _

theorem accepted_programItems : Accepted [rule .program] p (programItems p) := by
  refine recurse_induction (C := fun _ p out => Accepted [rule .program] p out) ?_ ?_ () p
  · exact fun _ p => .failHere _
  · intro more ih _ p
    refine .peek_bind fun token _ => ?_
    split
    · exact (Accepted.pure _).mono fun _ hts => hts.stop_cons
    · refine .mono ?_ fun _ => Derives.repeated_cons
      exact .bind accepted_programItem.attempt fun _ q _ => ih () q

end Action

namespace Pass

variable (source : String) (config : Config) (host : Host.Registry)

theorem lexemes_initial :
    (initial source config host).input.lexemes = (tokenize source).lexemes := by
  simp only [initial, start, input_meet]

theorem faultReports_initial : (initial source config host).faultReports = 0 := by
  simp only [initial, start, Session.faultReports]
  rw [← Session.faultReports, faultReports_meet]
  rfl

theorem faultReports_run (h : (run source config host).2.diagnostics.errorCount = 0) :
    (run source config host).2.faultReports = 0 := by
  have hsteps : (initial source config host).Steps (final source config host) :=
    Action.accepted_programItems.steps
  rw [diagnostics_run] at h
  rw [← faultReports_initial source config host, ← (hsteps.clean h).2, run_eq]
  exact (Session.faultReports_record _ _).trans (Session.faultReports_record _ _)

end Pass

open Grammar in
/-- A program that a compilation accepts is one of the grammar, from its first token to its last.
No text of it is unrecognised, and nothing was skipped: the rest of a statement is skipped only
behind an error that is reported, and a brace only behind a note. -/
theorem run_accepts (source : String) (config : Config) (host : Host.Registry)
    (h : (run source config host).1 = true) :
    Derives (.nonterminal .program) (tokens (tokenize source).lexemes) ∧
    (∀ text, .unknown text ∉ tokens (tokenize source).lexemes) ∧
    ∀ d, .reported d ∈ (run source config host).2.journal → d.severity = .warning := by
  have hnone : (run source config host).2.diagnostics.errorCount = 0 := by
    rw [run_fst] at h
    exact of_decide_eq_true h
  have hderives : Derives (.nonterminal .program) (tokens (tokenize source).lexemes) := by
    rw [Pass.diagnostics_run] at hnone
    obtain ⟨-, ts, -, hts, hread⟩ := Action.accepted_programItems.derives hnone
    rw [Action.lexemes_programItems, tokens_nil, List.append_nil, Pass.lexemes_initial] at hread
    exact hread ▸ .nonterminal hts.of_singleton
  refine ⟨hderives, hderives.ne_unknown, fun d hd => ?_⟩
  have hzero : (run source config host).2.journal.toList.countP Event.isFault = 0 :=
    Pass.faultReports_run source config host hnone
  simpa [Event.isFault] using List.countP_eq_zero.mp hzero _ (Array.mem_toList_iff.mpr hd)

/-- A program with most of the rules of the grammar. -/
def counting : String :=
  "double total; int seen[3]; " ++
  "bool last(int n, int limit) \x7b " ++
  "if (n >= limit) return true; else return !(n < limit - 1); \x7d " ++
  "loop \x7b int i; ++seen[i]; i = i + 1; if (last(i, 3)) break; else continue; \x7d infinite " ++
  "while (total < 1.5) total = total + (double) (seen[2] - -1);"

open Grammar in
theorem run_accepts_counting :
    (run counting {} Host.standard).1 = true ∧
    Derives (.nonterminal .program) (tokens (tokenize counting).lexemes) := by
  have haccepted : (run counting {} Host.standard).1 = true := by decide +kernel
  exact ⟨haccepted, (run_accepts counting {} Host.standard haccepted).1⟩

end OnePass
