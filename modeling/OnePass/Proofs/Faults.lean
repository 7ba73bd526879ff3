import OnePass.Proofs.Reports

/-!
Faults. An action that finds a fault reports it once and skips the rest of the statement with its
semicolon. Without a fault it reads tokens of the statement and reports warnings at most. Here this
is carried from the single steps to all ways of putting actions together; which productions there
are does not matter.

An action may report at a token that was read before. So it is judged from a start on: a point of
the text that has been reached already, and behind which no error was reported yet.
-/

namespace OnePass

/-- Where an action stands that gives a value: inside of the statement, or behind it. -/
def Extent.Stands : Extent → Tokens → Tokens → Prop
  | .inside, s, u => s.Within u
  | .whole, s, u => u = s.behindSemicolon

theorem Extent.Stands.within {k : Extent} {s r u : Tokens} (h : s.Within r) (h' : k.Stands r u) :
    k.Stands s u := by
  cases k with
  | inside => exact h.trans h'
  | whole => exact Eq.trans h' h.behindSemicolon

namespace Action

open Pass (Reports)
open Diagnostics (errorsIn)

variable {α β ι : Type} {k : Extent} {start s : Tokens} {t : Option Token} {p q : Pass}
  {m : Action α} {f : α → Action β}

/-- How an action that began at `p` has ended: with a value and without an error, or behind the
semicolon and with one. -/
inductive Ended (k : Extent) (start : Tokens) (p : Pass) : Except Abandoned α × Pass → Prop
  | value {a : α} {q : Pass} {ds : List Diagnostic} :
      Reports start p ds q → errorsIn ds = 0 → k.Stands p.input q.input → Ended k start p (.ok a, q)
  | abandoned {e : Abandoned} {q : Pass} {ds : List Diagnostic} :
      Reports start p ds q → errorsIn ds = 1 → q.input = p.input.behindSemicolon →
      Ended k start p (.error e, q)

/-- An action reports one error if it is abandoned, and else none. -/
def Faults (k : Extent) (start : Tokens) (m : Action α) : Prop :=
  ∀ p, start.Reaches p.input → Ended k start p (m p)

/-- The same where the current token is `t`. -/
def FaultsAt (t : Option Token) (k : Extent) (start : Tokens) (m : Action α) : Prop :=
  ∀ p, p.input.current? = t → start.Reaches p.input → Ended k start p (m p)

/-- An action that gives a value, reads nothing and reports nothing. -/
def Silent (m : Action α) : Prop :=
  ∀ p, ∃ a q, m p = (.ok a, q) ∧ p.Silent q

namespace Silent

theorem quiet {g : Pass → Pass} {a : Pass → α} (hg : ∀ p : Pass, p.Silent (g p)) :
    Silent (fun p => (.ok (a p), g p)) :=
  fun p => ⟨_, _, rfl, hg p⟩

theorem pure (a : α) : Silent (Pure.pure a : Action α) :=
  quiet .refl

theorem view (g : Pass → α) : Silent (Action.view g) :=
  quiet .refl

theorem update {g : Pass → Pass} (hg : ∀ p : Pass, p.Silent (g p)) : Silent (Action.update g) :=
  quiet hg

theorem perform (r : Code.Request) : Silent (Action.perform r) :=
  update fun p => .perform p r

theorem emit (i : Instr) : Silent (Action.emit i) :=
  perform (.emit i)

theorem emit? (i : Option Instr) : Silent (Action.emit? i) := by
  cases i with
  | none => exact pure ()
  | some i => exact emit i

theorem newLabel : Silent Action.newLabel :=
  quiet fun p => .perform p .newLabel

theorem edit (e : Table.Edit) : Silent (Action.edit e) :=
  update fun p => .edit p e

theorem resolve (name : String) : Silent (Action.resolve name) :=
  quiet fun p => .resolved p name

theorem bind (hm : Silent m) (hf : ∀ a, Silent (f a)) : Silent (m >>= f) := by
  intro p
  obtain ⟨a, q, h, hsilent⟩ := hm p
  obtain ⟨b, r, h', hsilent'⟩ := hf a q
  exact ⟨b, r, (bind_ok h).trans h', hsilent.trans hsilent'⟩

end Silent

/-! Putting actions together -/

/-- In both outcomes a statement ends behind its semicolon. -/
theorem Ended.input_eq {out : Except Abandoned α × Pass} (h : Ended .whole start p out) :
    out.2.input = p.input.behindSemicolon := by
  cases h with
  | value _ _ hstands => exact hstands
  | abandoned _ _ hinput => exact hinput

/-- What is done first reads tokens of the same statement and reports no error. -/
theorem Ended.behind {ds : List Diagnostic} {out : Except Abandoned α × Pass}
    (h : Ended k start q out) (hreports : Reports start p ds q) (hclean : errorsIn ds = 0)
    (hwithin : p.input.Within q.input) : Ended k start p out := by
  cases h with
  | value hreports' hclean' hstands =>
      refine .value (hreports.followed hclean hreports') ?_ (hstands.within hwithin)
      rw [Diagnostics.errorsIn_append, hclean, hclean']
  | abandoned hreports' hone hinput =>
      refine .abandoned (hreports.followed hclean hreports') ?_ ?_
      · rw [Diagnostics.errorsIn_append, hclean, hone]
      · rw [hinput, hwithin.behindSemicolon]

theorem Ended.from_earlier {out : Except Abandoned α × Pass} (h : Ended k s p out)
    (hs : start.Reaches s) : Ended k start p out := by
  cases h with
  | value hreports hclean hstands => exact .value (hreports.from_earlier hs) hclean hstands
  | abandoned hreports hone hinput => exact .abandoned (hreports.from_earlier hs) hone hinput

theorem Ended.bind (hm : Ended .inside start p (m p))
    (hf : ∀ a q, m p = (.ok a, q) → start.Reaches q.input → Ended k start q (f a q)) :
    Ended k start p ((m >>= f) p) := by
  cases h : m p with
  | mk out q =>
      rw [h] at hm
      cases hm with
      | value hreports hclean hwithin =>
          rw [bind_ok h]
          exact (hf _ q h hreports.reaches).behind hreports hclean hwithin
      | abandoned hreports hone hinput =>
          rw [bind_error h]
          exact .abandoned hreports hone hinput

theorem FaultsAt.bind (hm : FaultsAt t .inside start m) (hf : ∀ a, Faults k start (f a)) :
    FaultsAt t k start (m >>= f) :=
  fun p ht hp => (hm p ht hp).bind fun a q _ hq => hf a q hq

namespace Faults

theorem faultsAt (h : Faults k start m) : FaultsAt t k start m :=
  fun p _ hp => h p hp

theorem bind (hm : Faults .inside start m) (hf : ∀ a, Faults k start (f a)) :
    Faults k start (m >>= f) :=
  fun p hp => (hm p hp).bind fun a q _ hq => hf a q hq

theorem silent (h : Silent m) : Faults .inside start m := by
  intro p hp
  obtain ⟨a, q, hm, hsilent⟩ := h p
  rw [hm]
  exact .value (.silent hsilent hp) rfl (hsilent.input ▸ .refl _)

/-- What follows in silence does not change where the action stands. -/
theorem bind_silent (hm : Faults k start m) (hf : ∀ a, Silent (f a)) :
    Faults k start (m >>= f) := by
  intro p hp
  have hended := hm p hp
  cases h : m p with
  | mk out q =>
      rw [h] at hended
      cases hended with
      | abandoned hreports hone hinput =>
          rw [bind_error h]
          exact .abandoned hreports hone hinput
      | @value a _ _ hreports hclean hstands =>
          obtain ⟨b, r, hf, hsilent⟩ := hf a q
          rw [bind_ok h, hf]
          have hreports' := hreports.followed hclean (.silent hsilent hreports.reaches)
          refine .value hreports' ?_ (hsilent.input ▸ hstands)
          rw [Diagnostics.errorsIn_append, hclean]
          rfl

theorem pure (a : α) : Faults .inside start (Pure.pure a : Action α) :=
  silent (.pure a)

theorem emit (i : Instr) : Faults .inside start (Action.emit i) :=
  silent (.emit i)

theorem emit? (i : Option Instr) : Faults .inside start (Action.emit? i) :=
  silent (.emit? i)

theorem ifAbandoned (hm : Faults k start m) {g : Pass → Pass} (hg : ∀ p : Pass, p.Silent (g p)) :
    Faults k start (m.ifAbandoned g) := by
  intro p hp
  have hended := hm p hp
  unfold Action.ifAbandoned
  cases h : m p with
  | mk out q =>
      rw [h] at hended
      cases hended with
      | value hreports hclean hstands => exact .value hreports hclean hstands
      | abandoned hreports hone hinput =>
          have hsilent := Reports.silent (hg q) (Tokens.Reaches.refl _)
          exact .abandoned (by simpa using hreports.trans hsilent) hone
            ((hg q).input.trans hinput)

/-! Faults -/

/-- A fault at a token that was passed before. -/
theorem ended_failAt (hs : start.Reaches s) (hp : s.Reaches p.input) (c : Complaint) :
    Ended k start p ((Action.failAt s.here c : Action α) p) :=
  .abandoned ((Pass.reports_error hs hp c.message).trans (Pass.reports_resynchronise _)) rfl
    (Pass.input_resynchronise _)

theorem failAt (c : Complaint) : Faults k start (Action.failAt start.here c : Action α) :=
  fun _ hp => ended_failAt (.refl _) hp c

theorem fail (c : Complaint) : Faults k start (Action.fail c : Action α) :=
  fun _ hp => ended_failAt hp (.refl _) c

theorem failHere (c : Option Token → Complaint) :
    Faults k start (Action.failHere c : Action α) :=
  fun p hp => fail (c p.input.current?) p hp

theorem require (condition : Prop) [Decidable condition] (c : Complaint) :
    Faults .inside start (Action.require condition c) := by
  unfold Action.require
  split
  · exact pure ()
  · exact fail c

theorem requireAt (condition : Prop) [Decidable condition] (c : Complaint) :
    Faults .inside start (Action.requireAt condition start.here c) := by
  unfold Action.requireAt
  split
  · exact pure ()
  · exact failAt c

/-- The note behind the error stands at an earlier declaration, and is no error. -/
theorem requireFresh (what : Declared) (name : String) :
    Faults .inside start (Action.requireFresh what name start.here) := by
  intro p hp
  unfold Action.requireFresh
  split
  · exact pure () p hp
  · rename_i first _
    have hreports :=
      Pass.reports_error (.refl start) hp (Complaint.alreadyDeclared what name).message
    dsimp only
    split
    · exact .abandoned (hreports.trans (Pass.reports_resynchronise _)) rfl
        (Pass.input_resynchronise _)
    · have hnoted := hreports.trans
        (Pass.reports_note (.refl _) first (Remark.firstDeclared name).message)
      exact .abandoned (hnoted.trans (Pass.reports_resynchronise _)) rfl
        (Pass.input_resynchronise _)

theorem warn (c : Caution) : Faults .inside start (Action.warn start.here c) :=
  fun _ hp => .value (Pass.reports_warning (.refl _) hp c.message) rfl (.refl _)

/-! Tokens -/

theorem peek_bind {f : Option Token → Action β} (h : ∀ t, FaultsAt t k start (f t)) :
    Faults k start (Action.peek >>= f) :=
  fun p hp => h _ p rfl hp

theorem atMark_bind {f : Bool → Action β} {mark : Punct}
    (htrue : FaultsAt (some (.punct mark)) k start (f true)) (hfalse : Faults k start (f false)) :
    Faults k start (Action.atMark mark >>= f) := by
  intro p hp
  rw [bind_ok (atMark_apply mark p)]
  by_cases h : p.input.current? = some (.punct mark)
  · simpa only [h, beq_self_eq_true] using htrue p h hp
  · simpa only [beq_eq_false_iff_ne.mpr h] using hfalse p hp

theorem ended_advance (h : p.input.current? ≠ some (.punct .semicolon))
    (hp : start.Reaches p.input) (a : α) : Ended .inside start p (.ok a, p.advance) :=
  .value (.advance hp) rfl (p.input_advance ▸ Tokens.within_tail h)

theorem accept {t : Token} (h : t ≠ .punct .semicolon) :
    Faults .inside start (Action.accept t) := by
  intro p hp
  rw [accept_apply]
  split
  · rename_i hcurrent
    exact ended_advance (by simpa [hcurrent] using h) hp true
  · exact pure false p hp

theorem acceptMark {mark : Punct} (h : mark ≠ .semicolon) :
    Faults .inside start (Action.acceptMark mark) :=
  accept (by simpa using h)

theorem consume {mark : Punct} (h : mark ≠ .semicolon) :
    Faults .inside start (Action.consume mark) := by
  refine (acceptMark h).bind fun found => ?_
  split
  · exact pure ()
  · exact failHere _

/-- The semicolon of a statement ends it, and so does the report that it is missing. -/
theorem consume_semicolon : Faults .whole start (Action.consume .semicolon) := by
  intro p hp
  unfold Action.consume Action.acceptMark
  rw [accept_bind]
  split
  · rename_i hcurrent
    refine .value (.advance hp) rfl ?_
    rw [p.input_advance]
    exact Tokens.tail_eq_behindSemicolon hcurrent
  · exact failHere _ p hp

theorem type : Faults .inside start Action.type := by
  intro p hp
  unfold Action.type
  rw [bind_ok (view_apply _ p)]
  cases hty : typeOf? p.table p.input.current? with
  | none => exact failHere _ p hp
  | some ty =>
      refine ended_advance (fun hcurrent => ?_) hp ty
      simp [hcurrent, typeOf?] at hty

theorem identifier (what : Expectation) : Faults .inside start (Action.identifier what) := by
  refine .peek_bind fun t => ?_
  split
  · refine FaultsAt.bind (fun p ht hp => ?_) fun _ => pure _
    exact ended_advance (by simp [ht]) hp _
  · exact (failHere _).faultsAt

/-- What follows a name may report at the name. -/
theorem identifier_bind {what : Expectation} {f : String × Location → Action β}
    (h : ∀ name s, Faults k s (f (name, s.here))) :
    Faults k start (Action.identifier what >>= f) := by
  intro p hp
  refine (identifier what p hp).bind fun (name, l) q hout _ => ?_
  obtain ⟨-, rfl, rfl⟩ := identifier_eq_ok.mp hout
  exact (h name p.input p.advance (p.input_advance ▸ p.input.reaches_tail)).from_earlier hp

/-- A run that the guard abandons has one fault too. -/
theorem recurse {body : (ι → Action α) → ι → Action α}
    (h : ∀ nested, (∀ start j, Faults k start (nested j)) →
      ∀ start i, Faults k start (body nested i))
    (start : Tokens) (i : ι) : Faults k start (Action.recurse body i) := by
  intro p hp
  refine recurse_induction
    (C := fun _ p out => ∀ start : Tokens, start.Reaches p.input → Ended k start p out)
    ?_ ?_ i p start hp
  · exact fun _ p start hp => failHere _ p hp
  · exact fun nested ih i p start hp => h nested (fun start j q hq => ih j q start hq) start i p hp

end Faults

namespace FaultsAt

/-- Behind a first part that reads nothing, the token is still there. -/
theorem still_bind (hm : Faults .inside start m)
    (hstill : ∀ p a q, m p = (.ok a, q) → q.input = p.input)
    (hf : ∀ a, FaultsAt t k start (f a)) : FaultsAt t k start (m >>= f) := by
  intro p ht hp
  refine (hm p hp).bind fun a q hq hreaches => hf a q ?_ hreaches
  rw [hstill p a q hq, ht]

theorem emit_bind {i : Instr} {f : Unit → Action β} (h : FaultsAt t k start (f ())) :
    FaultsAt t k start (Action.emit i >>= f) :=
  still_bind (.emit i) (fun _ _ _ hq => by cases hq; rfl) fun _ => h

theorem require_bind {condition : Prop} [Decidable condition] {c : Complaint}
    {f : Unit → Action β} (h : FaultsAt t k start (f ())) :
    FaultsAt t k start (Action.require condition c >>= f) :=
  still_bind (.require _ _) (fun _ _ _ hq => by rw [(require_eq_ok.mp hq).2]) fun _ => h

theorem requireAt_bind {condition : Prop} [Decidable condition] {c : Complaint}
    {f : Unit → Action β} (h : FaultsAt t k start (f ())) :
    FaultsAt t k start (Action.requireAt condition start.here c >>= f) :=
  still_bind (.requireAt _ _) (fun _ _ _ hq => by rw [(requireAt_eq_ok.mp hq).2]) fun _ => h

theorem skip_semicolon : FaultsAt (some (.punct .semicolon)) .whole start Action.skip :=
  fun p ht hp => .value (.advance hp) rfl (p.input_advance ▸ Tokens.tail_eq_behindSemicolon ht)

theorem skip_bind {f : Unit → Action β} (h : Faults k start (f ()))
    (ht : t ≠ some (.punct .semicolon)) : FaultsAt t k start (Action.skip >>= f) :=
  bind (fun _ hcurrent hp => Faults.ended_advance (hcurrent ▸ ht) hp ()) fun _ => h

/-- What follows a token may report at the token. -/
theorem advance_bind {f : Location → Action β} (h : ∀ s, Faults k s (f s.here))
    (ht : t ≠ some (.punct .semicolon)) :
    FaultsAt t k start (Action.advance >>= f) := by
  intro p hcurrent hp
  have hrest := h p.input p.advance (p.input_advance ▸ p.input.reaches_tail)
  refine (hrest.from_earlier hp).behind (.advance hp) rfl ?_
  exact p.input_advance ▸ Tokens.within_tail (hcurrent ▸ ht)

end FaultsAt
end Action
end OnePass
