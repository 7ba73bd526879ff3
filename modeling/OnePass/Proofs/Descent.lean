import Mathlib.Logic.Relation
import OnePass.Proofs.Reads

/-!
How the pass descends. It goes on by single steps, and a production runs those inside of it with
fewer tokens left than it began with, so what it does is settled by its runs on fewer tokens. It
reads a token on every way through it, also when it is abandoned. Hence the guard of recursive
actions is never needed: they follow the equations of their productions.
-/

namespace OnePass

namespace Pass

/-- The single steps of a pass. -/
inductive Step : Pass → Pass → Prop
  | advance (p : Pass) : Step p p.advance
  | perform (p : Pass) (r : Code.Request) : Step p (p.perform r)
  | edit (p : Pass) (e : Table.Edit) : Step p (p.edit e)
  /-- A note belongs to an error that was reported before. -/
  | report (p : Pass) (severity : Severity) (l : Location) (message : String) :
      (severity = .note → 0 < p.diagnostics.errorCount) → Step p (p.report severity l message)
  | resolve (p : Pass) (name : String) : Step p (p.resolved name)
  | bind (p : Pass) (name : String) (m : Host.Method) :
      Step p { p with toSession := p.record (.bound name m) }
  /-- A symbol that is declared already is completed. -/
  | complete (p : Pass) (depth : Nat) (name : String) (symbol : Symbol) :
      Step p { p with table := p.table.overwriteAt depth name symbol }

/-- A run of the pass. -/
abbrev Steps : Pass → Pass → Prop :=
  Relation.ReflTransGen Step

theorem Steps.of_step {p q : Pass} (h : Step p q) : p.Steps q :=
  .single h

theorem steps_advanceBy (n : Nat) (p : Pass) : p.Steps (p.advanceBy n) := by
  induction n generalizing p with
  | zero => exact .refl
  | succ n ih => exact .head (.advance p) (ih p.advance)

/-- The pass goes on by steps and reads nothing. -/
structure Idles (p q : Pass) : Prop where
  steps : p.Steps q
  input : q.input = p.input

namespace Idles

variable {p q r : Pass}

theorem refl (p : Pass) : p.Idles p :=
  ⟨.refl, rfl⟩

theorem trans (h : p.Idles q) (h' : q.Idles r) : p.Idles r :=
  ⟨h.steps.trans h'.steps, h'.input.trans h.input⟩

theorem perform (p : Pass) (r : Code.Request) : p.Idles (p.perform r) :=
  ⟨.of_step (.perform p r), rfl⟩

theorem edit (p : Pass) (e : Table.Edit) : p.Idles (p.edit e) :=
  ⟨.of_step (.edit p e), rfl⟩

theorem report {severity : Severity} {l : Location} {message : String}
    (h : severity = .note → 0 < p.diagnostics.errorCount) :
    p.Idles (p.report severity l message) :=
  ⟨.of_step (.report p severity l message h), rfl⟩

theorem remaining (h : p.Idles q) : q.remaining = p.remaining :=
  congrArg Tokens.remaining h.input

end Idles

/-- The pass goes on by steps and reads at least `d` tokens, or all that are left. -/
structure Moves (d : Nat) (p q : Pass) : Prop where
  steps : p.Steps q
  reads : q.remaining ≤ p.remaining - d

namespace Moves

variable {d e : Nat} {p q r : Pass}

theorem trans (h : Moves d p q) (h' : Moves 0 q r) : Moves d p r :=
  ⟨h.steps.trans h'.steps, Nat.le_trans h'.reads h.reads⟩

theorem mono (h : Moves d p q) (hd : e ≤ d) : Moves e p q :=
  ⟨h.steps, Nat.le_trans h.reads (Nat.sub_le_sub_left hd _)⟩

theorem advance (p : Pass) : Moves 1 p p.advance :=
  ⟨.of_step (.advance p), Nat.le_of_eq p.remaining_advance⟩

end Moves

theorem Idles.moves {p q : Pass} (h : p.Idles q) : Moves 0 p q :=
  ⟨h.steps, Nat.le_of_eq h.remaining⟩

theorem Idles.moves_trans {d : Nat} {p q r : Pass} (h : p.Idles q) (h' : Moves d q r) :
    Moves d p r :=
  ⟨h.steps.trans h'.steps, h.remaining ▸ h'.reads⟩

theorem remaining_pos {p : Pass} {t : Token} (h : p.input.current? = some t) : 0 < p.remaining := by
  rw [remaining, Tokens.remaining, lexemes_of_current h]
  exact Nat.succ_pos _

theorem moves_resynchronise (p : Pass) : Moves 1 p p.resynchronise := by
  refine ⟨steps_advanceBy _ p, ?_⟩
  rw [resynchronise, remaining_advanceBy]
  cases h : p.input.lexemes with
  | nil =>
      rw [remaining, Tokens.remaining, h]
      exact Nat.le_of_eq (by simp)
  | cons l rest =>
      unfold lengthThroughSemicolon
      split <;> omega

end Pass

namespace Action

variable {α β ι : Type} {d e k n : Nat} {m m' : Action α} {f f' : α → Action β}

/-- With fewer than `n` tokens left the actions do the same, and they read at least `d` tokens or
all that are left, whatever the outcome. -/
def Alike (d n : Nat) (m m' : Action α) : Prop :=
  ∀ p : Pass, p.remaining < n → m p = m' p ∧ p.Moves d (m p).2

/-- The same in front of a token, and with at most `n` tokens left. -/
def Ahead (d n : Nat) (m m' : Action α) : Prop :=
  ∀ p : Pass, 0 < p.remaining → p.remaining ≤ n → m p = m' p ∧ p.Moves d (m p).2

/-! Putting actions together -/

theorem Alike.mono (h : Alike d n m m') (hd : e ≤ d) (hn : k ≤ n) : Alike e k m m' := by
  intro p hp
  obtain ⟨heq, hmoves⟩ := h p (Nat.lt_of_lt_of_le hp hn)
  exact ⟨heq, hmoves.mono hd⟩

theorem Alike.loose (h : Alike d n m m') : Alike 0 n m m' :=
  h.mono (Nat.zero_le _) (Nat.le_refl _)

theorem Alike.ahead (h : Alike d (n + 1) m m') : Ahead d n m m' :=
  fun p _ hp => h p (Nat.lt_succ_of_le hp)

theorem Ahead.loose (h : Ahead d n m m') : Ahead 0 n m m' := by
  intro p hpos hp
  obtain ⟨heq, hmoves⟩ := h p hpos hp
  exact ⟨heq, hmoves.mono (Nat.zero_le _)⟩

/-- A first part that does the same is followed by one that does where the first part ends. -/
theorem alike_bind_at {p : Pass} (hm : m p = m' p ∧ p.Moves d (m p).2)
    (hf : ∀ a q, m p = (.ok a, q) → q.remaining ≤ p.remaining - d →
      f a q = f' a q ∧ q.Moves 0 (f a q).2) :
    (m >>= f) p = (m' >>= f') p ∧ p.Moves d ((m >>= f) p).2 := by
  obtain ⟨heq, hmoves⟩ := hm
  rw [bind_apply, bind_apply, ← heq]
  cases h : m p with
  | mk out q =>
      rw [h] at hmoves
      cases out with
      | error _ => exact ⟨rfl, hmoves⟩
      | ok a =>
          obtain ⟨heq', hmoves'⟩ := hf a q h hmoves.reads
          exact ⟨heq', hmoves.trans hmoves'⟩

/-- A first part decides how many tokens are read at least, since it may be abandoned. -/
theorem Alike.bind (hm : Alike d n m m') (hf : ∀ a, Alike 0 n (f a) (f' a)) :
    Alike d n (m >>= f) (m' >>= f') := by
  intro p hp
  refine alike_bind_at (hm p hp) fun a q _ hq => hf a q ?_
  exact Nat.lt_of_le_of_lt (Nat.le_trans hq (Nat.sub_le _ _)) hp

/-- Behind a token that was read in front, there are fewer tokens left. -/
theorem Ahead.bind (hm : Ahead 1 n m m') (hf : ∀ a, Alike 0 n (f a) (f' a)) :
    Ahead 1 n (m >>= f) (m' >>= f') := by
  intro p hpos hp
  exact alike_bind_at (hm p hpos hp) fun a q _ hq => hf a q (by omega)

section Quiet

variable {g : Pass → Pass} {a : Pass → α}

theorem Alike.quiet (hg : ∀ p : Pass, p.Idles (g p)) :
    Alike 0 n (fun p => (.ok (a p), g p)) (fun p => (.ok (a p), g p)) :=
  fun p _ => ⟨rfl, (hg p).moves⟩

/-- A first part that only looks cannot be abandoned. -/
theorem Alike.view_bind {a : Pass → α} (hf : ∀ a, Alike d n (f a) (f' a)) :
    Alike d n (view a >>= f) (view a >>= f') :=
  fun p hp => hf (a p) p hp

theorem Ahead.view_bind {a : Pass → α} (hf : ∀ a, Ahead d n (f a) (f' a)) :
    Ahead d n (view a >>= f) (view a >>= f') :=
  fun p hpos hp => hf (a p) p hpos hp

end Quiet

/-- The current token decides how to go on; there is one, or the text is at its end. -/
theorem Alike.peek_bind {f f' : Option Token → Action β}
    (hnone : Alike d (n + 1) (f none) (f' none))
    (hsome : ∀ t, Ahead d n (f (some t)) (f' (some t))) :
    Alike d (n + 1) (peek >>= f) (peek >>= f') := by
  intro p hp
  rw [bind_ok (peek_apply p), bind_ok (peek_apply p)]
  cases h : p.input.current? with
  | none => exact hnone p hp
  | some t => exact hsome t p (Pass.remaining_pos h) (Nat.le_of_lt_succ hp)

theorem Alike.accept_bind {f f' : Bool → Action β} {t : Token}
    (htrue : Alike 0 n (f true) (f' true)) (hfalse : Alike 0 (n + 1) (f false) (f' false)) :
    Alike 0 (n + 1) (accept t >>= f) (accept t >>= f') := by
  intro p hp
  rw [Action.accept_bind, Action.accept_bind]
  split
  · rename_i h
    have hpos := Pass.remaining_pos h
    have hadvance := p.remaining_advance
    obtain ⟨heq, hmoves⟩ := htrue p.advance (by omega)
    exact ⟨heq, ((Pass.Moves.advance p).mono (Nat.zero_le _)).trans hmoves⟩
  · exact hfalse p hp

theorem Alike.attempt (h : Alike d n m m') : Alike d n (attempt m) (attempt m') := by
  intro p hp
  obtain ⟨heq, hmoves⟩ := h p hp
  exact ⟨by rw [attempt_apply, attempt_apply, heq], hmoves⟩

theorem Alike.andFinally {g : Pass → Pass} (h : Alike d n m m')
    (hg : ∀ p : Pass, p.Idles (g p)) : Alike d n (m.andFinally g) (m'.andFinally g) := by
  intro p hp
  obtain ⟨heq, hmoves⟩ := h p hp
  exact ⟨by simp only [Action.andFinally, heq], hmoves.trans (hg _).moves⟩

theorem Alike.ifAbandoned {g : Pass → Pass} (h : Alike d n m m')
    (hg : ∀ p : Pass, p.Idles (g p)) : Alike d n (m.ifAbandoned g) (m'.ifAbandoned g) := by
  intro p hp
  obtain ⟨heq, hmoves⟩ := h p hp
  refine ⟨by simp only [Action.ifAbandoned, heq], ?_⟩
  unfold Action.ifAbandoned
  cases hm : m p with
  | mk out q =>
      rw [hm] at hmoves
      cases out with
      | ok a => exact hmoves
      | error _ => exact hmoves.trans (hg q).moves

/-! The single steps -/

namespace Alike

theorem pure (a : α) : Alike 0 n (Pure.pure a : Action α) (Pure.pure a) :=
  quiet .refl

theorem view (g : Pass → α) : Alike 0 n (Action.view g) (Action.view g) :=
  quiet .refl

theorem update {g : Pass → Pass} (hg : ∀ p : Pass, p.Idles (g p)) :
    Alike 0 n (Action.update g) (Action.update g) :=
  quiet hg

theorem perform (r : Code.Request) : Alike 0 n (Action.perform r) (Action.perform r) :=
  update fun p => .perform p r

theorem edit (e : Table.Edit) : Alike 0 n (Action.edit e) (Action.edit e) :=
  update fun p => .edit p e

theorem warn (l : Location) (c : Caution) : Alike 0 n (Action.warn l c) (Action.warn l c) :=
  update fun _ => .report nofun

theorem newLabel : Alike 0 n Action.newLabel Action.newLabel :=
  quiet fun p => .perform p .newLabel

theorem resolve (name : String) : Alike 0 n (Action.resolve name) (Action.resolve name) :=
  quiet fun p => ⟨.of_step (.resolve p name), rfl⟩

theorem emit (i : Instr) : Alike 0 n (Action.emit i) (Action.emit i) :=
  perform (.emit i)

theorem emit? (i : Option Instr) : Alike 0 n (Action.emit? i) (Action.emit? i) := by
  cases i with
  | none => exact pure ()
  | some i => exact emit i

theorem skip : Alike 1 n Action.skip Action.skip :=
  fun p _ => ⟨rfl, .advance p⟩

theorem advance : Alike 1 n Action.advance Action.advance :=
  fun p _ => ⟨rfl, .advance p⟩

theorem failAt (l : Location) (c : Complaint) :
    Alike 1 n (Action.failAt l c : Action α) (Action.failAt l c) := by
  intro p _
  have hreport : p.Idles (p.report .error l c.message) := .report nofun
  exact ⟨rfl, hreport.moves_trans (Pass.moves_resynchronise _)⟩

theorem fail (c : Complaint) : Alike 1 n (Action.fail c : Action α) (Action.fail c) :=
  fun p hp => failAt p.input.here c p hp

theorem failHere (c : Option Token → Complaint) :
    Alike 1 n (Action.failHere c : Action α) (Action.failHere c) :=
  fun p hp => fail (c p.input.current?) p hp

theorem require (condition : Prop) [Decidable condition] (c : Complaint) :
    Alike 0 n (Action.require condition c) (Action.require condition c) := by
  unfold Action.require
  split
  · exact pure ()
  · exact (fail c).loose

theorem requireAt (condition : Prop) [Decidable condition] (l : Location) (c : Complaint) :
    Alike 0 n (Action.requireAt condition l c) (Action.requireAt condition l c) := by
  unfold Action.requireAt
  split
  · exact pure ()
  · exact (failAt l c).loose

theorem accept (t : Token) : Alike 0 n (Action.accept t) (Action.accept t) := by
  intro p _
  refine ⟨rfl, ?_⟩
  rw [accept_apply]
  split
  · exact (Pass.Moves.advance p).mono (Nat.zero_le _)
  · exact (Pass.Idles.refl p).moves

theorem consume (mark : Punct) : Alike 1 n (Action.consume mark) (Action.consume mark) := by
  intro p hp
  refine ⟨rfl, ?_⟩
  unfold Action.consume acceptMark
  rw [Action.accept_bind]
  split
  · exact .advance p
  · exact (failHere _ p hp).2

theorem identifier (what : Expectation) :
    Alike 1 n (Action.identifier what) (Action.identifier what) := by
  refine view_bind fun token => ?_
  split
  · exact advance.bind fun _ => pure _
  · exact failHere _

theorem type : Alike 1 n Action.type Action.type := by
  refine view_bind fun found => ?_
  split
  · exact skip.bind fun _ => pure _
  · exact failHere _

end Alike

/-! Recursion -/

/-- The runs inside of a body begin with fewer tokens left than its own run: runs that are alike
on fewer than `n` tokens make it alike on `n`. -/
def Descends (d : Nat) (body : (ι → Action α) → ι → Action α) : Prop :=
  ∀ n f g, (∀ j, Alike d n (f j) (g j)) → ∀ i, Alike d (n + 1) (body f i) (body g i)

/-- Two recursive actions are alike if their bodies are, on every smaller number of tokens. -/
theorem Alike.recurse {body body' : (ι → Action α) → ι → Action α}
    (h : ∀ k < n, ∀ f g, (∀ j, Alike d k (f j) (g j)) → ∀ i, Alike d (k + 1) (body f i) (body' g i))
    (i : ι) : Alike d n (recurse body i) (recurse body' i) := by
  intro p hp
  induction hr : p.remaining using Nat.strongRecOn generalizing i p with
  | _ k ih =>
      rw [recurse_apply, recurse_apply]
      refine h p.remaining hp _ _ ?_ i p (Nat.lt_succ_self _)
      intro j q hq
      dsimp only
      rw [if_pos hq, if_pos hq]
      exact ih q.remaining (hr ▸ hq) j q (Nat.lt_trans hq hp) rfl

/-- The guards of both actions stop the same runs, so their bodies need not descend. -/
theorem Alike.recurse_guarded {body body' : (ι → Action α) → ι → Action α}
    (h : ∀ f g, (∀ i, Alike 0 n (f i) (g i)) → ∀ i, Alike 0 n (body f i) (body' g i)) (i : ι) :
    Alike 0 n (Action.recurse body i) (Action.recurse body' i) := by
  intro p hp
  induction hr : p.remaining using Nat.strongRecOn generalizing i p with
  | _ k ih =>
      rw [recurse_apply, recurse_apply]
      refine h _ _ (fun j q hq => ?_) i p hp
      by_cases hless : q.remaining < p.remaining
      · rw [if_pos hless, if_pos hless]
        exact ih q.remaining (hr ▸ hless) j q hq rfl
      · rw [if_neg hless, if_neg hless]
        exact (Alike.failHere _).loose q hq

/-- The guard of a recursive action is not needed where its body descends. -/
theorem Descends.recurse_eq {body : (ι → Action α) → ι → Action α} (h : Descends d body)
    (i : ι) : recurse body i = body (recurse body) i := by
  funext p
  rw [recurse_apply]
  refine (h p.remaining _ _ ?_ i p (Nat.lt_succ_self _)).1
  intro j q hq
  dsimp only
  rw [if_pos hq]
  exact Alike.recurse (fun k _ f g => h k f g) j q hq

end Action
end OnePass
