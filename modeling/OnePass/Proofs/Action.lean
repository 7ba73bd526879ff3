import OnePass.Pass.Program

/-!
Laws of actions: what a step leaves behind, when a step gives a value, and induction over
recursive actions. Nothing here is about a particular production.
-/

namespace OnePass
namespace Pass

theorem lexemes_advance (p : Pass) : p.advance.input.lexemes = p.input.lexemes.tail := by
  rw [input_advance]
  rfl

/-- The current token stands in front of what is read after it. -/
theorem lexemes_of_current {p : Pass} {t : Token} (h : p.input.current? = some t) :
    p.input.lexemes = ⟨t, p.input.here⟩ :: p.advance.input.lexemes := by
  rw [lexemes_advance]
  unfold Tokens.current? at h
  unfold Tokens.here
  cases hl : p.input.lexemes with
  | nil => simp [hl] at h
  | cons l rest =>
      rw [hl] at h
      obtain rfl : l.token = t := by simpa using h
      rfl

theorem current_of_lexemes {p : Pass} {t : Token} {l : Location} {rest : List Lexeme}
    (h : p.input.lexemes = ⟨t, l⟩ :: rest) : p.input.current? = some t := by
  simp [Tokens.current?, h]

theorem here_of_lexemes {p : Pass} {t : Token} {l : Location} {rest : List Lexeme}
    (h : p.input.lexemes = ⟨t, l⟩ :: rest) : p.input.here = l := by
  simp [Tokens.here, h]

end Pass

namespace Action

variable {α β ι : Type}

/-! Runs of the single steps -/

@[simp] theorem peek_apply (p : Pass) : peek p = (.ok p.input.current?, p) := rfl

@[simp] theorem view_apply (f : Pass → α) (p : Pass) : view f p = (.ok (f p), p) := rfl

@[simp] theorem skip_apply (p : Pass) : skip p = (.ok (), p.advance) := rfl

@[simp] theorem advance_apply (p : Pass) : advance p = (.ok p.input.here, p.advance) := rfl

@[simp] theorem emit_apply (i : Instr) (p : Pass) :
    emit i p = (.ok (), p.perform (.emit i)) := rfl

@[simp] theorem newLabel_apply (p : Pass) :
    newLabel p = (.ok p.code.nextLabel, p.perform .newLabel) := rfl

@[simp] theorem markLabel_apply (l : Label) (p : Pass) :
    markLabel l p = (.ok (), p.perform (.markLabel l)) := rfl

@[simp] theorem attempt_apply (m : Action α) (p : Pass) : attempt m p = (.ok (), (m p).2) := rfl

@[simp] theorem atMark_apply (mark : Punct) (p : Pass) :
    atMark mark p = (.ok (p.input.current? == some (.punct mark)), p) := rfl

@[simp] theorem accept_apply (t : Token) (p : Pass) :
    accept t p = if p.input.current? = some t then (.ok true, p.advance) else (.ok false, p) := rfl

theorem bind_ok {m : Action α} {f : α → Action β} {p q : Pass} {a : α}
    (h : m p = (.ok a, q)) : (m >>= f) p = f a q := by
  rw [bind_apply, h]

theorem bind_error {m : Action α} {f : α → Action β} {p q : Pass} {e : Abandoned}
    (h : m p = (.error e, q)) : (m >>= f) p = (.error e, q) := by
  rw [bind_apply, h]

/-- An optional token decides how to go on. -/
theorem accept_bind (t : Token) (f : Bool → Action β) (p : Pass) :
    (accept t >>= f) p =
      if p.input.current? = some t then f true p.advance else f false p := by
  rw [bind_apply, accept_apply]
  by_cases h : p.input.current? = some t <;> simp [h]

/-! When a step gives a value -/

theorem bind_eq_ok {m : Action α} {f : α → Action β} {p q : Pass} {b : β} :
    (m >>= f) p = (.ok b, q) ↔ ∃ a r, m p = (.ok a, r) ∧ f a r = (.ok b, q) := by
  rw [bind_apply]
  rcases m p with ⟨_ | a, r⟩ <;> simp [and_assoc]

theorem pure_eq_ok {a b : α} {p q : Pass} :
    (pure a : Action α) p = (.ok b, q) ↔ a = b ∧ p = q := by
  simp [pure_apply]

@[simp] theorem failAt_ne_ok {l : Location} {c : Complaint} {p q : Pass} {a : α} :
    (failAt l c : Action α) p ≠ (.ok a, q) := by
  simp [failAt]

@[simp] theorem fail_ne_ok {c : Complaint} {p q : Pass} {a : α} :
    (fail c : Action α) p ≠ (.ok a, q) :=
  failAt_ne_ok

@[simp] theorem failHere_ne_ok {c : Option Token → Complaint} {p q : Pass} {a : α} :
    (failHere c : Action α) p ≠ (.ok a, q) :=
  fail_ne_ok

theorem require_eq_ok {condition : Prop} [Decidable condition] {c : Complaint} {p q : Pass}
    {u : Unit} : require condition c p = (.ok u, q) ↔ condition ∧ p = q := by
  unfold require
  split <;> simp_all [pure_apply]

theorem requireAt_eq_ok {condition : Prop} [Decidable condition] {l : Location} {c : Complaint}
    {p q : Pass} {u : Unit} :
    requireAt condition l c p = (.ok u, q) ↔ condition ∧ p = q := by
  unfold requireAt
  split <;> simp_all [pure_apply]

theorem consume_eq_ok {mark : Punct} {p q : Pass} {u : Unit} :
    consume mark p = (.ok u, q) ↔ p.input.current? = some (.punct mark) ∧ p.advance = q := by
  unfold consume acceptMark
  rw [bind_apply, accept_apply]
  by_cases h : p.input.current? = some (.punct mark) <;> simp [h, pure_apply]

theorem identifier_eq_ok {what : Expectation} {p q : Pass} {name : String} {l : Location} :
    identifier what p = (.ok (name, l), q) ↔
      p.input.current? = some (.ident name) ∧ p.input.here = l ∧ p.advance = q := by
  unfold identifier
  rw [bind_apply, peek_apply]
  cases h : p.input.current? with
  | none => simp
  | some t => cases t <;> simp [bind_apply, pure_apply, and_assoc]

theorem type_eq_ok {p q : Pass} {ty : Ty} (h : type p = (.ok ty, q)) :
    ∃ t, p.input.current? = some t ∧ typeOf? p.table (some t) = some ty ∧ p.advance = q := by
  unfold type at h
  rw [bind_ok (view_apply _ p)] at h
  cases htype : typeOf? p.table p.input.current? with
  | none => simp [htype] at h
  | some found =>
      simp only [htype, bind_ok (skip_apply p)] at h
      obtain ⟨rfl, rfl⟩ := pure_eq_ok.mp h
      cases hcurrent : p.input.current? with
      | none => simp [hcurrent, typeOf?] at htype
      | some t => exact ⟨t, rfl, hcurrent ▸ htype, rfl⟩

/-! Recursion -/

/-- What the body of a recursive action keeps, given that the runs inside of it keep it, the
action keeps. A run that the guard abandons has to keep it too. -/
theorem recurse_induction {body : (ι → Action α) → ι → Action α}
    {C : ι → Pass → Except Abandoned α × Pass → Prop}
    (stuck : ∀ i p, C i p (failHere .noProgress p))
    (step : ∀ nested, (∀ j q, C j q (nested j q)) → ∀ i p, C i p (body nested i p))
    (i : ι) (p : Pass) : C i p (recurse body i p) := by
  induction h : p.remaining using Nat.strongRecOn generalizing i p with
  | _ n ih =>
      rw [recurse_apply]
      apply step
      intro j q
      split
      · rename_i hq
        exact ih q.remaining (h ▸ hq) j q rfl
      · exact stuck j q

end Action
end OnePass
