import OnePass.Proofs.Acceptance

/-!
Two runs of the pass side by side. A coupling says which passes correspond, and that corresponding
passes look alike to every production and stay so by every single step. Here it is carried from
the steps to all ways of putting actions together; which productions there are does not matter.

A coupling need not compare all runs. It names the ends of the first run up to which the second
one follows it: all of them, those without errors, or those that are not the end of the text.
-/

namespace OnePass

/-- How far a comparison goes. -/
inductive Extent where
  /-- Up to a point behind which the same statement goes on. -/
  | inside
  | whole
deriving DecidableEq, Repr

namespace Code

/-- The code with another name for its entry method. -/
def renameEntry (c : Code) (name : String) : Code :=
  { c with entry := { c.entry with name } }

variable (c : Code) (name : String)

theorem locals_renameEntry : (c.renameEntry name).current.locals = c.current.locals := by
  unfold renameEntry current
  cases c.body <;> rfl

theorem params_renameEntry : (c.renameEntry name).current.params = c.current.params := by
  unfold renameEntry current
  cases c.body <;> rfl

theorem returnType_renameEntry :
    (c.renameEntry name).current.returnType = c.current.returnType := by
  unfold renameEntry current
  cases c.body <;> rfl

end Code

namespace Table.Edit

/-- The same edit, up to where something is declared. -/
inductive Near (near : Location → Location → Prop) : Edit → Edit → Prop
  | openScope : Near near .openScope .openScope
  | closeScope : Near near .closeScope .closeScope
  | declare (s : Symbol) {l l' : Location} :
      near l l' → Near near (.declare s l) (.declare s l')
  | declareField (s : Symbol) {l l' : Location} :
      near l l' → Near near (.declareField s l) (.declareField s l')

theorem Near.eq {e e' : Edit} (h : Near Eq e e') : e = e' := by
  cases h with
  | openScope => rfl
  | closeScope => rfl
  | declare s hl => rw [hl]
  | declareField s hl => rw [hl]

end Table.Edit

/-- A table that answers all questions as another one does, up to locations. If `strict` holds,
it may give a meaning to names that have none. -/
structure Table.LooksLike (near : Location → Location → Prop) (strict : Prop) (t t' : Table) :
    Prop where
  depth : t'.depth = t.depth
  symbolAt (depth : Nat) (name : String) : t'.symbolAt? depth name = t.symbolAt? depth name
  declaredAt (name : String) : Option.Rel near (t.declaredAt? name) (t'.declaredAt? name)
  resolve (name : String) :
    t'.resolve name = t.resolve name ∨ strict ∧ t.resolve name = none
  resolveType (name : String) : t'.resolveType name = t.resolveType name ∨
    strict ∧ t.resolveType name = none ∧ t.resolve name = none

theorem Table.LooksLike.refl {near : Location → Location → Prop} (hnear : ∀ l, near l l)
    (strict : Prop) (t : Table) : t.LooksLike near strict t where
  depth := rfl
  symbolAt _ _ := rfl
  declaredAt name := by
    cases t.declaredAt? name with
    | none => exact .none
    | some l => exact .some (hnear l)
  resolve _ := .inl rfl
  resolveType _ := .inl rfl

namespace Pass

variable {p q : Pass}

theorem current_of_pos (h : 0 < p.remaining) : ∃ t, p.input.current? = some t := by
  obtain ⟨l, rest, hl⟩ := List.length_pos_iff_exists_cons.mp h
  exact ⟨l.token, current_of_lexemes hl⟩

theorem Lost.ne_mark (h : p.Lost) (mark : Punct) : p.input.current? ≠ some (.punct mark) := by
  rcases h.current_cases with h | ⟨name, h, -⟩ <;> simp [h]

theorem Lost.perform (h : p.Lost) (r : Code.Request) : (p.perform r).Lost := by
  rcases h with h | ⟨name, hcurrent, hname⟩
  · exact .inl h
  · exact .inr ⟨name, hcurrent, by rw [table_perform]; exact hname⟩

/-- Skipping the rest of a statement goes token by token. -/
theorem resynchronise_eq (p : Pass) :
    p.resynchronise = match p.input.current? with
      | none => p
      | some t => if t = .punct .semicolon then p.advance else p.advance.resynchronise := by
  unfold resynchronise
  cases h : p.input.lexemes with
  | nil => simp [Tokens.current?, h, lengthThroughSemicolon, advanceBy]
  | cons l rest =>
      have htail : p.advance.input.lexemes = rest := by rw [lexemes_advance, h]; rfl
      simp only [Tokens.current?, h, List.head?_cons, Option.map_some, lengthThroughSemicolon]
      split
      · rfl
      · rw [htail]
        rfl

/-- An error that has been counted stays so. -/
theorem Steps.errors (h : p.Steps q) (hp : 0 < p.diagnostics.errorCount) :
    0 < q.diagnostics.errorCount := by
  refine Nat.pos_of_ne_zero fun hzero => ?_
  exact Nat.ne_of_gt hp (h.clean hzero).1

end Pass

/-- The ends of a run up to which a second run is compared with it. -/
structure Reach where
  Ends : Extent → Pass → Prop
  /-- Whether runs with errors are left out. -/
  Strict : Prop
  ends_of_steps {k : Extent} {p q : Pass} : p.Steps q → Ends k q → Ends k p
  inside_of_ends {k : Extent} {p : Pass} : Ends k p →
    0 < p.remaining ∨ 0 < p.diagnostics.errorCount → Ends .inside p
  errorCount_eq_zero {k : Extent} {p : Pass} : Strict → Ends k p → p.diagnostics.errorCount = 0

namespace Reach

/-- All runs are compared up to their ends. -/
abbrev all : Reach where
  Ends _ _ := True
  Strict := False
  ends_of_steps _ _ := trivial
  inside_of_ends _ _ := trivial
  errorCount_eq_zero h _ := h.elim

/-- Runs without errors are compared. -/
abbrev clean : Reach where
  Ends _ p := p.diagnostics.errorCount = 0
  Strict := True
  ends_of_steps h hend := (h.clean hend).1
  inside_of_ends h _ := h
  errorCount_eq_zero _ h := h

end Reach

/-- The locations that correspond in two runs. -/
structure Places where
  Near : Location → Location → Prop
  near_refl (l : Location) : Near l l
  near_builtin {l l' : Location} : Near l l' → (l = .builtin ↔ l' = .builtin)

/-- Every location corresponds to itself. -/
abbrev Places.exact : Places where
  Near := Eq
  near_refl _ := rfl
  near_builtin h := by rw [h]

/-- Two runs of the pass, step by step. -/
structure Coupling extends Reach, Places where
  Coupled : Pass → Pass → Prop
  /-- The number of tokens that only the second run has left. -/
  surplus : Nat
  remaining {p q : Pass} : Coupled p q → q.remaining = p.remaining + surplus
  current {p q : Pass} : Coupled p q → Ends .inside p → q.input.current? = p.input.current?
  /-- The one token that a statement may look for behind its end. -/
  current_else {k : Extent} {p q : Pass} : Coupled p q → Ends k p →
    q.input.current? = some (.keyword .elseWord) → p.input.current? = some (.keyword .elseWord)
  here {p q : Pass} : Coupled p q → Ends .inside p → Near p.input.here q.input.here
  errorCount {p q : Pass} : Coupled p q → q.diagnostics.errorCount = p.diagnostics.errorCount
  code {p q : Pass} : Coupled p q → ∃ name, q.code = p.code.renameEntry name
  table {p q : Pass} : Coupled p q → p.table.LooksLike Near Strict q.table
  advance {p q : Pass} : Coupled p q → Ends .inside p → Coupled p.advance q.advance
  perform {p q : Pass} : Coupled p q → ∀ r, Coupled (p.perform r) (q.perform r)
  edit {p q : Pass} {e e' : Table.Edit} : Coupled p q → e.Near Near e' →
    Coupled (p.edit e) (q.edit e')
  report {p q : Pass} {l l' : Location} : Coupled p q → Near l l' → ∀ severity message,
    Coupled (p.report severity l message) (q.report severity l' message)
  resolved {p q : Pass} : Coupled p q → ∀ name, Coupled (p.resolved name) (q.resolved name)
  bound {p q : Pass} : Coupled p q → ∀ name m,
    Coupled { p with toSession := p.record (.bound name m) }
      { q with toSession := q.record (.bound name m) }
  complete {p q : Pass} : Coupled p q → ∀ depth name symbol,
    Coupled { p with table := p.table.overwriteAt depth name symbol }
      { q with table := q.table.overwriteAt depth name symbol }

/-! Actions that need a token -/

namespace Action

variable {α β : Type} {m : Action α} {f : α → Action β}

theorem requireFresh_of_none {what : Declared} {name : String} {l : Location} {p : Pass}
    (h : p.table.declaredAt? name = none) : requireFresh what name l p = (.ok (), p) := by
  simp [requireFresh, h]

namespace Refuses

theorem failAt (l : Location) (c : Complaint) : (Action.failAt l c : Action α).Refuses :=
  fun p _ => rejected_failAt l c p

theorem fail (c : Complaint) : (Action.fail c : Action α).Refuses :=
  fun p _ => rejected_failAt _ c p

theorem failHere (c : Option Token → Complaint) : (Action.failHere c : Action α).Refuses :=
  fun p _ => rejected_failAt _ _ p

theorem accept_bind {t : Token} {f : Bool → Action β} (ht : ∀ p : Pass, p.Lost →
    p.input.current? ≠ some t) (hf : (f false).Refuses) : (accept t >>= f).Refuses := by
  intro p hp
  rw [Action.accept_bind, if_neg (ht p hp)]
  exact hf p hp

theorem consume (mark : Punct) : (Action.consume mark).Refuses :=
  accept_bind (fun _ hp => hp.ne_mark mark) (failHere _)

theorem emit_bind {i : Instr} {f : Unit → Action β} (hf : (f ()).Refuses) :
    (emit i >>= f).Refuses :=
  fun p hp => hf (p.perform (.emit i)) (hp.perform _)

theorem emit?_bind {i : Option Instr} {f : Unit → Action β} (hf : (f ()).Refuses) :
    (emit? i >>= f).Refuses := by
  cases i with
  | none => exact hf
  | some i => exact emit_bind hf

theorem require_bind {condition : Prop} [Decidable condition] {c : Complaint}
    {f : Unit → Action β} (hf : (f ()).Refuses) : (require condition c >>= f).Refuses := by
  unfold require
  split
  · exact hf
  · exact (fail c).bind

theorem requireAt_bind {condition : Prop} [Decidable condition] {l : Location} {c : Complaint}
    {f : Unit → Action β} (hf : (f ()).Refuses) : (requireAt condition l c >>= f).Refuses := by
  unfold requireAt
  split
  · exact hf
  · exact (failAt l c).bind

theorem requireFresh_bind {what : Declared} {name : String} {l : Location} {f : Unit → Action β}
    (hf : (f ()).Refuses) : (requireFresh what name l >>= f).Refuses := by
  intro p hp
  cases hfirst : p.table.declaredAt? name with
  | none =>
      rw [bind_ok (requireFresh_of_none hfirst)]
      exact hf p hp
  | some first =>
      have hreported := (Writing.requireFresh (A := fun _ => False) what name l p rfl).abandoned
      have habandoned : (requireFresh what name l p).1 = .error {} := by simp [requireFresh, hfirst]
      exact Rejected.bind ⟨habandoned, hreported _ habandoned⟩

end Refuses
end Action

namespace Coupling

open OnePass.Action

variable {C : Coupling} {α β ι : Type} {k : Extent} {p q : Pass} {l l' : Location}
  {m m' : Action α} {f f' : α → Action β}

/-! Ends -/

theorem inside_of_token {t : Token} (h : C.Ends k p) (ht : p.input.current? = some t) :
    C.Ends .inside p :=
  C.inside_of_ends h (.inl (Pass.remaining_pos ht))

theorem inside_of_errors (h : C.Ends k p) (he : 0 < p.diagnostics.errorCount) :
    C.Ends .inside p :=
  C.inside_of_ends h (.inr he)

/-- A run that goes on from where no expression begins is not compared, unless with its errors. -/
theorem inside_of_refuses (hm : m.Refuses) (hsteps : p.Steps (m p).2) (h : C.Ends k (m p).2) :
    C.Ends .inside p := by
  rcases Nat.eq_zero_or_pos p.remaining with hend | hpos
  · exact C.ends_of_steps hsteps (inside_of_errors h (hm p (.inl hend)).2)
  · exact C.inside_of_ends (C.ends_of_steps hsteps h) (.inl hpos)

/-- An action is compared from where more of its statement follows, or needs a token. -/
theorem inside_of_missing (hmissing : k = .inside ∨ m.Refuses) (hsteps : p.Steps (m p).2)
    (hend : C.Ends k (m p).2) : C.Ends .inside p := by
  rcases hmissing with rfl | hm
  · exact C.ends_of_steps hsteps hend
  · exact inside_of_refuses hm hsteps hend

theorem resynchronise (h : C.Coupled p q) (hp : C.Ends k p)
    (he : 0 < p.diagnostics.errorCount) (hend : C.Ends k p.resynchronise) :
    C.Coupled p.resynchronise q.resynchronise := by
  induction hn : p.remaining using Nat.strongRecOn generalizing p q with
  | _ n ih =>
      have hinside := inside_of_errors hp he
      rw [p.resynchronise_eq] at hend ⊢
      rw [q.resynchronise_eq, C.current h hinside]
      cases ht : p.input.current? with
      | none => exact h
      | some t =>
          simp only [ht] at hend ⊢
          have hadvance := C.advance h hinside
          split
          · exact hadvance
          · rename_i hsemicolon
            rw [if_neg hsemicolon] at hend
            have hsteps := (Pass.moves_resynchronise p.advance).steps
            have hless : p.advance.remaining < p.remaining := by
              have := Pass.remaining_pos ht
              rw [p.remaining_advance]
              omega
            refine ih _ (hn ▸ hless) hadvance (C.ends_of_steps hsteps hend) ?_ hend rfl
            rw [Pass.diagnostics_advance]
            exact he

/-! Outcomes -/

/-- Both actions give the same value, or both are abandoned, and the passes correspond. -/
def Outcomes (C : Coupling) (out out' : Except Abandoned α × Pass) : Prop :=
  out'.1 = out.1 ∧ C.Coupled out.2 out'.2

/-- From `p` on the second action follows the first one. -/
structure FollowsAt (C : Coupling) (k : Extent) (m m' : Action α) (p : Pass) : Prop where
  steps : p.Steps (m p).2
  reports : ∀ e, (m p).1 = .error e → 0 < (m p).2.diagnostics.errorCount
  coupled : ∀ q, C.Coupled p q → C.Ends k (m p).2 → C.Outcomes (m p) (m' q)

/-- Actions that do the same from here on as actions that follow each other. -/
theorem FollowsAt.congr {n n' : Action α} (h : C.FollowsAt k n n' p) (hm : m p = n p)
    (hm' : ∀ q, C.Coupled p q → C.Ends k (n p).2 → m' q = n' q) : C.FollowsAt k m m' p := by
  refine ⟨hm ▸ h.steps, hm ▸ h.reports, fun q hq hend => ?_⟩
  rw [hm] at hend ⊢
  rw [hm' q hq hend]
  exact h.coupled q hq hend

def Follows (C : Coupling) (k : Extent) (m m' : Action α) : Prop :=
  ∀ p, C.FollowsAt k m m' p

/-- The second action follows the first one in front of a token. -/
def Ahead (C : Coupling) (k : Extent) (m m' : Action α) : Prop :=
  ∀ p, 0 < p.remaining → C.FollowsAt k m m' p

theorem Follows.ahead (h : C.Follows k m m') : C.Ahead k m m' :=
  fun p _ => h p

/-! Putting actions together -/

theorem FollowsAt.bind (hm : C.FollowsAt k m m' p)
    (hf : ∀ a r, m p = (.ok a, r) → C.FollowsAt k (f a) (f' a) r) :
    C.FollowsAt k (m >>= f) (m' >>= f') p := by
  cases h : m p with
  | mk out r =>
      obtain ⟨hsteps, hreports, hcoupled⟩ := hm
      rw [h] at hsteps hreports hcoupled
      cases out with
      | error e =>
          have hbind : (m >>= f) p = (.error e, r) := bind_error h
          refine ⟨hbind ▸ hsteps, hbind ▸ fun _ _ => hreports e rfl, fun q hq hend => ?_⟩
          rw [hbind] at hend ⊢
          obtain ⟨hout, hr⟩ := hcoupled q hq hend
          cases h' : m' q with
          | mk out' r' =>
              rw [h'] at hout hr
              obtain rfl : out' = .error e := hout
              rw [bind_error h']
              exact ⟨rfl, hr⟩
      | ok a =>
          have hbind : (m >>= f) p = f a r := bind_ok h
          obtain ⟨hsteps', hreports', hcoupled'⟩ := hf a r h
          refine ⟨hbind ▸ hsteps.trans hsteps', hbind ▸ hreports', fun q hq hend => ?_⟩
          rw [hbind] at hend ⊢
          obtain ⟨hout, hr⟩ := hcoupled q hq (C.ends_of_steps hsteps' hend)
          cases h' : m' q with
          | mk out' r' =>
              rw [h'] at hout hr
              obtain rfl : out' = .ok a := hout
              rw [bind_ok h']
              exact hcoupled' r' hr hend

theorem Follows.bind (hm : C.Follows k m m') (hf : ∀ a, C.Follows k (f a) (f' a)) :
    C.Follows k (m >>= f) (m' >>= f') :=
  fun p => (hm p).bind fun a r _ => hf a r

theorem Ahead.bind (hm : C.Ahead k m m') (hf : ∀ a, C.Follows k (f a) (f' a)) :
    C.Ahead k (m >>= f) (m' >>= f') :=
  fun p hp => (hm p hp).bind fun a r _ => hf a r

/-- Behind a first part that reads nothing, the token is still there. -/
theorem Ahead.idle_bind (hm : C.Follows k m m')
    (hidle : ∀ p a r, m p = (.ok a, r) → r.remaining = p.remaining)
    (hf : ∀ a, C.Ahead k (f a) (f' a)) : C.Ahead k (m >>= f) (m' >>= f') :=
  fun p hp => (hm p).bind fun a r h => hf a r (hidle p a r h ▸ hp)

/-- A comparison up to a point inside of a statement is one of the whole if what comes next
needs a token. -/
theorem FollowsAt.whole (hm : C.FollowsAt .inside m m' p)
    (h : ∀ a r, m p = (.ok a, r) → C.Ends k r → C.Ends .inside r) : C.FollowsAt k m m' p := by
  refine ⟨hm.steps, hm.reports, fun q hq hend => hm.coupled q hq ?_⟩
  cases hout : m p with
  | mk out r =>
      rw [hout] at hend
      cases out with
      | ok a => exact h a r hout hend
      | error e =>
          have hreports := hm.reports e (by rw [hout])
          rw [hout] at hreports
          exact inside_of_errors hend hreports

/-- What needs a token is compared as a whole behind what is compared up to it. -/
theorem Follows.close (hm : C.Follows .inside m m') (hf : ∀ a, C.Follows k (f a) (f' a))
    (hrefuses : ∀ a, (f a).Refuses) : C.Follows k (m >>= f) (m' >>= f') := by
  intro p
  have hfirst := hm p
  cases hout : m p with
  | mk out r =>
      cases out with
      | error e =>
          refine FollowsAt.bind (hfirst.whole fun a r h => ?_) fun a r _ => hf a r
          rw [hout] at h
          cases h
      | ok a =>
          have hbind : (m >>= f) p = f a r := bind_ok hout
          refine ⟨hbind ▸ (hout ▸ hfirst.steps).trans (hf a r).steps, hbind ▸ (hf a r).reports, ?_⟩
          intro q hq hend
          rw [hbind] at hend ⊢
          have hinside := inside_of_refuses (hrefuses a) (hf a r).steps hend
          obtain ⟨hsame, hr⟩ := hfirst.coupled q hq (hout ▸ hinside)
          cases hout' : m' q with
          | mk out' r' =>
              rw [hout, hout'] at hsame hr
              obtain rfl : out' = .ok a := hsame
              rw [bind_ok hout']
              exact (hf a r).coupled r' hr hend

theorem FollowsAt.attempt (h : C.FollowsAt k m m' p) :
    C.FollowsAt k (attempt m) (attempt m') p :=
  ⟨h.steps, nofun, fun q hq hend => ⟨rfl, (h.coupled q hq hend).2⟩⟩

theorem Follows.attempt (h : C.Follows k m m') : C.Follows k (attempt m) (attempt m') :=
  fun p => (h p).attempt

theorem Follows.andFinally {g g' : Pass → Pass} (h : C.Follows k m m')
    (hg : ∀ p : Pass, p.Idles (g p)) (hcoupled : ∀ p q, C.Coupled p q → C.Coupled (g p) (g' q)) :
    C.Follows k (m.andFinally g) (m'.andFinally g') := by
  intro p
  have hlast := (hg (m p).2).steps
  refine ⟨(h p).steps.trans hlast, ?_, fun q hq hend => ?_⟩
  · exact fun e he => hlast.errors ((h p).reports e he)
  · obtain ⟨hsame, hr⟩ := (h p).coupled q hq (C.ends_of_steps hlast hend)
    exact ⟨hsame, hcoupled _ _ hr⟩

theorem Follows.ifAbandoned {g g' : Pass → Pass} (h : C.Follows k m m')
    (hg : ∀ p : Pass, p.Idles (g p)) (hcoupled : ∀ p q, C.Coupled p q → C.Coupled (g p) (g' q)) :
    C.Follows k (m.ifAbandoned g) (m'.ifAbandoned g') := by
  intro p
  obtain ⟨hsteps, hreports, hfollows⟩ := h p
  cases hout : m p with
  | mk out r =>
      rw [hout] at hsteps hreports hfollows
      have hlast := (hg r).steps
      cases out with
      | ok a =>
          have hsame : m.ifAbandoned g p = (.ok a, r) := by simp [Action.ifAbandoned, hout]
          refine ⟨hsame ▸ hsteps, fun e he => ?_, fun q hq hend => ?_⟩
          · rw [hsame] at he
            cases he
          rw [hsame] at hend ⊢
          obtain ⟨hout', hr⟩ := hfollows q hq hend
          cases h' : m' q with
          | mk out' r' =>
              rw [h'] at hout' hr
              obtain rfl : out' = .ok a := hout'
              simp only [Action.ifAbandoned, h']
              exact ⟨rfl, hr⟩
      | error e =>
          have hsame : m.ifAbandoned g p = (.error e, g r) := by simp [Action.ifAbandoned, hout]
          refine ⟨hsame ▸ hsteps.trans hlast, ?_, fun q hq hend => ?_⟩
          · rw [hsame]
            exact fun _ _ => hlast.errors (hreports e rfl)
          · rw [hsame] at hend ⊢
            obtain ⟨hout', hr⟩ := hfollows q hq (C.ends_of_steps hlast hend)
            cases h' : m' q with
            | mk out' r' =>
                rw [h'] at hout' hr
                obtain rfl : out' = .error e := hout'
                simp only [Action.ifAbandoned, h']
                exact ⟨rfl, hcoupled _ _ hr⟩

/-! Steps that read nothing -/

theorem Follows.quiet {a a' : Pass → α} {g g' : Pass → Pass} (hg : ∀ p : Pass, p.Idles (g p))
    (h : ∀ p q, C.Coupled p q → a' q = a p ∧ C.Coupled (g p) (g' q)) :
    C.Follows k (fun p => (.ok (a p), g p)) (fun q => (.ok (a' q), g' q)) := by
  intro p
  refine ⟨(hg p).steps, nofun, fun q hq _ => ?_⟩
  obtain ⟨hvalue, hpasses⟩ := h p q hq
  exact ⟨congrArg Except.ok hvalue, hpasses⟩

theorem Follows.pure (a : α) : C.Follows k (Pure.pure a) (Pure.pure a) :=
  quiet .refl fun _ _ hq => ⟨rfl, hq⟩

theorem Follows.view {g g' : Pass → α} (h : ∀ p q, C.Coupled p q → g' q = g p) :
    C.Follows k (view g) (view g') :=
  quiet .refl fun p q hq => ⟨h p q hq, hq⟩

theorem Follows.update {g g' : Pass → Pass} (hg : ∀ p : Pass, p.Idles (g p))
    (h : ∀ p q, C.Coupled p q → C.Coupled (g p) (g' q)) :
    C.Follows k (update g) (update g') :=
  quiet hg fun p q hq => ⟨rfl, h p q hq⟩

theorem Follows.perform (r : Code.Request) :
    C.Follows k (Action.perform r) (Action.perform r) :=
  update (fun p => .perform p r) fun _ _ hq => C.perform hq r

theorem Follows.emit (i : Instr) : C.Follows k (Action.emit i) (Action.emit i) :=
  perform (.emit i)

theorem Follows.emit? (i : Option Instr) : C.Follows k (Action.emit? i) (Action.emit? i) := by
  cases i with
  | none => exact pure ()
  | some i => exact emit i

theorem Follows.markLabel (label : Label) :
    C.Follows k (Action.markLabel label) (Action.markLabel label) :=
  perform (.markLabel label)

theorem Follows.edit {e e' : Table.Edit} (he : e.Near C.Near e') :
    C.Follows k (Action.edit e) (Action.edit e') :=
  update (fun p => .edit p e) fun _ _ hq => C.edit hq he

theorem Follows.warn (hl : C.Near l l') (c : Caution) :
    C.Follows k (Action.warn l c) (Action.warn l' c) :=
  update (fun _ => .report nofun) fun _ _ hq => C.report hq hl _ _

theorem Follows.newLabel : C.Follows k Action.newLabel Action.newLabel := by
  refine quiet (fun p => .perform p .newLabel) fun p q hq => ⟨?_, C.perform hq _⟩
  obtain ⟨name, hcode⟩ := C.code hq
  rw [hcode]
  rfl

/-! Faults -/

theorem Follows.failAt (hl : C.Near l l') (c : Complaint) :
    C.Follows k (Action.failAt l c : Action α) (Action.failAt l' c) := by
  intro p
  have hreport : p.Steps (p.report .error l c.message) := .of_step (.report _ _ _ _ nofun)
  have hskip := (Pass.moves_resynchronise (p.report .error l c.message)).steps
  have herror := Pass.errorCount_report p l c.message
  refine ⟨hreport.trans hskip, fun _ _ => hskip.errors herror, fun q hq hend => ⟨rfl, ?_⟩⟩
  exact resynchronise (C.report hq hl _ _) (C.ends_of_steps hskip hend) herror hend

theorem Follows.fail (c : Complaint) :
    C.Follows k (Action.fail c : Action α) (Action.fail c) := by
  intro p
  obtain ⟨hsteps, hreports, -⟩ : C.FollowsAt k (Action.failAt p.input.here c : Action α) _ p :=
    failAt (C.near_refl p.input.here) c p
  refine ⟨hsteps, hreports, fun q hq hend => ?_⟩
  have hinside := C.ends_of_steps hsteps (inside_of_errors hend (hreports _ rfl))
  exact (failAt (C.here hq hinside) c p).coupled q hq hend

theorem Follows.failHere (c : Option Token → Complaint) :
    C.Follows k (Action.failHere c : Action α) (Action.failHere c) := by
  intro p
  obtain ⟨hsteps, hreports, hcoupled⟩ : C.FollowsAt k (Action.fail (c p.input.current?) : Action α)
    _ p := fail _ p
  refine ⟨hsteps, hreports, fun q hq hend => ?_⟩
  have hinside := C.ends_of_steps hsteps (inside_of_errors hend (hreports _ rfl))
  have hcurrent := C.current hq hinside
  have hsame : (Action.failHere c : Action α) q = Action.fail (c p.input.current?) q := by
    rw [← hcurrent]
    rfl
  rw [hsame]
  exact hcoupled q hq hend

theorem Follows.require (condition : Prop) [Decidable condition] (c : Complaint) :
    C.Follows k (Action.require condition c) (Action.require condition c) := by
  unfold Action.require
  split
  · exact pure ()
  · exact fail c

theorem Follows.requireAt (condition : Prop) [Decidable condition] (hl : C.Near l l')
    (c : Complaint) :
    C.Follows k (Action.requireAt condition l c) (Action.requireAt condition l' c) := by
  unfold Action.requireAt
  split
  · exact pure ()
  · exact failAt hl c

/-! Reading tokens -/

/-- In front of a token, the rest of the run is compared from inside of the statement. -/
theorem inside_ahead (hm : p.Steps (m p).2) (hp : 0 < p.remaining) (hend : C.Ends k (m p).2) :
    C.Ends .inside p :=
  C.inside_of_ends (C.ends_of_steps hm hend) (.inl hp)

theorem Follows.skip : C.Follows .inside Action.skip Action.skip := by
  intro p
  have hstep : p.Steps p.advance := .of_step (.advance p)
  exact ⟨hstep, nofun, fun q hq hend => ⟨rfl, C.advance hq (C.ends_of_steps hstep hend)⟩⟩

theorem Ahead.skip : C.Ahead k Action.skip Action.skip := by
  intro p hp
  have hstep : p.Steps p.advance := .of_step (.advance p)
  exact ⟨hstep, nofun, fun q hq hend => ⟨rfl, C.advance hq (inside_ahead hstep hp hend)⟩⟩

/-- An action that begins with the move over the current token, at corresponding locations. -/
theorem FollowsAt.advance_bind {f f' : Location → Action β}
    (hinside : C.Ends k ((Action.advance >>= f) p).2 → C.Ends .inside p)
    (hf : ∀ l l', C.Near l l' → C.Follows k (f l) (f' l')) :
    C.FollowsAt k (Action.advance >>= f) (Action.advance >>= f') p := by
  have hstep : p.Steps p.advance := .of_step (.advance p)
  have hfirst := hf p.input.here p.input.here (C.near_refl _) p.advance
  refine ⟨hstep.trans hfirst.steps, hfirst.reports, fun q hq hend => ?_⟩
  have hp := hinside hend
  exact (hf _ _ (C.here hq hp) p.advance).coupled q.advance (C.advance hq hp) hend

theorem Ahead.advance_bind {f f' : Location → Action β}
    (hf : ∀ l l', C.Near l l' → C.Follows k (f l) (f' l')) :
    C.Ahead k (Action.advance >>= f) (Action.advance >>= f') := by
  intro p hp
  refine .advance_bind (fun hend => ?_) hf
  have hsteps := (hf p.input.here p.input.here (C.near_refl _) p.advance).steps
  exact inside_ahead (m := Action.advance >>= f) (.head (.advance p) hsteps) hp hend

/-- Both runs see the same token. -/
theorem FollowsAt.peek_bind {f f' : Option Token → Action β}
    (hf : C.FollowsAt k (f p.input.current?) (f' p.input.current?) p)
    (hinside : C.Ends k (f p.input.current? p).2 → C.Ends .inside p) :
    C.FollowsAt k (peek >>= f) (peek >>= f') p := by
  refine hf.congr rfl fun q hq hend => ?_
  rw [bind_ok (peek_apply q), C.current hq (hinside hend)]

theorem Follows.peek_bind {f f' : Option Token → Action β}
    (hf : ∀ t, C.Follows .inside (f t) (f' t)) :
    C.Follows .inside (peek >>= f) (peek >>= f') :=
  fun p => (hf _ p).peek_bind (C.ends_of_steps (hf _ p).steps)

theorem Ahead.peek_bind {f f' : Option Token → Action β}
    (hf : ∀ t, C.Ahead k (f (some t)) (f' (some t))) :
    C.Ahead k (peek >>= f) (peek >>= f') := by
  intro p hp
  obtain ⟨t, ht⟩ := Pass.current_of_pos hp
  have hfollows : C.FollowsAt k (f p.input.current?) (f' p.input.current?) p := ht ▸ hf t p hp
  exact hfollows.peek_bind (inside_ahead hfollows.steps hp)

/-- At the end of the text the first run reports an error. -/
theorem Follows.peek_bind_whole {f f' : Option Token → Action β}
    (hnone : C.Follows k (f none) (f' none)) (hrefuses : (f none).Refuses)
    (hsome : ∀ t, C.Ahead k (f (some t)) (f' (some t))) :
    C.Follows k (peek >>= f) (peek >>= f') := by
  intro p
  cases ht : p.input.current? with
  | none =>
      have hfollows : C.FollowsAt k (f p.input.current?) (f' p.input.current?) p := ht ▸ hnone p
      exact hfollows.peek_bind (inside_of_refuses (ht ▸ hrefuses) hfollows.steps)
  | some t => exact (Ahead.peek_bind hsome) p (Pass.remaining_pos ht)

/-- Whether a mark follows decides how to go on; if it does not, a token is needed. -/
theorem Follows.atMark_bind {mark : Punct} {f f' : Bool → Action β}
    (htrue : C.Ahead k (f true) (f' true)) (hfalse : C.Follows k (f false) (f' false))
    (hmissing : k = .inside ∨ (f false).Refuses) :
    C.Follows k (atMark mark >>= f) (atMark mark >>= f') := by
  intro p
  cases ht : p.input.current? == some (.punct mark) with
  | true =>
      have hpos : 0 < p.remaining := Pass.remaining_pos (beq_iff_eq.mp ht)
      refine (htrue p hpos).congr ?_ fun q hq hend => ?_
      · rw [bind_ok (atMark_apply mark p), ht]
      · have hinside := inside_ahead (htrue p hpos).steps hpos hend
        rw [bind_ok (atMark_apply mark q), C.current hq hinside, ht]
  | false =>
      refine (hfalse p).congr ?_ fun q hq hend => ?_
      · rw [bind_ok (atMark_apply mark p), ht]
      · have hinside := inside_of_missing hmissing (hfalse p).steps hend
        rw [bind_ok (atMark_apply mark q), C.current hq hinside, ht]

/-- An optional token, which the second run misses where the first one does. -/
theorem FollowsAt.accept_bind {t : Token} {f f' : Bool → Action β}
    (htrue : C.Follows k (f true) (f' true)) (hfalse : C.FollowsAt k (f false) (f' false) p)
    (hmissing : ∀ q, C.Coupled p q → C.Ends k (f false p).2 → p.input.current? ≠ some t →
      q.input.current? ≠ some t) :
    C.FollowsAt k (accept t >>= f) (accept t >>= f') p := by
  by_cases ht : p.input.current? = some t
  · have hskip : C.FollowsAt k (skip >>= fun _ => f true) (skip >>= fun _ => f' true) p :=
      (Ahead.skip.bind fun _ => htrue) p (Pass.remaining_pos ht)
    refine hskip.congr ?_ fun q hq hend => ?_
    · rw [Action.accept_bind, if_pos ht]
      rfl
    · have hinside := inside_of_token (C.ends_of_steps hskip.steps hend) ht
      rw [Action.accept_bind, if_pos ((C.current hq hinside).trans ht)]
      rfl
  · refine hfalse.congr ?_ fun q hq hend => ?_
    · rw [Action.accept_bind, if_neg ht]
    · rw [Action.accept_bind, if_neg (hmissing q hq hend ht)]

theorem Follows.accept_bind {t : Token} {f f' : Bool → Action β}
    (htrue : C.Follows k (f true) (f' true)) (hfalse : C.Follows k (f false) (f' false))
    (hmissing : k = .inside ∨ (f false).Refuses) :
    C.Follows k (accept t >>= f) (accept t >>= f') := by
  intro p
  refine .accept_bind htrue (hfalse p) fun q hq hend ht => ?_
  rwa [C.current hq (inside_of_missing hmissing (hfalse p).steps hend)]

/-- The word `else` is looked for behind a statement, where the text may be at its end. -/
theorem Follows.else_bind {f f' : Bool → Action β} (htrue : C.Follows k (f true) (f' true))
    (hfalse : C.Follows k (f false) (f' false)) :
    C.Follows k (acceptWord .elseWord >>= f) (acceptWord .elseWord >>= f') := by
  intro p
  refine .accept_bind htrue (hfalse p) fun q hq hend ht hsame => ht ?_
  exact C.current_else hq (C.ends_of_steps (hfalse p).steps hend) hsame

theorem Follows.consume (mark : Punct) :
    C.Follows k (Action.consume mark) (Action.consume mark) :=
  .accept_bind (pure ()) (failHere _) (.inr (.failHere _))

theorem Follows.identifier_bind {what : Expectation} {f f' : String × Location → Action β}
    (hf : ∀ name l l', C.Near l l' → C.Follows k (f (name, l)) (f' (name, l'))) :
    C.Follows k (identifier what >>= f) (identifier what >>= f') := by
  intro p
  by_cases h : ∃ name, p.input.current? = some (.ident name)
  · obtain ⟨name, hname⟩ := h
    have hread : ∀ (g : String × Location → Action β) (q : Pass),
        q.input.current? = some (.ident name) →
        (identifier what >>= g) q = (Action.advance >>= fun l => g (name, l)) q := by
      intro g q hq
      rw [bind_ok (identifier_eq_ok.mpr ⟨hq, rfl, rfl⟩)]
      rfl
    have hpos := Pass.remaining_pos hname
    have hadvance : C.FollowsAt k (Action.advance >>= fun l => f (name, l))
        (Action.advance >>= fun l => f' (name, l)) p :=
      Ahead.advance_bind (hf name) p hpos
    refine hadvance.congr (hread f p hname) fun q hq hend => hread f' q ?_
    exact (C.current hq (inside_ahead hadvance.steps hpos hend)).trans hname
  · have hmissing : ∀ q : Pass, q.input.current? = p.input.current? →
        identifier what q = Action.failHere (.expected what) q := by
      intro q hq
      unfold identifier
      rw [bind_ok (peek_apply q), hq]
      cases ht : p.input.current? with
      | none => rfl
      | some t => cases t <;> first | rfl | exact absurd ⟨_, ht⟩ h
    have hfail : C.FollowsAt k (identifier what) (identifier what) p := by
      refine (failHere (.expected what) p).congr (hmissing p rfl) fun q hq hend => hmissing q ?_
      have hsteps := (failHere (C := C) (k := k) (α := String × Location) (.expected what) p).steps
      have hrejected := rejected_failAt (α := String × Location) p.input.here
        (.expected what p.input.current?) p
      exact C.current hq (C.ends_of_steps hsteps (inside_of_errors hend hrejected.2))
    exact hfail.bind fun ⟨name, l⟩ r _ => hf name l l (C.near_refl l) r

/-! Names -/

/-- A token names the same type in both runs, or no type in the first one. -/
theorem typeOf (h : C.Coupled p q) (hp : C.Ends .inside p) :
    typeOf? q.table q.input.current? = typeOf? p.table p.input.current? ∨
      C.Strict ∧ typeOf? p.table p.input.current? = none ∧ p.Unresolved := by
  rw [C.current h hp]
  cases ht : p.input.current? with
  | none => exact .inl rfl
  | some t =>
      cases t with
      | ident name =>
          rcases (C.table h).resolveType name with hsame | ⟨hstrict, hnone, hname⟩
          · exact .inl hsame
          · exact .inr ⟨hstrict, hnone, name, ht, hname⟩
      | punct mark => cases mark <;> exact .inl rfl
      | keyword _ | literal _ | unknown _ => exact .inl rfl

theorem not_ends_of_errors (hstrict : C.Strict) (he : 0 < p.diagnostics.errorCount) :
    ¬ C.Ends k p :=
  fun hend => Nat.ne_of_gt he (C.errorCount_eq_zero hstrict hend)

theorem Follows.type : C.Follows k Action.type Action.type := by
  intro p
  have hread {q : Pass} {ty : Ty} (h : typeOf? q.table q.input.current? = some ty) :
      Action.type q = (Action.skip >>= fun _ => Pure.pure ty) q := by
    unfold Action.type
    rw [bind_ok (view_apply _ q), h]
  have hmissing {q : Pass} (h : typeOf? q.table q.input.current? = none) :
      Action.type q = Action.failHere (.expected .type) q := by
    unfold Action.type
    rw [bind_ok (view_apply _ q), h]
  cases htype : typeOf? p.table p.input.current? with
  | some ty =>
      obtain ⟨t, ht⟩ : ∃ t, p.input.current? = some t := by
        cases hcurrent : p.input.current? with
        | none => simp [hcurrent, typeOf?] at htype
        | some t => exact ⟨t, rfl⟩
      have hpos := Pass.remaining_pos ht
      have hskip : C.FollowsAt k (Action.skip >>= fun _ => Pure.pure ty)
        (Action.skip >>= fun _ => Pure.pure ty) p := (Ahead.skip.bind fun _ => pure ty) p hpos
      refine hskip.congr (hread htype) fun q hq hend => hread ?_
      rcases typeOf hq (inside_ahead hskip.steps hpos hend) with hsame | ⟨-, hnone, -⟩
      · exact hsame.trans htype
      · simp [htype] at hnone
  | none =>
      have hfail := failHere (C := C) (k := k) (α := Ty) (.expected .type) p
      refine hfail.congr (hmissing htype) fun q hq hend => hmissing ?_
      have herrors := hfail.reports _ rfl
      have hinside := C.ends_of_steps hfail.steps (inside_of_errors hend herrors)
      rcases typeOf hq hinside with hsame | ⟨hstrict, -⟩
      · exact hsame.trans htype
      · exact absurd hend (not_ends_of_errors hstrict herrors)

/-- Whether a type begins here decides how to go on. Where only the second run sees one, the first
run is at a name that means nothing, and what it takes for an expression has an error. -/
theorem FollowsAt.startsType_bind {f f' : Bool → Action β}
    (htrue : C.FollowsAt k (f true) (f' true) p) (hfalse : C.FollowsAt k (f false) (f' false) p)
    (hlost : p.Lost → 0 < (f false p).2.diagnostics.errorCount)
    (hinside : C.Ends k p → C.Ends .inside p) :
    C.FollowsAt k (startsType >>= f) (startsType >>= f') p := by
  have hsame {q : Pass} (h : C.Coupled p q) (hp : C.Ends k p)
      (hend : typeOf? p.table p.input.current? = none → C.Ends k (f false p).2) :
      typeOf? q.table q.input.current? = typeOf? p.table p.input.current? := by
    rcases typeOf h (hinside hp) with hsame | ⟨hstrict, hnone, hname⟩
    · exact hsame
    · exact absurd (hend hnone) (not_ends_of_errors hstrict (hlost (.inr hname)))
  cases htype : (typeOf? p.table p.input.current?).isSome with
  | true =>
      refine htrue.congr ?_ fun q hq hend => ?_
      · unfold startsType
        rw [bind_ok (view_apply _ p), htype]
      · unfold startsType
        have hp := C.ends_of_steps htrue.steps hend
        rw [bind_ok (view_apply _ q), hsame hq hp (fun hnone => by simp [hnone] at htype), htype]
  | false =>
      refine hfalse.congr ?_ fun q hq hend => ?_
      · unfold startsType
        rw [bind_ok (view_apply _ p), htype]
      · unfold startsType
        have hp := C.ends_of_steps hfalse.steps hend
        rw [bind_ok (view_apply _ q), hsame hq hp (fun _ => hend), htype]

/-- What a name means. A name that means something only in the second run is an error of the
first. -/
theorem Follows.resolve_bind {name : String} {f f' : Option Symbol → Action β}
    (hf : ∀ symbol, C.Follows k (f symbol) (f' symbol))
    (hnone : ∀ p, 0 < (f none p).2.diagnostics.errorCount) :
    C.Follows k (Action.resolve name >>= f) (Action.resolve name >>= f') := by
  intro p
  have hstep : p.Steps (p.resolved name) := .of_step (.resolve p name)
  have hfirst := hf (p.table.resolve name) (p.resolved name)
  refine ⟨hstep.trans hfirst.steps, hfirst.reports, fun q hq hend => ?_⟩
  rcases (C.table hq).resolve name with hsame | ⟨hstrict, hname⟩
  · have hbind : (Action.resolve name >>= f') q = f' (p.table.resolve name) (q.resolved name) := by
      rw [← hsame]
      rfl
    rw [hbind]
    exact hfirst.coupled _ (C.resolved hq name) hend
  · refine absurd hend (not_ends_of_errors hstrict ?_)
    show 0 < (f (p.table.resolve name) (p.resolved name)).2.diagnostics.errorCount
    rw [hname]
    exact hnone _

/-- A name that is declared already is so in both runs, by the language or by the text. -/
theorem Follows.requireFresh (hl : C.Near l l') (what : Declared) (name : String) :
    C.Follows k (Action.requireFresh what name l) (Action.requireFresh what name l') := by
  intro p
  have hsteps : p.Steps (Action.requireFresh what name l p).2 :=
    (alike_requireFresh p (Nat.lt_succ_self _)).2.steps
  have hreports := (Writing.requireFresh (A := fun _ => False) what name l p rfl).abandoned
  refine ⟨hsteps, hreports, fun q hq hend => ?_⟩
  have hrel := (C.table hq).declaredAt name
  unfold Action.requireFresh at hend ⊢
  cases hfirst : p.table.declaredAt? name with
  | none =>
      rw [hfirst] at hrel
      cases hfirst' : q.table.declaredAt? name with
      | none => exact ⟨rfl, hq⟩
      | some _ => simp [hfirst'] at hrel
  | some first =>
      simp only [hfirst] at hrel hend ⊢
      cases hfirst' : q.table.declaredAt? name with
      | none => simp [hfirst'] at hrel
      | some first' =>
          have hnear : C.Near first first' := by simpa [hfirst'] using hrel
          have hreported := C.report hq hl .error (Complaint.alreadyDeclared what name).message
          have herror := Pass.errorCount_report p l (Complaint.alreadyDeclared what name).message
          refine ⟨rfl, ?_⟩
          by_cases hbuiltin : first = .builtin
          · have hbuiltin' := (C.near_builtin hnear).mp hbuiltin
            simp only [hbuiltin, hbuiltin', if_true] at hend ⊢
            have hskip := (Pass.moves_resynchronise
              (p.report .error l (Complaint.alreadyDeclared what name).message)).steps
            exact resynchronise hreported (C.ends_of_steps hskip hend) herror hend
          · have hbuiltin' := fun h => hbuiltin ((C.near_builtin hnear).mpr h)
            simp only [if_neg hbuiltin, if_neg hbuiltin'] at hend ⊢
            have hskip := (Pass.moves_resynchronise
              ((p.report .error l (Complaint.alreadyDeclared what name).message).report .note first
                (Remark.firstDeclared name).message)).steps
            refine resynchronise (C.report hreported hnear _ _) (C.ends_of_steps hskip hend) ?_ hend
            exact (Pass.Steps.of_step (.report _ _ _ _ fun _ => herror)).errors herror

/-! Recursion -/

/-- What follows inside of the bodies follows as a whole. Whatever all runs of the first body have
in common may be used of the runs inside. -/
theorem Follows.recurse_of {body body' : (ι → Action α) → ι → Action α}
    {T : Pass → Except Abandoned α × Pass → Prop}
    (hstuck : ∀ p, T p (Action.failHere .noProgress p)) (hbody : ∀ f i p, T p (body f i p))
    (h : ∀ f g, (∀ j, C.Follows k (f j) (g j)) → (∀ j p, T p (f j p)) →
      ∀ i, C.Follows k (body f i) (body' g i)) (i : ι) :
    C.Follows k (recurse body i) (recurse body' i) := by
  intro p
  induction hn : p.remaining using Nat.strongRecOn generalizing i p with
  | _ n ih =>
      let f : ι → Action α := fun j r =>
        if r.remaining < p.remaining then recurse body j r else Action.failHere .noProgress r
      let g : ι → Action α := fun j r =>
        if r.remaining < p.remaining + C.surplus then recurse body' j r
        else Action.failHere .noProgress r
      -- Corresponding passes are stopped by the guards together.
      have hinner : ∀ j, C.Follows k (f j) (g j) := by
        intro j r
        by_cases hr : r.remaining < p.remaining
        · refine (ih r.remaining (hn ▸ hr) j r rfl).congr (if_pos hr) fun s hs _ => if_pos ?_
          rw [C.remaining hs]
          exact Nat.add_lt_add_right hr _
        · refine (failHere .noProgress r).congr (if_neg hr) fun s hs _ => if_neg ?_
          rw [C.remaining hs]
          exact fun hs => hr (Nat.lt_of_add_lt_add_right hs)
      have hT : ∀ j r, T r (f j r) := by
        intro j r
        by_cases hr : r.remaining < p.remaining
        · have heq : f j r = recurse body j r := if_pos hr
          rw [heq, recurse_apply]
          exact hbody _ _ _
        · have heq : f j r = Action.failHere .noProgress r := if_neg hr
          rw [heq]
          exact hstuck r
      refine (h f g hinner hT i p).congr (recurse_apply body i p) fun q hq _ => ?_
      rw [recurse_apply, C.remaining hq]

theorem Follows.recurse {body body' : (ι → Action α) → ι → Action α}
    (h : ∀ f g, (∀ j, C.Follows k (f j) (g j)) → ∀ i, C.Follows k (body f i) (body' g i))
    (i : ι) : C.Follows k (recurse body i) (recurse body' i) :=
  recurse_of (T := fun _ _ => True) (fun _ => trivial) (fun _ _ _ => trivial)
    (fun f g hfg _ => h f g hfg) i

/-- Recursion where every run needs a token. -/
theorem Follows.recurse_refusing {body body' : (ι → Action α) → ι → Action α}
    (hbody : ∀ f i, (body f i).Refuses)
    (h : ∀ f g, (∀ j, C.Follows k (f j) (g j)) → (∀ j, (f j).Refuses) →
      ∀ i, C.Follows k (body f i) (body' g i)) (i : ι) :
    C.Follows k (Action.recurse body i) (Action.recurse body' i) :=
  recurse_of (T := fun p out => p.Lost → Rejected out) (Refuses.failHere _) hbody h i

end Coupling
end OnePass
