import OnePass.Proofs.Writing

/-!
Expressions in any logic of actions. Many properties of runs pass from the single steps to all
expressions by the same way: what an expression writes, what it reports, how many tokens it reads,
how it runs beside another one. A logic of actions has a rule for each kind of step, and the way
through the productions is gone once, for every logic.
-/

namespace OnePass

/-! Where no expression begins -/

namespace Pass

variable {p : Pass}

/-- The current token is a name that means nothing. -/
def Unresolved (p : Pass) : Prop :=
  ∃ name, p.input.current? = some (.ident name) ∧ p.table.resolve name = none

/-- No expression begins here: the text is at its end, or at a name that means nothing. -/
def Lost (p : Pass) : Prop :=
  p.remaining = 0 ∨ p.Unresolved

theorem current_of_remaining (h : p.remaining = 0) : p.input.current? = none := by
  have hend : p.input.lexemes = [] := List.length_eq_zero_iff.mp h
  simp [Tokens.current?, hend]

theorem Lost.current_cases (h : p.Lost) :
    p.input.current? = none ∨
      ∃ name, p.input.current? = some (.ident name) ∧ p.table.resolve name = none := by
  rcases h with h | h
  · exact .inl (current_of_remaining h)
  · exact .inr h

end Pass

namespace Action

section Refusal

variable {α β : Type} {m : Action α} {f : α → Action β} {p : Pass}

/-- The action was abandoned, and an error is counted. -/
def Rejected (out : Except Abandoned α × Pass) : Prop :=
  out.1 = .error {} ∧ 0 < out.2.diagnostics.errorCount

/-- Where no expression begins, the action is abandoned. -/
def Refuses (m : Action α) : Prop :=
  ∀ p : Pass, p.Lost → Rejected (m p)

theorem rejected_failAt (l : Location) (c : Complaint) (p : Pass) :
    Rejected ((failAt l c : Action α) p) :=
  ⟨rfl, Nat.lt_of_lt_of_le (Pass.errorCount_report p l c.message)
    (Pass.Writes.resynchronise _).errors⟩

theorem Rejected.bind (h : Rejected (m p)) : Rejected ((m >>= f) p) := by
  cases hout : m p with
  | mk out q =>
      rw [hout] at h
      obtain ⟨rfl, herrors⟩ := h
      rw [bind_error hout]
      exact ⟨rfl, herrors⟩

theorem Refuses.bind (hm : m.Refuses) : (m >>= f).Refuses :=
  fun p hp => (hm p hp).bind

theorem refuses_simpleBody (nested : Nonterminal → Action Ty) : (simpleBody nested).Refuses := by
  intro p h
  unfold simpleBody
  rw [bind_ok (peek_apply p)]
  rcases h.current_cases with hcurrent | ⟨name, hcurrent, hname⟩
  · rw [hcurrent]
    exact rejected_failAt _ _ p
  · have hresolve : resolve name p.advance = (.ok none, p.advance.resolved name) := by
      unfold resolve Session.resolve
      rw [Pass.table_advance, hname]
      simp [Pass.resolved]
    simp only [hcurrent, named]
    rw [bind_ok (identifier_eq_ok.mpr ⟨hcurrent, rfl, rfl⟩)]
    simp only [bind_ok hresolve]
    exact rejected_failAt _ _ _

theorem refuses_production (nested : Nonterminal → Action Ty) (i : Nonterminal) :
    (production nested i).Refuses := by
  intro p h
  have hsimple := refuses_simpleBody nested p h
  cases i with
  | simple => exact hsimple
  | expression =>
      have hmultiplicative : Rejected (multiplicative nested p) := hsimple.bind
      have hsigned : Rejected (signed nested p) := by
        unfold signed
        rw [bind_ok (peek_apply p)]
        rcases h.current_cases with hcurrent | ⟨name, hcurrent, -⟩ <;>
          simpa only [hcurrent] using hmultiplicative
      exact hsigned.bind.bind

end Refusal

/-! Logics of actions -/

/-- A judgement of two actions that run side by side. It is made at a pass of the first run. -/
structure Judgement where
  /-- A place that both runs have passed and may still report at. -/
  Origin : Type
  first : Origin → Location
  second : Origin → Location
  /-- What has been found of the names. -/
  Means : String → Symbol → Prop
  /-- Whether one of the runs may take for an expression what the other one takes for a type. -/
  Careful : Prop
  On {α : Type} : Pass → Origin → Action α → Action α → Prop
  /-- The stricter judgement of actions that a production begins with. -/
  Begun {α : Type} : Pass → Origin → Action α → Action α → Prop

namespace Judgement

variable (J : Judgement) {α : Type}

def Holds (o : J.Origin) (m m' : Action α) : Prop :=
  ∀ p, J.On p o m m'

def Begins (o : J.Origin) (m m' : Action α) : Prop :=
  ∀ p, J.Begun p o m m'

/-- Names mean in the table what has been found of them. -/
def Knows (t : Table) : Prop :=
  ∀ name symbol, J.Means name symbol → t.resolve name = some symbol

def Allows (i : Instr) : Prop :=
  ∀ t, J.Knows t → t.Allows i

def Offers (storage : Storage) (ty : Ty) : Prop :=
  ∀ t, J.Knows t → t.Offers storage ty

end Judgement

/-- The rules by which expressions are judged. -/
structure Logic extends Judgement where
  pure {α : Type} (p : Pass) (o : Origin) (a : α) : On p o (Pure.pure a) (Pure.pure a)
  bind {α β : Type} {p : Pass} {o : Origin} {m m' : Action α} {f f' : α → Action β} :
    On p o m m' → (∀ a, toJudgement.Holds o (f a) (f' a)) → On p o (m >>= f) (m' >>= f')
  begun_bind {α β : Type} {p : Pass} {o : Origin} {m m' : Action α} {f f' : α → Action β} :
    Begun p o m m' → (∀ a, toJudgement.Holds o (f a) (f' a)) → Begun p o (m >>= f) (m' >>= f')
  on_of_begun {α : Type} {p : Pass} {o : Origin} {m m' : Action α} :
    Begun p o m m' → On p o m m'
  fail {α : Type} (p : Pass) (o : Origin) (c : Complaint) :
    Begun p o (fail c : Action α) (fail c)
  failAt {α : Type} (p : Pass) (o : Origin) (c : Complaint) :
    Begun p o (failAt (first o) c : Action α) (failAt (second o) c)
  emit {p : Pass} {o : Origin} {i : Instr} :
    toJudgement.Allows i → i.promotes = false → On p o (emit i) (emit i)
  /-- An operator that converts one of its operands warns of it and is then written. -/
  operated {β : Type} {p : Pass} {o : Origin} {rule : OperandRule} {left right : Ty} {i : Instr}
      {f f' : Ty → Action β} :
    ((rule.result? left right).isSome → toJudgement.Allows i) →
    i.promotes = decide (left = .int ∧ right = .double ∨ left = .double ∧ right = .int) →
    (∀ ty, toJudgement.Holds o (f ty) (f' ty)) →
    On p o (operate rule (first o) left right >>= fun ty => Action.emit i >>= fun _ => f ty)
      (operate rule (second o) left right >>= fun ty => Action.emit i >>= fun _ => f' ty)
  bound (p : Pass) (o : Origin) (name : String) (m : Host.Method) :
    On p o (update fun p => { p with toSession := p.record (.bound name m) })
      (update fun p => { p with toSession := p.record (.bound name m) })
  peek_bind {β : Type} {p : Pass} {o : Origin} {f f' : Option Token → Action β} :
    On p o (f p.input.current?) (f' p.input.current?) → On p o (peek >>= f) (peek >>= f')
  begun_peek_bind {β : Type} {p : Pass} {o : Origin} {f f' : Option Token → Action β} :
    Begun p o (f p.input.current?) (f' p.input.current?) → Begun p o (peek >>= f) (peek >>= f')
  /-- What follows a token may report at it. No expression reads a semicolon. -/
  advance_bind {β : Type} {p : Pass} {o : Origin} {t : Token} {f f' : Location → Action β} :
    p.input.current? = some t → t ≠ .punct .semicolon →
    (∀ o, toJudgement.Holds o (f (first o)) (f' (second o))) →
    Begun p o (advance >>= f) (advance >>= f')
  resolve_bind {β : Type} {p : Pass} {o : Origin} {name : String}
      {f f' : Option Symbol → Action β} :
    (∀ found, (∀ symbol ∈ found, Means name symbol) →
      toJudgement.Holds o (f found) (f' found)) →
    (∀ q, Rejected (f none q)) → On p o (resolve name >>= f) (resolve name >>= f')
  type (p : Pass) (o : Origin) : On p o type type
  startsType_bind {β : Type} {p : Pass} {o : Origin} {f f' : Bool → Action β} :
    (∀ isType, On p o (f isType) (f' isType)) → (Careful → (f false).Refuses) →
    On p o (startsType >>= f) (startsType >>= f')
  recurse {α ι : Type} {body body' : (ι → Action α) → ι → Action α} :
    (∀ more more', (∀ o i, toJudgement.Holds o (more i) (more' i)) →
      ∀ o i, toJudgement.Holds o (body more i) (body' more' i)) →
    ∀ o i, toJudgement.Holds o (recurse body i) (recurse body' i)

/-- What tells operators apart needs a token, and takes no semicolon for one. -/
theorem exists_of_operator {α : Type} {g : Option Token → Option α} {t : Option Token} {a : α}
    (h : g t = some a) (hend : g none = none) (hmark : g (some (.punct .semicolon)) = none) :
    ∃ token, t = some token ∧ token ≠ .punct .semicolon := by
  cases t with
  | none => cases hend.symm.trans h
  | some token =>
      refine ⟨token, rfl, ?_⟩
      rintro rfl
      cases hmark.symm.trans h

theorem accept_bind_eq {β : Type} (t : Token) (f : Bool → Action β) :
    (accept t >>= f) = peek >>= fun current =>
      if current = some t then skip >>= fun _ => f true else f false := by
  funext p
  rw [accept_bind, bind_ok (peek_apply p)]
  split <;> rfl

theorem identifier_bind_eq {β : Type} (what : Expectation) (f : String × Location → Action β) :
    (identifier what >>= f) = peek >>= fun current => match current with
      | some (.ident name) => advance >>= fun l => f (name, l)
      | _ => failHere (.expected what) := by
  funext p
  unfold identifier
  rw [bind_ok (peek_apply p), bind_apply, bind_ok (peek_apply p)]
  cases p.input.current? with
  | none => rfl
  | some t => cases t <;> rfl

namespace Logic

variable {L : Logic} {α β : Type} {p : Pass} {o : L.Origin}

/-! Rules that follow -/

theorem holds_of_begins {m m' : Action α} (h : L.Begins o m m') : L.Holds o m m' :=
  fun p => L.on_of_begun (h p)

theorem holds_pure (a : α) : L.Holds o (Pure.pure a) (Pure.pure a) :=
  fun p => L.pure p o a

theorem holds_bind {m m' : Action α} {f f' : α → Action β} (hm : L.Holds o m m')
    (hf : ∀ a, L.Holds o (f a) (f' a)) : L.Holds o (m >>= f) (m' >>= f') :=
  fun p => L.bind (hm p) hf

theorem begins_bind {m m' : Action α} {f f' : α → Action β} (hm : L.Begins o m m')
    (hf : ∀ a, L.Holds o (f a) (f' a)) : L.Begins o (m >>= f) (m' >>= f') :=
  fun p => L.begun_bind (hm p) hf

theorem holds_fail (c : Complaint) : L.Holds o (Action.fail c : Action α) (Action.fail c) :=
  fun p => L.on_of_begun (L.fail p o c)

theorem holds_failAt (c : Complaint) :
    L.Holds o (Action.failAt (L.first o) c : Action α) (Action.failAt (L.second o) c) :=
  fun p => L.on_of_begun (L.failAt p o c)

theorem begins_failHere (c : Option Token → Complaint) :
    L.Begins o (failHere c : Action α) (failHere c) := by
  intro p
  show L.Begun p o (peek >>= fun t => Action.fail (c t)) (peek >>= fun t => Action.fail (c t))
  exact L.begun_peek_bind (L.fail p o _)

theorem holds_emit {i : Instr} (h : L.Allows i) (hi : i.promotes = false) :
    L.Holds o (Action.emit i) (Action.emit i) :=
  fun _ => L.emit h hi

theorem holds_emit? {i : Option Instr} (h : ∀ j ∈ i, L.Allows j)
    (hi : ∀ j ∈ i, j.promotes = false) : L.Holds o (emit? i) (emit? i) := by
  cases i with
  | none => exact holds_pure ()
  | some i => exact holds_emit (h i rfl) (hi i rfl)

theorem holds_assignCast (target source : Ty) :
    L.Holds o (emit? (Instr.assignCast? target source)) (emit? (Instr.assignCast? target source)) :=
  holds_emit? (fun _ hi _ _ => allows_assignCast hi) fun _ => promotes_assignCast

/-- An instruction that every table allows. -/
theorem holds_plain {i : Instr} (h : ∀ t : Table, t.Allows i) (hi : i.promotes = false) :
    L.Holds o (Action.emit i) (Action.emit i) :=
  holds_emit (fun t _ => h t) hi

theorem holds_require_bind {condition : Prop} [Decidable condition] {c : Complaint}
    {f f' : Unit → Action β} (h : condition → L.Holds o (f ()) (f' ())) :
    L.Holds o (require condition c >>= f) (require condition c >>= f') := by
  unfold require
  split
  · rename_i hcondition
    exact h hcondition
  · exact holds_fail c

theorem holds_requireAt_bind {condition : Prop} [Decidable condition] {c : Complaint}
    {f f' : Unit → Action β} (h : L.Holds o (f ()) (f' ())) :
    L.Holds o (requireAt condition (L.first o) c >>= f)
      (requireAt condition (L.second o) c >>= f') := by
  unfold requireAt
  split
  · exact h
  · exact holds_failAt c

theorem begun_skip_bind {t : Token} {f f' : Unit → Action β} (hp : p.input.current? = some t)
    (ht : t ≠ .punct .semicolon) (hf : ∀ o, L.Holds o (f ()) (f' ())) :
    L.Begun p o (skip >>= f) (skip >>= f') := by
  show L.Begun p o (advance >>= fun _ => f ()) (advance >>= fun _ => f' ())
  exact L.advance_bind hp ht hf

theorem holds_atMark_bind {mark : Punct} {f f' : Bool → Action β}
    (htrue : ∀ p, p.input.current? = some (.punct mark) → L.On p o (f true) (f' true))
    (hfalse : L.Holds o (f false) (f' false)) :
    L.Holds o (atMark mark >>= f) (atMark mark >>= f') := by
  intro p
  show L.On p o (peek >>= fun t => f (t == some (.punct mark)))
    (peek >>= fun t => f' (t == some (.punct mark)))
  refine L.peek_bind ?_
  by_cases h : p.input.current? = some (.punct mark)
  · simpa only [h, beq_self_eq_true] using htrue p h
  · simpa only [beq_eq_false_iff_ne.mpr h] using hfalse p

theorem holds_acceptMark_bind {mark : Punct} (hmark : mark ≠ .semicolon) {f f' : Bool → Action β}
    (htrue : ∀ o, L.Holds o (f true) (f' true)) (hfalse : L.Holds o (f false) (f' false)) :
    L.Holds o (acceptMark mark >>= f) (acceptMark mark >>= f') := by
  intro p
  unfold acceptMark
  rw [accept_bind_eq, accept_bind_eq]
  refine L.peek_bind ?_
  split
  · rename_i h
    exact L.on_of_begun (begun_skip_bind h (by simpa using hmark) htrue)
  · exact hfalse p

theorem holds_consume {mark : Punct} (hmark : mark ≠ .semicolon) :
    L.Holds o (consume mark) (consume mark) :=
  holds_acceptMark_bind hmark (fun _ => holds_pure ()) (holds_of_begins (begins_failHere _))

theorem begins_identifier_bind {what : Expectation} {f f' : String × Location → Action β}
    (h : ∀ name o, L.Holds o (f (name, L.first o)) (f' (name, L.second o))) :
    L.Begins o (identifier what >>= f) (identifier what >>= f') := by
  intro p
  rw [identifier_bind_eq, identifier_bind_eq]
  refine L.begun_peek_bind ?_
  split
  · rename_i name hname
    exact L.advance_bind hname (by simp) (h name)
  · exact begins_failHere _ p

/-! The productions -/

theorem holds_passArgument {callee : String} {params : List Ty} {index : Nat} {found : Ty} :
    L.Holds o (passArgument callee params index found)
      (passArgument callee params index found) := by
  unfold passArgument
  split
  · exact holds_pure ()
  · exact holds_require_bind fun _ => holds_assignCast _ _

theorem holds_countMode {before : Option Count} :
    L.Holds o (countMode before) (countMode before) := by
  intro p
  refine L.peek_bind ?_
  split
  · exact L.pure p o _
  · exact holds_fail _ p
  · rename_i after hafter
    obtain ⟨t, ht, hmark⟩ := exists_of_operator hafter rfl rfl
    exact L.on_of_begun (begun_skip_bind ht hmark fun _ => holds_pure _)

theorem holds_load {storage : Storage} {ty : Ty} {mode : Option Count}
    (hs : L.Offers storage ty) (hm : mode.isNone ∨ ty.isNumeric) :
    L.Holds o (load storage mode) (load storage mode) := by
  have hcount (m : Count) (h : mode = some m) : L.Allows (.count storage m) :=
    fun t ht => ⟨ty, hs t ht, by simpa [h] using hm⟩
  unfold load
  split
  · exact holds_emit (fun t ht => ⟨ty, hs t ht⟩) rfl
  · exact holds_emit (hcount _ rfl) rfl
  · refine holds_bind (holds_emit (fun t ht => ⟨ty, hs t ht⟩) rfl) fun _ => holds_emit? ?_ ?_
    · intro i hi
      obtain ⟨m, hm, rfl⟩ := Option.map_eq_some_iff.mp hi
      exact hcount m hm
    · intro i hi
      obtain ⟨m, hm, rfl⟩ := Option.map_eq_some_iff.mp hi
      rfl

theorem holds_placeValue {before : Option Count} {name : String} {storage : Storage} {ty : Ty}
    (hs : L.Offers storage ty) :
    L.Holds o (placeValue before name storage ty) (placeValue before name storage ty) := by
  refine holds_bind holds_countMode fun mode => holds_require_bind fun hm => ?_
  exact holds_bind (holds_load hs hm) fun _ => holds_pure _

theorem holds_combine {op : AdditiveOp} {left right : Ty} :
    L.Holds o (combine op (L.first o) left right) (combine op (L.second o) left right) := by
  unfold combine
  split
  · exact holds_bind (holds_plain (fun _ => trivial) rfl) fun _ => holds_pure _
  · exact fun p => L.operated (fun h _ _ => h) rfl holds_pure

theorem holds_applySign {negative : Bool} {ty : Ty} :
    L.Holds o (applySign negative ty) (applySign negative ty) := by
  refine holds_require_bind fun _ => ?_
  split
  · exact holds_plain (fun _ => trivial) rfl
  · exact holds_pure ()

section Nested

variable {nested nested' : Nonterminal → Action Ty}
  (hn : ∀ o j, L.Holds o (nested j) (nested' j))
include hn

theorem holds_moreArguments {each : Nat → Ty → Action Unit}
    (heach : ∀ o i ty, L.Holds o (each i ty) (each i ty)) (args : List Ty) :
    L.Holds o (moreArguments nested each args) (moreArguments nested' each args) := by
  refine L.recurse (fun more more' hmore o args => ?_) o args
  refine holds_bind (hn o .expression) fun ty => holds_bind (heach o _ ty) fun _ => ?_
  exact holds_acceptMark_bind (by decide) (fun o => hmore o _) (holds_pure _)

theorem holds_arguments {each : Nat → Ty → Action Unit}
    (heach : ∀ o i ty, L.Holds o (each i ty) (each i ty)) :
    L.Holds o (arguments nested each) (arguments nested' each) := by
  have hclose (args : List Ty) : L.Holds o (consume .rightParen >>= fun _ => Pure.pure args)
      (consume .rightParen >>= fun _ => Pure.pure args) :=
    holds_bind (holds_consume (by decide)) fun _ => holds_pure args
  refine holds_bind (holds_consume (by decide)) fun _ => holds_atMark_bind (fun p _ => ?_) ?_
  · exact holds_bind (holds_pure []) hclose p
  · exact holds_bind (holds_moreArguments hn heach []) hclose

theorem holds_callMethod {name callee : String} {symbol : Symbol} {returnType : Ty}
    {params : List Ty} {index : Option Nat} (hs : L.Means name symbol)
    (hm : symbol.meaning = .method returnType params index) :
    L.Holds o (callMethod nested callee (L.first o) returnType params index)
      (callMethod nested' callee (L.second o) returnType params index) := by
  refine holds_bind (holds_arguments hn fun _ _ _ => holds_passArgument) fun args => ?_
  cases index with
  | none => exact holds_failAt _
  | some i =>
      refine holds_bind (holds_emit (fun t ht => ?_) rfl) fun _ => ?_
      · exact ⟨name, symbol, returnType, params, ht name symbol hs, hm⟩
      · exact holds_require_bind fun _ => holds_pure _

theorem holds_callBuiltin {callee : String} {builtin : Builtin} {returnType : Ty}
    {params : List Ty} {variadic : Bool} :
    L.Holds o (callBuiltin nested callee builtin returnType params variadic)
      (callBuiltin nested' callee builtin returnType params variadic) := by
  refine holds_bind (holds_arguments hn fun _ _ _ => holds_passArgument) fun args => ?_
  refine holds_bind (holds_plain (fun _ => trivial) rfl) fun _ => ?_
  exact holds_require_bind fun _ => holds_pure _

theorem holds_callExternal {callee : String} {overloads : List Host.Method} :
    L.Holds o (callExternal nested callee overloads) (callExternal nested' callee overloads) := by
  refine holds_bind (holds_arguments hn fun _ _ _ => holds_pure ()) fun args => ?_
  split
  · exact holds_fail _
  · refine holds_bind (fun p => L.bound p o callee _) fun _ => ?_
    exact holds_bind (holds_plain (fun _ => trivial) rfl) fun _ => holds_pure _

theorem holds_assign {name : String} {storage : Storage} {ty : Ty} (hs : L.Offers storage ty) :
    L.Holds o (assign nested name storage ty) (assign nested' name storage ty) := by
  refine holds_bind (hn o .expression) fun found => holds_require_bind fun _ => ?_
  refine holds_bind (holds_assignCast _ _) fun _ => ?_
  exact holds_bind (holds_emit (fun t ht => ⟨ty, hs t ht⟩) rfl) fun _ => holds_pure _

theorem holds_access {before : Option Count} {name : String} {storage : Storage} {ty : Ty}
    (hs : L.Offers storage ty) :
    L.Holds o (access nested before name storage ty)
      (access nested' before name storage ty) := by
  refine holds_atMark_bind (fun p _ => holds_fail _ p) ?_
  cases before with
  | some mode => exact holds_placeValue hs
  | none =>
      refine holds_acceptMark_bind (by decide) (fun _ => ?_) (holds_placeValue hs)
      exact holds_assign hn hs

theorem holds_fieldAccess {before : Option Count} {name : String} {symbol : Symbol}
    {ref : FieldRef} {ty : Ty} (hs : L.Means name symbol)
    (hm : symbol.meaning = .field ref ty) :
    L.Holds o (fieldAccess nested before name ref ty)
      (fieldAccess nested' before name ref ty) := by
  refine holds_atMark_bind (fun p hp => ?_) (holds_access hn fun t ht => ?_)
  · simp only [if_true]
    split
    · exact holds_fail _ p
    · rename_i element he
      have hoffers : L.Offers (.element ref) element :=
        fun t ht => ⟨name, symbol, ht name symbol hs, hm ▸ .element ref he⟩
      refine L.on_of_begun (begun_skip_bind hp (by simp) fun o => ?_)
      refine holds_bind (holds_emit (fun t ht => ⟨element, hoffers t ht⟩) rfl) fun _ => ?_
      refine holds_bind (hn o .expression) fun index => holds_require_bind fun _ => ?_
      exact holds_bind (holds_consume (by decide)) fun _ => holds_access hn hoffers
  · exact ⟨name, symbol, ht name symbol hs, hm ▸ .field ref ty⟩

theorem begins_named {before : Option Count} :
    L.Begins o (named nested before) (named nested' before) := by
  refine begins_identifier_bind fun name o p => L.resolve_bind (fun found hfound => ?_) ?_
  · cases found with
    | none => exact holds_failAt _
    | some symbol =>
        have hs := hfound symbol rfl
        have hoffers {storage : Storage} {ty : Ty} (h : symbol.meaning.Holds storage ty) :
            L.Offers storage ty := fun t ht => ⟨name, symbol, ht name symbol hs, h⟩
        dsimp only
        split <;> rename_i hm
        · exact holds_requireAt_bind (holds_callMethod hn hs hm)
        · exact holds_requireAt_bind (holds_callBuiltin hn)
        · exact holds_requireAt_bind (holds_callExternal hn)
        · exact holds_failAt _
        · exact holds_fieldAccess hn hs hm
        · exact holds_access hn (hoffers (hm ▸ .localVar _ _))
        · exact holds_failAt _
        · exact holds_access hn (hoffers (hm ▸ .param _ _ _))
  · exact rejected_failAt _ _

theorem begun_counted {t : Token} (hp : p.input.current? = some t) (ht : t ≠ .punct .semicolon)
    {mode : Count} : L.Begun p o (counted nested mode) (counted nested' mode) := by
  refine begun_skip_bind hp ht fun o => holds_of_begins fun q => L.begun_peek_bind ?_
  split
  · exact begins_named hn q
  · exact begins_failHere _ q

theorem begun_unary {t : Token} (hp : p.input.current? = some t) (ht : t ≠ .punct .semicolon)
    {op : UnaryOp} : L.Begun p o (unary nested op) (unary nested' op) := by
  refine begun_skip_bind hp ht fun o => holds_bind (hn o .simple) fun ty => ?_
  refine holds_require_bind fun _ => ?_
  exact holds_bind (holds_plain (fun _ => trivial) rfl) fun _ => holds_pure _

theorem holds_castTo : L.Holds o (castTo nested) (castTo nested') := by
  refine holds_bind (fun p => L.type p o) fun target => ?_
  refine holds_bind (holds_consume (by decide)) fun _ => holds_bind (hn o .simple) fun source => ?_
  refine holds_require_bind fun _ => ?_
  exact holds_bind (holds_plain (fun _ => trivial) rfl) fun _ => holds_pure _

variable (hrefuses : L.Careful → ∀ j, (nested j).Refuses)
include hrefuses

theorem begun_parenthesised {t : Token} (hp : p.input.current? = some t)
    (ht : t ≠ .punct .semicolon) :
    L.Begun p o (parenthesised nested) (parenthesised nested') := by
  refine begun_skip_bind hp ht fun o q => L.startsType_bind (fun isType => ?_) fun hcareful => ?_
  · cases isType with
    | true => exact holds_castTo hn q
    | false =>
        refine holds_bind (hn o .expression) (fun ty => ?_) q
        exact holds_bind (holds_consume (by decide)) fun _ => holds_pure ty
  · exact (hrefuses hcareful .expression).bind

theorem begins_simpleBody : L.Begins o (simpleBody nested) (simpleBody nested') := by
  intro p
  refine L.begun_peek_bind ?_
  split <;> rename_i hp
  · refine begun_skip_bind hp (by simp) fun _ => ?_
    exact holds_bind (holds_plain (fun _ => trivial) rfl) fun _ => holds_pure _
  · exact begins_named hn p
  · exact begun_counted hn hp (by simp)
  · exact begun_counted hn hp (by simp)
  · exact begun_parenthesised hn hrefuses hp (by simp)
  · exact begun_unary hn hp (by simp)
  · exact begun_unary hn hp (by simp)
  · exact begun_unary hn hp (by simp)
  · exact begins_failHere _ p

theorem holds_factors (ty : Ty) : L.Holds o (factors nested ty) (factors nested' ty) := by
  refine L.recurse (fun more more' hmore o left p => L.peek_bind ?_) o ty
  split
  · exact L.pure p o _
  · rename_i op hop
    obtain ⟨t, ht, hmark⟩ := exists_of_operator hop rfl rfl
    refine L.on_of_begun (L.advance_bind ht hmark fun o => ?_)
    refine holds_bind (holds_of_begins (begins_simpleBody hn hrefuses)) fun right q => ?_
    exact L.operated (fun h _ _ => h) rfl (hmore o)

theorem begins_multiplicative : L.Begins o (multiplicative nested) (multiplicative nested') :=
  begins_bind (begins_simpleBody hn hrefuses) (holds_factors hn hrefuses)

theorem begins_signed : L.Begins o (signed nested) (signed nested') := by
  have hbehind (negative : Bool) (o : L.Origin) : L.Holds o
      (multiplicative nested >>= fun ty => applySign negative ty >>= fun _ => Pure.pure ty)
      (multiplicative nested' >>= fun ty => applySign negative ty >>= fun _ => Pure.pure ty) :=
    holds_bind (holds_of_begins (begins_multiplicative hn hrefuses)) fun ty =>
      holds_bind holds_applySign fun _ => holds_pure ty
  intro p
  refine L.begun_peek_bind ?_
  split <;> rename_i hp
  · exact begun_skip_bind hp (by simp) (hbehind false)
  · exact begun_skip_bind hp (by simp) (hbehind true)
  · exact begins_multiplicative hn hrefuses p

theorem holds_summands (ty : Ty) : L.Holds o (summands nested ty) (summands nested' ty) := by
  refine L.recurse (fun more more' hmore o left p => L.peek_bind ?_) o ty
  split
  · exact L.pure p o _
  · rename_i op hop
    obtain ⟨t, ht, hmark⟩ := exists_of_operator hop rfl rfl
    refine L.on_of_begun (L.advance_bind ht hmark fun o => ?_)
    refine holds_bind (holds_of_begins (begins_multiplicative hn hrefuses)) fun right => ?_
    exact holds_bind holds_combine (hmore o)

theorem begins_additive : L.Begins o (additive nested) (additive nested') :=
  begins_bind (begins_signed hn hrefuses) (holds_summands hn hrefuses)

/-- What a logic says of the productions inside, it says of a production. -/
theorem begins_production (i : Nonterminal) :
    L.Begins o (production nested i) (production nested' i) := by
  cases i with
  | simple => exact begins_simpleBody hn hrefuses
  | expression =>
      refine begins_bind (begins_additive hn hrefuses) fun left p => L.peek_bind ?_
      split
      · exact L.pure p o _
      · rename_i relation hrelation
        obtain ⟨t, ht, hmark⟩ := exists_of_operator hrelation rfl rfl
        refine L.on_of_begun (begun_skip_bind ht hmark fun o => ?_)
        refine holds_bind (holds_of_begins (begins_additive hn hrefuses)) fun right => ?_
        refine holds_require_bind fun _ => ?_
        exact holds_bind (holds_plain (fun _ => trivial) rfl) fun _ => holds_pure _

end Nested
end Logic

/-! What an expression writes -/

/-- What actions write where the table is `t`. -/
def Logic.writing (t : Table) : Logic where
  Origin := Location
  first := id
  second := id
  Means name symbol := t.resolve name = some symbol
  Careful := False
  On p _ m _ := p.table = t → Outcome t.Allows (fun _ => True) p (m p)
  Begun p _ m _ := p.table = t → Outcome t.Allows (fun _ => True) p (m p)
  pure p _ _ := Writing.pure trivial p
  bind hm hf hp := (hm hp).bind fun a q _ hq => hf a q (hq.trans hp)
  begun_bind hm hf hp := (hm hp).bind fun a q _ hq => hf a q (hq.trans hp)
  on_of_begun := id
  fail p _ c := Writing.fail c p
  failAt p l c := Writing.failAt l c p
  emit {p _ _} h hi := Writing.emit (h t fun _ _ => id) hi p
  operated {_ p l _ _ _ _ _ _} h hi hf :=
    Writing.operated (fun hresult => h hresult t fun _ _ => id) hi l (fun ty q => hf ty q) p
  bound p _ name m := Writing.update (fun p => .bound p name m) p
  peek_bind h := h
  begun_peek_bind h := h
  advance_bind {_ p _ _ _ _} _ _ h := Writing.advance.bind (fun l _ q => h l q) p
  resolve_bind {_ p _ name _ _} h _ :=
    (Writing.resolve name).bind (fun found hfound => h found fun _ hs => hfound.trans hs) p
  type p _ hp := (Writing.type p hp).loose
  startsType_bind h _ := h _
  recurse h l i := Writing.recurse (fun more ih i => h more more (fun _ => ih) l i) i

theorem writing_expression {t : Table} : Writing t t.Allows expression := by
  refine .recurse (fun nested hn i => ?_) _
  have hinside : ∀ l j, (Logic.writing t).Holds l (nested j) (nested j) := fun _ => hn
  exact Logic.begins_production (o := Location.start) hinside False.elim i

end Action
end OnePass
