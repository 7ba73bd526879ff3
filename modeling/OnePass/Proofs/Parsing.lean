import OnePass.Proofs.Reads

/-!
From trees to runs: where the tokens of a tree stand in front of a token that closes an
expression, the pass reads exactly them and does what the translation of the tree says.
-/

namespace OnePass

/-- Only void is cast to void, and to nothing else. -/
theorem Ty.castable_void {target source : Ty} (h : target.castable source) :
    target = .void ↔ source = .void := by
  cases target <;> cases source <;> simp_all [castable, assignable, isNumeric]

namespace Action

/-! The token behind an expression -/

/-- The token at the front of some lexemes. -/
def next (ls : List Lexeme) : Option Token :=
  ls.head?.map Lexeme.token

/-- The tokens that close an expression. -/
def closes : Token → Bool
  | .punct .rightParen | .punct .rightBracket | .punct .comma | .punct .semicolon => true
  | _ => false

/-- The operators that a further operand follows. -/
def joins (t : Option Token) : Bool :=
  (MultiplicativeOp.ofToken? t).isSome || (AdditiveOp.ofToken? t).isSome ||
    (Relation.ofToken? t).isSome

/-- The tokens that may stand behind a value. Behind an assignment only the end may stand,
since an operator would belong to the value that is assigned. -/
def Stops (ty : Ty) (t : Option Token) : Prop :=
  t.any closes ∨ (ty ≠ .void ∧ joins t)

theorem stops_ne_mark {ty : Ty} {t : Option Token} (h : Stops ty t) (mark : Punct)
    (hm : closes (.punct mark) = false ∧ joins (some (.punct mark)) = false) :
    t ≠ some (.punct mark) := by
  rintro rfl
  rcases h with h | ⟨_, h⟩
  · simp [hm.1] at h
  · simp [hm.2] at h

theorem countAfter_of_stops {ty : Ty} {t : Option Token} (h : Stops ty t) :
    countAfter t = none := by
  have hp := stops_ne_mark h .plusPlus (by decide)
  have hm := stops_ne_mark h .minusMinus (by decide)
  unfold countAfter
  split <;> simp_all

theorem multiplicativeOp_ofToken (op : MultiplicativeOp) :
    MultiplicativeOp.ofToken? (some (.punct op.mark)) = some op := by
  cases op <;> rfl

theorem additiveOp_ofToken (op : AdditiveOp) :
    AdditiveOp.ofToken? (some (.punct op.mark)) = some op := by
  cases op <;> rfl

theorem relation_ofToken (relation : Relation) :
    Relation.ofToken? (some (.punct relation.mark)) = some relation := by
  cases relation <;> rfl

theorem multiplicativeOp_mark {t : Option Token} {op : MultiplicativeOp}
    (h : MultiplicativeOp.ofToken? t = some op) : t = some (.punct op.mark) := by
  unfold MultiplicativeOp.ofToken? at h
  split at h <;> cases h <;> rfl

theorem additiveOp_mark {t : Option Token} {op : AdditiveOp}
    (h : AdditiveOp.ofToken? t = some op) : t = some (.punct op.mark) := by
  unfold AdditiveOp.ofToken? at h
  split at h <;> cases h <;> rfl

theorem relation_mark {t : Option Token} {relation : Relation}
    (h : Relation.ofToken? t = some relation) : t = some (.punct relation.mark) := by
  unfold Relation.ofToken? at h
  split at h <;> cases h <;> rfl

theorem ofToken_of_closes {t : Option Token} (h : t.any closes) :
    MultiplicativeOp.ofToken? t = none ∧ AdditiveOp.ofToken? t = none ∧
      Relation.ofToken? t = none := by
  match t, h with
  | some (.punct mark), h =>
      cases mark <;> first | exact ⟨rfl, rfl, rfl⟩ | exact absurd h (by decide)

theorem multiplicativeOp_of_additive (op : AdditiveOp) :
    MultiplicativeOp.ofToken? (some (.punct op.mark)) = none := by
  cases op <;> rfl

theorem ofToken_of_relation (relation : Relation) :
    MultiplicativeOp.ofToken? (some (.punct relation.mark)) = none ∧
      AdditiveOp.ofToken? (some (.punct relation.mark)) = none := by
  cases relation <;> exact ⟨rfl, rfl⟩

theorem multiplicative_joins (op : MultiplicativeOp) : joins (some (.punct op.mark)) = true := by
  cases op <;> rfl

theorem additive_joins (op : AdditiveOp) : joins (some (.punct op.mark)) = true := by
  cases op <;> rfl

theorem relation_joins (relation : Relation) : joins (some (.punct relation.mark)) = true := by
  cases relation <;> rfl

end Action

namespace Pass.Reads

variable {p q : Pass} {ls rest : List Lexeme} {is : List Instr} {ws : List Tree.Warning}

theorem current (h : p.Reads ls is ws q) (hp : p.input.lexemes = ls ++ rest) :
    q.input.current? = Action.next rest := by
  simp only [Tokens.current?, Action.next, h.rest hp]

end Pass.Reads

namespace Action

variable {n : Nat} {nested : Nonterminal → Action Ty} {p : Pass} {rest : List Lexeme}

theorem require_of {condition : Prop} [Decidable condition] (h : condition) (c : Complaint)
    (p : Pass) : require condition c p = (.ok (), p) :=
  require_eq_ok.mpr ⟨h, rfl⟩

theorem consume_of {mark : Punct} (h : p.input.current? = some (.punct mark)) :
    consume mark p = (.ok (), p.advance) :=
  consume_eq_ok.mpr ⟨h, rfl⟩

theorem resolve_apply (name : String) (p : Pass) :
    resolve name p = (.ok (p.table.resolve name), p.resolved name) := rfl

/-! Operands and places -/

theorem result_ne_void {rule : OperandRule} {a b : Ty} {r : OperandRule.Result}
    (h : rule.result? a b = some r) : a ≠ .void ∧ b ≠ .void ∧ r.ty ≠ .void := by
  unfold OperandRule.result? at h
  split at h <;> cases h <;> simp

theorem operate_reads {rule : OperandRule} {l : Location} {a b : Ty} {r : OperandRule.Result}
    (h : rule.result? a b = some r) (p : Pass) :
    ∃ q, operate rule l a b p = (.ok r.ty, q) ∧
      p.Reads [] [] (r.converted.map fun side => ⟨l, .converted side⟩).toList q := by
  obtain ⟨ha, hb, -⟩ := result_ne_void h
  obtain ⟨ty, converted⟩ := r
  unfold operate
  rw [bind_ok (require_of ⟨ha, hb⟩ _ p), h]
  cases converted with
  | none => exact ⟨p, rfl, .refl p⟩
  | some side => exact ⟨_, rfl, .warn p ⟨l, .converted side⟩⟩

theorem load_reads (storage : Storage) (mode : Option Count) (p : Pass) :
    ∃ q, load storage mode p = (.ok (), q) ∧
      p.Reads [] (Tree.Target.loadCode storage mode) [] q := by
  cases storage with
  | element ref => cases mode <;> exact ⟨_, rfl, .emit p _⟩
  | localVar i | param i | field ref =>
      cases mode with
      | none => exact ⟨_, rfl, .emit p _⟩
      | some m => exact ⟨_, rfl, (Pass.Reads.emit p _).trans (.emit _ _)⟩

/-- The value of a place that no counting sign follows. -/
theorem placeValue_reads {x : Tree.Target} {r : Tree.Translation} {mode : Option Count}
    (name : String) (h : x.load mode = some r) (hc : countAfter p.input.current? = none) :
    ∃ q, placeValue mode name x.storage x.ty p = (.ok r.ty, q) ∧
      p.Reads [] (Tree.Target.loadCode x.storage mode) [] q := by
  unfold Tree.Target.load at h
  split at h
  · rename_i hm
    cases h
    have hmode : countMode mode p = (.ok mode, p) := by
      unfold countMode
      rw [bind_ok (peek_apply p), hc]
      rfl
    obtain ⟨q, hq, hr⟩ := load_reads x.storage mode p
    refine ⟨q, ?_, hr⟩
    unfold placeValue
    rw [bind_ok hmode, bind_ok (require_of hm _ p), bind_ok hq]
    rfl
  · cases h

/-- The value of a place that a counting sign follows. -/
theorem placeValue_after {x : Tree.Target} {r : Tree.Translation} {d : Tree.Direction}
    (name : String) (h : x.load (some d.after) = some r)
    (hc : p.input.current? = some (.punct d.mark)) :
    ∃ q, placeValue none name x.storage x.ty p = (.ok r.ty, q) ∧
      p.Reads [⟨.punct d.mark, p.input.here⟩] (Tree.Target.loadCode x.storage (some d.after)) []
        q := by
  unfold Tree.Target.load at h
  split at h
  · rename_i hm
    cases h
    have hmode : countMode none p = (.ok (some d.after), p.advance) := by
      unfold countMode
      rw [bind_ok (peek_apply p), hc]
      cases d <;> rfl
    obtain ⟨q, hq, hr⟩ := load_reads x.storage (some d.after) p.advance
    refine ⟨q, ?_, (Pass.Reads.advance hc).trans hr⟩
    unfold placeValue
    rw [bind_ok hmode, bind_ok (require_of hm _ _), bind_ok hq]
    rfl
  · cases h

theorem access_of_not_bracket (nested : Nonterminal → Action Ty) (before : Option Count)
    (name : String) (storage : Storage) (ty : Ty)
    (hb : p.input.current? ≠ some (.punct .leftBracket)) :
    access nested before name storage ty p =
      match before with
      | some _ => placeValue before name storage ty p
      | none =>
        if p.input.current? = some (.punct .assign) then assign nested name storage ty p.advance
        else placeValue none name storage ty p := by
  unfold access
  rw [bind_ok (atMark_apply _ p), if_neg (by simpa using hb)]
  cases before with
  | some m => rfl
  | none => exact accept_bind _ _ p

/-- A name that is no array with a bracket behind it is read as a variable, parameter or
field. -/
theorem named_scalar (nested : Nonterminal → Action Ty) (before : Option Count) {name : String}
    {symbol : Symbol} {x : Tree.Target} (hi : p.input.current? = some (.ident name))
    (hs : p.table.resolve name = some symbol) (hx : Tree.scalar? symbol.meaning = some x)
    (hb : p.advance.input.current? ≠ some (.punct .leftBracket)) :
    ∃ q, p.Reads [⟨.ident name, p.input.here⟩] x.code x.warnings q ∧
      named nested before p = access nested before name x.storage x.ty q := by
  refine ⟨p.advance.resolved name, ?_, ?_⟩
  · have hr := (Pass.Reads.advance hi).trans (.resolved p.advance name)
    cases hm : symbol.meaning with
    | param index ty ordinal =>
        cases index <;> simp only [Tree.scalar?, hm, Option.some.injEq, reduceCtorEq] at hx
        subst hx
        exact hr
    | field ref ty | localVar index ty =>
        simp only [Tree.scalar?, hm, Option.some.injEq] at hx
        subst hx
        exact hr
    | type _ | method _ _ _ | function _ _ _ _ | external _ =>
        simp [Tree.scalar?, hm] at hx
  · have hid : identifier .identifier p = (.ok (name, p.input.here), p.advance) :=
      identifier_eq_ok.mpr ⟨hi, rfl, rfl⟩
    have hres := resolve_apply name p.advance
    rw [Pass.table_advance, hs] at hres
    unfold named
    rw [bind_ok hid]
    simp only [bind_ok hres]
    cases hm : symbol.meaning with
    | param index ty ordinal =>
        cases index <;> simp only [Tree.scalar?, hm, Option.some.injEq, reduceCtorEq] at hx
        subst hx
        rfl
    | localVar index ty =>
        simp only [Tree.scalar?, hm, Option.some.injEq] at hx
        subst hx
        rfl
    | field ref ty =>
        simp only [Tree.scalar?, hm, Option.some.injEq] at hx
        subst hx
        simp only [fieldAccess]
        rw [bind_ok (atMark_apply _ _), if_neg (by simpa using hb)]
    | type _ | method _ _ _ | function _ _ _ _ | external _ =>
        simp [Tree.scalar?, hm] at hx

/-- A name of an array field with a bracket behind it is read as an element. -/
theorem named_element (nested : Nonterminal → Action Ty) (before : Option Count) {name : String}
    {symbol : Symbol} {ref : FieldRef} {ty element : Ty}
    (hi : p.input.current? = some (.ident name)) (hs : p.table.resolve name = some symbol)
    (hm : symbol.meaning = .field ref ty) (he : ty.element? = some element)
    (hb : p.advance.input.current? = some (.punct .leftBracket)) :
    ∃ q, p.Reads [⟨.ident name, p.input.here⟩, ⟨.punct .leftBracket, p.advance.input.here⟩]
        [.loadBase ref] [] q ∧
      ∀ r, nested .expression q = (.ok .int, r) →
        r.input.current? = some (.punct .rightBracket) →
        named nested before p = access nested before name (.element ref) element r.advance := by
  have hread := (Pass.Reads.advance hi).trans (.resolved p.advance name)
  have hb' : (p.advance.resolved name).input.current? = some (.punct .leftBracket) := hb
  refine ⟨_, hread.trans ((Pass.Reads.advance hb').trans (.emit _ (.loadBase ref))), ?_⟩
  intro r hr hc
  have hid : identifier .identifier p = (.ok (name, p.input.here), p.advance) :=
    identifier_eq_ok.mpr ⟨hi, rfl, rfl⟩
  have hres := resolve_apply name p.advance
  rw [Pass.table_advance, hs] at hres
  unfold named
  rw [bind_ok hid]
  simp only [bind_ok hres, hm, fieldAccess]
  rw [bind_ok (atMark_apply _ _), if_pos (by simpa using hb), he]
  exact (bind_ok hr).trans ((bind_ok (require_of rfl _ r)).trans (bind_ok (consume_of hc)))

/-! Runs that give a value -/

/-- A run that gives `a`, reads `ls`, writes `is` and warns of `ws`. -/
def Gives {α : Type} (m : Action α) (p : Pass) (a : α) (ls : List Lexeme) (is : List Instr)
    (ws : List Tree.Warning) : Prop :=
  ∃ q, m p = (.ok a, q) ∧ p.Reads ls is ws q

theorem assign_gives (name : String) {x : Tree.Target} {value r : Tree.Translation}
    {ls : List Lexeme} (h : x.store value = some r)
    (hv : Gives (nested .expression) p value.ty ls value.code value.warnings) :
    Gives (assign nested name x.storage x.ty) p r.ty ls
      (value.code ++ (Instr.assignCast? x.ty value.ty).toList ++ [.store x.storage])
      value.warnings := by
  unfold Tree.Target.store at h
  split at h
  · rename_i ha
    cases h
    obtain ⟨q, hq, hr⟩ := hv
    unfold Gives assign
    rw [bind_ok hq, bind_ok (require_of ha _ q)]
    cases Instr.assignCast? x.ty value.ty with
    | none => exact ⟨_, rfl, by simpa using hr.trans (.emit q _)⟩
    | some i => exact ⟨_, rfl, by simpa using hr.trans ((Pass.Reads.emit q i).trans (.emit _ _))⟩
  · cases h

theorem Gives.after {α : Type} {m m' : Action α} {p q : Pass} {a : α}
    {ls ls' : List Lexeme} {is is' : List Instr} {ws ws' : List Tree.Warning}
    (hread : p.Reads ls is ws q) (hrun : m p = m' q) (h : Gives m' q a ls' is' ws') :
    Gives m p a (ls ++ ls') (is ++ is') (ws ++ ws') := by
  obtain ⟨r, hr, hread'⟩ := h
  exact ⟨r, hrun.trans hr, hread.trans hread'⟩

theorem access_value {x : Tree.Target} {r : Tree.Translation} {before : Option Count}
    (name : String) (h : x.load before = some r) (hs : Stops r.ty p.input.current?) :
    Gives (access nested before name x.storage x.ty) p r.ty []
      (Tree.Target.loadCode x.storage before) [] := by
  obtain ⟨q, hq, hr⟩ := placeValue_reads name h (countAfter_of_stops hs)
  refine ⟨q, ?_, hr⟩
  rw [access_of_not_bracket _ _ _ _ _ (stops_ne_mark hs .leftBracket (by decide))]
  cases before with
  | some m => exact hq
  | none => exact (if_neg (stops_ne_mark hs .assign (by decide))).trans hq

theorem access_after {x : Tree.Target} {r : Tree.Translation} {d : Tree.Direction}
    (name : String) (h : x.load (some d.after) = some r)
    (hc : p.input.current? = some (.punct d.mark)) :
    Gives (access nested none name x.storage x.ty) p r.ty [⟨.punct d.mark, p.input.here⟩]
      (Tree.Target.loadCode x.storage (some d.after)) [] := by
  obtain ⟨q, hq, hr⟩ := placeValue_after name h hc
  refine ⟨q, ?_, hr⟩
  rw [access_of_not_bracket _ _ _ _ _ (by rw [hc]; cases d <;> simp [Tree.Direction.mark])]
  exact (if_neg (by rw [hc]; cases d <;> simp [Tree.Direction.mark])).trans hq

theorem access_assign {x : Tree.Target} {value r : Tree.Translation} {ls : List Lexeme}
    (name : String) (h : x.store value = some r)
    (hc : p.input.current? = some (.punct .assign))
    (hv : Gives (nested .expression) p.advance value.ty ls value.code value.warnings) :
    Gives (access nested none name x.storage x.ty) p r.ty (⟨.punct .assign, p.input.here⟩ :: ls)
      (value.code ++ (Instr.assignCast? x.ty value.ty).toList ++ [.store x.storage])
      value.warnings := by
  refine .after (Pass.Reads.advance hc) ?_ (assign_gives name h hv)
  rw [access_of_not_bracket _ _ _ _ _ (by simp [hc])]
  exact if_pos hc

theorem unary_gives {op : UnaryOp} {t : Token} {a r : Tree.Translation} {ls : List Lexeme}
    (ht : p.input.current? = some t) (h : a.negate op = some r)
    (ha : Gives (nested .simple) p.advance a.ty ls a.code a.warnings) :
    Gives (unary nested op) p r.ty (⟨t, p.input.here⟩ :: ls) r.code r.warnings := by
  unfold Tree.Translation.negate at h
  split at h
  · rename_i hc
    cases h
    obtain ⟨q, hq, hr⟩ := ha
    unfold Gives unary
    rw [bind_ok (skip_apply p), bind_ok hq, bind_ok (require_of hc _ q)]
    exact ⟨_, rfl, by simpa using ((Pass.Reads.advance ht).trans hr).trans (.emit q _)⟩
  · cases h

theorem castTo_gives {t : Token} {target : Ty} {a r : Tree.Translation} {ls : List Lexeme}
    (ht : p.input.current? = some t) (hty : typeOf? p.table (some t) = some target)
    (hc : p.advance.input.current? = some (.punct .rightParen)) (h : a.cast target = some r)
    (ha : Gives (nested .simple) p.advance.advance a.ty ls a.code a.warnings) :
    Gives (castTo nested) p r.ty
      (⟨t, p.input.here⟩ :: ⟨.punct .rightParen, p.advance.input.here⟩ :: ls) r.code
      r.warnings := by
  unfold Tree.Translation.cast at h
  split at h
  · rename_i hcast
    cases h
    obtain ⟨q, hq, hr⟩ := ha
    have htype : type p = (.ok target, p.advance) := by
      unfold type
      rw [bind_ok (view_apply _ p), ht, hty]
      rfl
    unfold Gives castTo
    rw [bind_ok htype, bind_ok (consume_of hc), bind_ok hq, bind_ok (require_of hcast _ q)]
    have hread := (Pass.Reads.advance ht).trans ((Pass.Reads.advance hc).trans hr)
    exact ⟨_, rfl, by simpa using hread.trans (.emit q _)⟩
  · cases h

theorem parenthesised_cast {t : Token} {target : Ty} {a r : Tree.Translation} {ls : List Lexeme}
    (ho : p.input.current? = some (.punct .leftParen)) (ht : p.advance.input.current? = some t)
    (hty : typeOf? p.table (some t) = some target)
    (hc : p.advance.advance.input.current? = some (.punct .rightParen))
    (h : a.cast target = some r)
    (ha : Gives (nested .simple) p.advance.advance.advance a.ty ls a.code a.warnings) :
    Gives (parenthesised nested) p r.ty
      (⟨.punct .leftParen, p.input.here⟩ :: ⟨t, p.advance.input.here⟩ ::
        ⟨.punct .rightParen, p.advance.advance.input.here⟩ :: ls) r.code r.warnings := by
  have hty' : typeOf? p.advance.table (some t) = some target := by rwa [Pass.table_advance]
  refine .after (Pass.Reads.advance ho) ?_ (castTo_gives ht hty' hc h ha)
  unfold parenthesised startsType
  rw [bind_ok (skip_apply p), bind_ok (view_apply _ _), ht, hty']
  rfl

theorem parenthesised_expression {ty : Ty} {ls : List Lexeme} {is : List Instr}
    {ws : List Tree.Warning} {q : Pass} (ho : p.input.current? = some (.punct .leftParen))
    (hty : typeOf? p.table p.advance.input.current? = none)
    (hq : nested .expression p.advance = (.ok ty, q)) (hread : p.advance.Reads ls is ws q)
    (hc : q.input.current? = some (.punct .rightParen)) :
    Gives (parenthesised nested) p ty
      (⟨.punct .leftParen, p.input.here⟩ :: (ls ++ [⟨.punct .rightParen, q.input.here⟩])) is
      ws := by
  have hread' := (Pass.Reads.advance ho).trans (hread.trans (.advance hc))
  refine ⟨q.advance, ?_, by simpa using hread'⟩
  unfold parenthesised startsType
  rw [bind_ok (skip_apply p), bind_ok (view_apply _ _), Pass.table_advance, hty]
  exact (bind_ok hq).trans (bind_ok (consume_of hc))

/-! The loops -/

theorem factors_stop (nested : Nonterminal → Action Ty) {left : Ty}
    (h : MultiplicativeOp.ofToken? p.input.current? = none) :
    factors nested left p = (.ok left, p) := by
  rw [factors, recurse_apply]
  unfold factorsRound
  rw [bind_ok (peek_apply p), h]
  rfl

theorem factors_step {left right ty : Ty} {op : MultiplicativeOp} {q r : Pass}
    (hop : MultiplicativeOp.ofToken? p.input.current? = some op)
    (hs : simpleBody nested p.advance = (.ok right, q))
    (ho : operate op.rule p.input.here left right q = (.ok ty, r))
    (hlt : r.remaining < p.remaining) :
    factors nested left p =
      factors nested ty (r.perform (.emit (.multiplicative op left right))) := by
  rw [factors, recurse_apply]
  unfold factorsRound
  rw [bind_ok (peek_apply p), hop]
  simp only [bind_ok (advance_apply p), bind_ok hs, bind_ok ho]
  exact if_pos hlt

theorem summands_stop (nested : Nonterminal → Action Ty) {left : Ty}
    (h : AdditiveOp.ofToken? p.input.current? = none) :
    summands nested left p = (.ok left, p) := by
  rw [summands, recurse_apply]
  unfold summandsRound
  rw [bind_ok (peek_apply p), h]
  rfl

theorem summands_step {left right ty : Ty} {op : AdditiveOp} {q r : Pass}
    (hop : AdditiveOp.ofToken? p.input.current? = some op)
    (hs : multiplicative nested p.advance = (.ok right, q))
    (ho : combine op p.input.here left right q = (.ok ty, r))
    (hlt : r.remaining < p.remaining) :
    summands nested left p = summands nested ty r := by
  rw [summands, recurse_apply]
  unfold summandsRound
  rw [bind_ok (peek_apply p), hop]
  simp only [bind_ok (advance_apply p), bind_ok hs]
  exact (bind_ok ho).trans (if_pos hlt)

/-- A product is read whole where no further factor follows. -/
theorem multiplicative_gives {ty : Ty} {ls : List Lexeme} {is : List Instr}
    {ws : List Tree.Warning}
    (h : ∃ q, multiplicative nested p = factors nested ty q ∧ p.Reads ls is ws q)
    (hi : p.input.lexemes = ls ++ rest) (hm : MultiplicativeOp.ofToken? (next rest) = none) :
    Gives (multiplicative nested) p ty ls is ws := by
  obtain ⟨q, hq, hread⟩ := h
  exact ⟨q, hq.trans (factors_stop nested (hread.current hi ▸ hm)), hread⟩

/-- A sum is read whole where no further summand follows. -/
theorem additive_gives {ty : Ty} {ls : List Lexeme} {is : List Instr} {ws : List Tree.Warning}
    (h : ∃ q, additive nested p = summands nested ty q ∧ p.Reads ls is ws q)
    (hi : p.input.lexemes = ls ++ rest) (ha : AdditiveOp.ofToken? (next rest) = none) :
    Gives (additive nested) p ty ls is ws := by
  obtain ⟨q, hq, hread⟩ := h
  exact ⟨q, hq.trans (summands_stop nested (hread.current hi ▸ ha)), hread⟩

theorem combine_gives {op : AdditiveOp} {l : Location} {a b r : Tree.Translation}
    (h : Tree.Translation.add op l a b = some r) (p : Pass) :
    ∃ is ws, r.code = a.code ++ b.code ++ is ∧ r.warnings = a.warnings ++ b.warnings ++ ws ∧
      Gives (combine op l a.ty b.ty) p r.ty [] is ws := by
  unfold Tree.Translation.add at h
  unfold Gives combine
  split at h
  · rename_i hc
    cases h
    rw [if_pos hc]
    exact ⟨_, [], rfl, by simp, _, rfl, .emit p _⟩
  · rename_i hc
    obtain ⟨res, hres, rfl⟩ := Option.map_eq_some_iff.mp h
    obtain ⟨q, hq, hr⟩ := operate_reads hres p
    rw [if_neg hc, bind_ok hq]
    exact ⟨_, _, rfl, rfl, _, rfl, by simpa using hr.trans (.emit q _)⟩

theorem add_ne_void {op : AdditiveOp} {l : Location} {a b r : Tree.Translation}
    (h : Tree.Translation.add op l a b = some r) : a.ty ≠ .void ∧ b.ty ≠ .void ∧ r.ty ≠ .void := by
  unfold Tree.Translation.add at h
  split at h
  · rename_i hc
    cases h
    simp_all [AdditiveOp.concatenates]
  · obtain ⟨res, hres, rfl⟩ := Option.map_eq_some_iff.mp h
    exact result_ne_void hres

/-- A sum without a sign begins with neither of the two. -/
theorem signed_none (nested : Nonterminal → Action Ty)
    (hplus : p.input.current? ≠ some (.punct .plus))
    (hminus : p.input.current? ≠ some (.punct .minus)) :
    signed nested p = multiplicative nested p := by
  unfold signed
  rw [bind_ok (peek_apply p)]
  generalize p.input.current? = t at hplus hminus
  split <;> first | contradiction | rfl

theorem signed_plus {ty : Ty} {q : Pass} (h : p.input.current? = some (.punct .plus))
    (hq : multiplicative nested p.advance = (.ok ty, q)) (hty : ty = .int ∨ ty = .double) :
    signed nested p = (.ok ty, q) := by
  unfold signed applySign
  rw [bind_ok (peek_apply p), h]
  simp only [bind_ok (skip_apply p), bind_ok hq]
  exact bind_ok (bind_ok (require_of hty _ q))

theorem signed_minus {ty : Ty} {q : Pass} (h : p.input.current? = some (.punct .minus))
    (hq : multiplicative nested p.advance = (.ok ty, q)) (hty : ty = .int ∨ ty = .double) :
    signed nested p = (.ok ty, q.perform (.emit (.unary .neg ty))) := by
  unfold signed applySign
  rw [bind_ok (peek_apply p), h]
  simp only [bind_ok (skip_apply p), bind_ok hq]
  exact bind_ok (bind_ok (require_of hty _ q))

/-! Calls -/

theorem passArgument_gives {param : Option Ty} {arg : Tree.Translation} {more r : Tree.Passed}
    (h : Tree.Passed.cons param arg more = some r) (callee : String) {params : List Ty}
    {index : Nat} (hp : params[index]? = param) (p : Pass) :
    ∃ is, r = ⟨arg.ty :: more.types, arg.code ++ is ++ more.code,
        arg.warnings ++ more.warnings⟩ ∧
      Gives (passArgument callee params index arg.ty) p () [] is [] := by
  unfold Gives passArgument
  rw [hp]
  cases param with
  | none =>
      cases h
      exact ⟨[], by simp, p, rfl, .refl p⟩
  | some ty =>
      simp only [Tree.Passed.cons] at h
      split at h
      · rename_i ha
        cases h
        refine ⟨_, rfl, ?_⟩
        simp only [bind_ok (require_of ha _ p)]
        cases Instr.assignCast? ty arg.ty with
        | none => exact ⟨p, rfl, .refl p⟩
        | some i => exact ⟨_, rfl, .emit p i⟩
      · cases h

theorem moreArguments_last {each : Nat → Ty → Action Unit} {args : List Ty} {ty : Ty}
    {q r : Pass} (hq : nested .expression p = (.ok ty, q))
    (hr : each args.length ty q = (.ok (), r))
    (hc : r.input.current? ≠ some (.punct .comma)) :
    moreArguments nested each args p = (.ok (args ++ [ty]), r) := by
  rw [moreArguments, recurse_apply]
  unfold argumentsRound
  rw [bind_ok hq, bind_ok hr]
  exact (accept_bind _ _ r).trans (if_neg hc)

theorem moreArguments_comma {each : Nat → Ty → Action Unit} {args : List Ty} {ty : Ty}
    {q r : Pass} (hq : nested .expression p = (.ok ty, q))
    (hr : each args.length ty q = (.ok (), r))
    (hc : r.input.current? = some (.punct .comma)) (hlt : r.advance.remaining < p.remaining) :
    moreArguments nested each args p = moreArguments nested each (args ++ [ty]) r.advance := by
  rw [moreArguments, recurse_apply]
  unfold argumentsRound
  rw [bind_ok hq, bind_ok hr]
  exact ((accept_bind _ _ r).trans (if_pos hc)).trans (if_pos hlt)

theorem arguments_none {each : Nat → Ty → Action Unit}
    (ho : p.input.current? = some (.punct .leftParen))
    (hc : p.advance.input.current? = some (.punct .rightParen)) :
    Gives (arguments nested each) p []
      [⟨.punct .leftParen, p.input.here⟩, ⟨.punct .rightParen, p.advance.input.here⟩] [] [] := by
  refine ⟨_, ?_, (Pass.Reads.advance ho).trans (.advance hc)⟩
  unfold arguments
  rw [bind_ok (consume_of ho), bind_ok (atMark_apply _ _), if_pos (by simp [hc])]
  exact bind_ok (consume_of hc)

theorem arguments_some {each : Nat → Ty → Action Unit} {types : List Ty} {ls : List Lexeme}
    {is : List Instr} {ws : List Tree.Warning} {q : Pass}
    (ho : p.input.current? = some (.punct .leftParen))
    (hne : p.advance.input.current? ≠ some (.punct .rightParen))
    (hq : moreArguments nested each [] p.advance = (.ok types, q))
    (hread : p.advance.Reads ls is ws q) (hc : q.input.current? = some (.punct .rightParen)) :
    Gives (arguments nested each) p types
      (⟨.punct .leftParen, p.input.here⟩ :: (ls ++ [⟨.punct .rightParen, q.input.here⟩])) is
      ws := by
  have hread' := (Pass.Reads.advance ho).trans (hread.trans (.advance hc))
  refine ⟨q.advance, ?_, by simpa using hread'⟩
  unfold arguments
  rw [bind_ok (consume_of ho), bind_ok (atMark_apply _ _), if_neg (by simpa using hne)]
  exact (bind_ok hq).trans (bind_ok (consume_of hc))

theorem callMethod_gives {name : String} {returnType : Ty} {params : List Ty} {index : Nat}
    {args : Tree.Passed} {ls : List Lexeme} (l : Location)
    (ha : Gives (arguments nested (passArgument name params)) p args.types ls args.code
      args.warnings)
    (hn : args.types.length = params.length) :
    Gives (callMethod nested name l returnType params (some index)) p returnType ls
      (args.code ++ [.call (.method index)]) args.warnings := by
  obtain ⟨q, hq, hr⟩ := ha
  unfold Gives callMethod
  rw [bind_ok hq]
  simp only [bind_ok (emit_apply _ q), bind_ok (require_of hn _ _)]
  exact ⟨_, rfl, by simpa using hr.trans (.emit q _)⟩

theorem callBuiltin_gives {name : String} {builtin : Builtin} {returnType : Ty}
    {params : List Ty} {variadic : Bool} {args : Tree.Passed} {ls : List Lexeme}
    (ha : Gives (arguments nested (passArgument name params)) p args.types ls args.code
      args.warnings)
    (hn : args.types.length = params.length ∨ (variadic ∧ params.length < args.types.length)) :
    Gives (callBuiltin nested name builtin returnType params variadic) p returnType ls
      (args.code ++ [.call (.intrinsic builtin args.types.length)]) args.warnings := by
  obtain ⟨q, hq, hr⟩ := ha
  unfold Gives callBuiltin
  rw [bind_ok hq, bind_ok (emit_apply _ q), bind_ok (require_of hn _ _)]
  exact ⟨_, rfl, by simpa using hr.trans (.emit q _)⟩

/-- Where there are no parameters, arguments are left as they are. -/
theorem passArgument_nil (callee : String) : (fun _ _ => pure ()) = passArgument callee [] := by
  funext i ty
  simp [passArgument]

theorem callExternal_gives {name : String} {overloads : List Host.Method} {m : Host.Method}
    {args : Tree.Passed} {ls : List Lexeme}
    (ha : Gives (arguments nested (passArgument name [])) p args.types ls args.code
      args.warnings)
    (hm : Host.selectOverload overloads args.types = some m) :
    Gives (callExternal nested name overloads) p m.returnType ls
      (args.code ++ [.call (.external m)]) args.warnings := by
  obtain ⟨q, hq, hr⟩ := ha
  unfold Gives callExternal
  rw [passArgument_nil name, bind_ok hq, hm]
  exact ⟨_, rfl, by simpa using (hr.trans (.record q (.bound name m))).trans (.emit _ _)⟩

/-- A name that is called. -/
theorem named_call {name : String} {symbol : Symbol} {args : Tree.Passed} {r : Tree.Translation}
    {ls : List Lexeme} (hi : p.input.current? = some (.ident name))
    (hs : p.table.resolve name = some symbol) (hr : args.call symbol.meaning = some r)
    (ha : ∀ q callee, p.Reads [⟨.ident name, p.input.here⟩] [] [] q →
      Gives (arguments nested (passArgument callee (Tree.Passed.params symbol.meaning))) q
        args.types ls args.code args.warnings) :
    Gives (named nested none) p r.ty (⟨.ident name, p.input.here⟩ :: ls) r.code r.warnings := by
  have hid : identifier .identifier p = (.ok (name, p.input.here), p.advance) :=
    identifier_eq_ok.mpr ⟨hi, rfl, rfl⟩
  have hres := resolve_apply name p.advance
  rw [Pass.table_advance, hs] at hres
  have hread := (Pass.Reads.advance hi).trans (.resolved p.advance name)
  have hargs := ha _ symbol.name hread
  suffices h : ∃ q, named nested none p = (.ok r.ty, q) ∧
      (p.advance.resolved name).Reads ls r.code r.warnings q by
    obtain ⟨q, hq, hqr⟩ := h
    exact ⟨q, hq, by simpa using hread.trans hqr⟩
  unfold named
  rw [bind_ok hid]
  simp only [bind_ok hres]
  cases hm : symbol.meaning with
  | method returnType params index =>
      rw [hm] at hr hargs
      cases index with
      | none => cases hr
      | some i =>
          simp only [Tree.Passed.call] at hr
          split at hr
          · rename_i hn
            cases hr
            exact callMethod_gives _ hargs hn
          · cases hr
  | function builtin returnType params variadic =>
      rw [hm] at hr hargs
      simp only [Tree.Passed.call] at hr
      split at hr
      · rename_i hn
        cases hr
        exact callBuiltin_gives hargs hn
      · cases hr
  | external overloads =>
      rw [hm] at hr hargs
      simp only [Tree.Passed.call] at hr
      split at hr
      · rename_i hsel
        cases hr
        exact callExternal_gives hargs hsel
      · cases hr
  | param _ _ _ | field _ _ | localVar _ _ | type _ => simp [hm, Tree.Passed.call] at hr

/-! The expressions inside -/

/-- The productions that are used inside run freely on fewer than `n` tokens. -/
def Faithful (n : Nat) (nested : Nonterminal → Action Ty) : Prop :=
  ∀ j q, q.remaining < n → nested j q = recurse production j q

/-- A run of a production is one of its body, whose own nested runs are free on fewer
tokens. -/
theorem exists_faithful (j : Nonterminal) (p : Pass) :
    ∃ nested, Faithful p.remaining nested ∧ recurse production j p = production nested j p := by
  refine ⟨_, ?_, recurse_apply production j p⟩
  intro k q hq
  exact if_pos hq

theorem Faithful.gives (hf : Faithful n nested) {j : Nonterminal} {q : Pass} {ty : Ty}
    {ls : List Lexeme} {is : List Instr} {ws : List Tree.Warning} (hq : q.remaining < n)
    (h : ∀ inner, Faithful q.remaining inner → Gives (production inner j) q ty ls is ws) :
    Gives (nested j) q ty ls is ws := by
  obtain ⟨inner, hi, he⟩ := exists_faithful j q
  unfold Gives
  rw [hf j q hq, he]
  exact h inner hi

end Action

namespace Tree

open OnePass.Action

theorem Place.next_lexemes (place : Place) (rest : List Lexeme) :
    next (place.lexemes ++ rest) = some place.lead := by
  cases place <;> simp [Place.lexemes, Place.lead, next]

theorem Simple.next_lexemes (s : Simple) (rest : List Lexeme) :
    next (s.lexemes ++ rest) = some s.lead := by
  cases s with
  | value place => simp only [Simple.lexemes, Simple.lead, place.next_lexemes]
  | countAfter place l d | assign place l e =>
      simp only [Simple.lexemes, Simple.lead, List.append_assoc, place.next_lexemes]
  | literal _ _ | countBefore _ _ _ | call _ _ _ _ _ | cast _ _ _ _ | paren _ _ _ | unary _ _ _ =>
      simp [Simple.lexemes, Simple.lead, next]

theorem Product.next_lexemes (a : Product) (rest : List Lexeme) :
    next (a.lexemes ++ rest) = some a.lead := by
  match a with
  | .simple s => simp only [Product.lexemes, Product.lead, s.next_lexemes]
  | .times a l op b =>
      simp only [Product.lexemes, Product.lead, List.append_assoc, a.next_lexemes]

theorem Sum.next_lexemes (a : Sum) (rest : List Lexeme) :
    next (a.lexemes ++ rest) = some a.lead := by
  match a with
  | .product .none a =>
      simp only [Sum.lexemes, Sign.lexemes, Sum.lead, List.nil_append, a.next_lexemes]
  | .product (.plus _) _ | .product (.minus _) _ =>
      simp [Sum.lexemes, Sign.lexemes, Sum.lead, next]
  | .plus a l op b => simp only [Sum.lexemes, Sum.lead, List.append_assoc, a.next_lexemes]

theorem Expr.next_lexemes (e : Expr) (rest : List Lexeme) :
    next (e.lexemes ++ rest) = some e.lead := by
  cases e with
  | sum a => simp only [Expr.lexemes, Expr.lead, a.next_lexemes]
  | compare a l relation b =>
      simp only [Expr.lexemes, Expr.lead, List.append_assoc, a.next_lexemes]

/-- The tokens that a product may begin with. -/
def begins : Token → Bool
  | .literal _ | .ident _ => true
  | .punct mark => [.plusPlus, .minusMinus, .leftParen, .minus, .tilde, .bang].contains mark
  | _ => false

theorem Simple.begins_lead (s : Simple) : begins s.lead = true := by
  cases s with
  | value place | countAfter place _ _ | assign place _ _ => cases place <;> rfl
  | countBefore _ d _ => cases d <;> rfl
  | unary _ op _ => cases op <;> rfl
  | literal _ _ | call _ _ _ _ _ | cast _ _ _ _ | paren _ _ _ => rfl

theorem Product.begins_lead (a : Product) : begins a.lead = true := by
  match a with
  | .simple s => exact s.begins_lead
  | .times a _ _ _ => exact a.begins_lead

theorem Sum.begins_lead (a : Sum) : begins a.lead = true ∨ a.lead = .punct .plus := by
  match a with
  | .product .none a => exact .inl a.begins_lead
  | .product (.plus _) _ => exact .inr rfl
  | .product (.minus _) _ => exact .inl rfl
  | .plus a _ _ _ => exact a.begins_lead

theorem Expr.begins_lead (e : Expr) : begins e.lead = true ∨ e.lead = .punct .plus := by
  cases e with
  | sum a | compare a _ _ _ => exact a.begins_lead

theorem ArgumentList.begins_lead (list : ArgumentList) :
    begins list.lead = true ∨ list.lead = .punct .plus := by
  cases list with
  | last e | more e _ _ => exact e.begins_lead

variable {n : Nat} {nested : Nonterminal → Action Ty} {p : Pass} {rest : List Lexeme}

theorem element_eq_some {index : Translation} {m : Meaning} {x : Target}
    (h : element? index m = some x) :
    ∃ ref ty element, m = .field ref ty ∧ ty.element? = some element ∧ index.ty = .int ∧
      x = ⟨.element ref, element, .loadBase ref :: index.code, index.warnings⟩ := by
  cases m with
  | field ref ty =>
      simp only [element?] at h
      split at h
      · rename_i element he
        split at h <;> cases h
        rename_i hint
        exact ⟨ref, ty, element, rfl, he, hint, rfl⟩
      · cases h
  | type _ | localVar _ _ | param _ _ _ | method _ _ _ | function _ _ _ _ | external _ => cases h

theorem ArgumentList.next_lexemes (list : ArgumentList) (rest : List Lexeme) :
    next (list.lexemes ++ rest) = some list.lead := by
  cases list with
  | last e => simp only [ArgumentList.lexemes, ArgumentList.lead, e.next_lexemes]
  | more e l list =>
      simp only [ArgumentList.lexemes, ArgumentList.lead, List.append_assoc, e.next_lexemes]

theorem current_of_append {ls : List Lexeme} {t : Token} (hi : p.input.lexemes = ls ++ rest)
    (hl : next (ls ++ rest) = some t) : p.input.current? = some t := by
  rw [← hl, ← hi]
  rfl

theorem simpleBody_ident {name : String} (h : p.input.current? = some (.ident name)) :
    simpleBody nested p = named nested none p := by
  unfold simpleBody
  rw [bind_ok (peek_apply p), h]

theorem simpleBody_count {d : Direction} (h : p.input.current? = some (.punct d.mark)) :
    simpleBody nested p = counted nested d.before p := by
  unfold simpleBody
  rw [bind_ok (peek_apply p), h]
  cases d <;> rfl

theorem simpleBody_paren (h : p.input.current? = some (.punct .leftParen)) :
    simpleBody nested p = parenthesised nested p := by
  unfold simpleBody
  rw [bind_ok (peek_apply p), h]

theorem simpleBody_unary {op : UnaryOp} (h : p.input.current? = some (.punct op.mark)) :
    simpleBody nested p = unary nested op p := by
  unfold simpleBody
  rw [bind_ok (peek_apply p), h]
  cases op <;> rfl

theorem simpleBody_literal {v : Literal} (h : p.input.current? = some (.literal v)) :
    Gives (simpleBody nested) p v.ty [⟨.literal v, p.input.here⟩] [.const v] [] := by
  unfold Gives simpleBody
  rw [bind_ok (peek_apply p), h]
  exact ⟨_, rfl, (Pass.Reads.advance h).trans (.emit _ _)⟩

theorem counted_eq {d : Direction} {name : String}
    (h : p.advance.input.current? = some (.ident name)) :
    counted nested d.before p = named nested (some d.before) p.advance := by
  unfold counted
  rw [bind_ok (skip_apply p), bind_ok (peek_apply _), h]

theorem load_ty {x : Target} {mode : Option Count} {r : Translation} (h : x.load mode = some r) :
    r = ⟨x.ty, x.code ++ Target.loadCode x.storage mode, x.warnings⟩ := by
  unfold Target.load at h
  split at h <;> cases h
  rfl

theorem store_ty {x : Target} {value r : Translation} (h : x.store value = some r) :
    r = ⟨.void, x.code ++ value.code ++ (Instr.assignCast? x.ty value.ty).toList ++
      [.store x.storage], x.warnings ++ value.warnings⟩ := by
  unfold Target.store at h
  split at h <;> cases h
  rfl

theorem negate_ty {a r : Translation} {op : UnaryOp} (h : a.negate op = some r) :
    r.ty = a.ty := by
  unfold Translation.negate at h
  split at h <;> cases h
  rfl

theorem cast_ty {a r : Translation} {target : Ty} (h : a.cast target = some r) :
    r.ty = .void ↔ a.ty = .void := by
  unfold Translation.cast at h
  split at h <;> cases h
  rename_i hc
  exact Ty.castable_void hc

theorem sign_plus {a r : Translation} {l : Location} (h : a.sign (.plus l) = some r) :
    (a.ty = .int ∨ a.ty = .double) ∧ r = a := by
  simp only [Translation.sign] at h
  split at h <;> cases h
  exact ⟨‹_›, rfl⟩

theorem sign_minus {a r : Translation} {l : Location} (h : a.sign (.minus l) = some r) :
    (a.ty = .int ∨ a.ty = .double) ∧ r = { a with code := a.code ++ [.unary .neg a.ty] } := by
  simp only [Translation.sign] at h
  split at h <;> cases h
  exact ⟨‹_›, rfl⟩

theorem compare_eq_some {relation : Relation} {a b r : Translation}
    (h : Translation.compare relation a b = some r) :
    a.ty ≠ .void ∧ a.ty = b.ty ∧
      r = ⟨.bool, a.code ++ b.code ++ [.compare relation a.ty], a.warnings ++ b.warnings⟩ := by
  unfold Translation.compare at h
  split at h <;> cases h
  rename_i hty
  exact ⟨hty.1, hty.2, rfl⟩

theorem stops_of_void_iff {a b : Ty} {t : Option Token} (h : a = .void ↔ b = .void)
    (hs : Stops a t) : Stops b t :=
  hs.imp_right fun ⟨hv, ht⟩ => ⟨fun hb => hv (h.mpr hb), ht⟩

theorem Place.lead_ident (place : Place) : ∃ name, place.lead = .ident name := by
  cases place <;> exact ⟨_, rfl⟩

theorem simpleBody_place {place : Place} (hi : p.input.lexemes = place.lexemes ++ rest) :
    simpleBody nested p = named nested none p := by
  obtain ⟨name, hname⟩ := place.lead_ident
  exact simpleBody_ident (hname ▸ current_of_append hi (place.next_lexemes rest))

mutual

/-- The tokens of a simple expression are read as it, whatever operator or end follows. -/
theorem Simple.gives (s : Simple) {n : Nat} {nested : Nonterminal → Action Ty} {p : Pass}
    {rest : List Lexeme} {r : Translation} (hf : Faithful n nested) (hn : p.remaining ≤ n)
    (hi : p.input.lexemes = s.lexemes ++ rest) (hp : s.Plain) (hc : s.Clear p.table)
    (hr : s.translate p.table = some r) (hs : Stops r.ty (next rest)) :
    Gives (simpleBody nested) p r.ty s.lexemes r.code r.warnings := by
  have hlead := current_of_append hi (s.next_lexemes rest)
  cases s with
  | literal l v =>
      cases hr
      obtain rfl := Pass.here_of_lexemes hi
      exact simpleBody_literal hlead
  | value place =>
      obtain ⟨x, hx, hload⟩ := Option.bind_eq_some_iff.mp hr
      obtain ⟨q, name, hread, hrun⟩ := place.gives none hf hn hi hp hc hx
        (stops_ne_mark hs .leftBracket (by decide))
      have hq := hread.current hi
      have h := Gives.after hread ((simpleBody_place hi).trans hrun)
        (access_value name hload (hq ▸ hs))
      obtain rfl := load_ty hload
      simpa [Simple.lexemes] using h
  | countBefore l d place =>
      obtain ⟨x, hx, hload⟩ := Option.bind_eq_some_iff.mp hr
      obtain rfl := Pass.here_of_lexemes hi
      have hlead : p.input.current? = some (.punct d.mark) := hlead
      have hstep := Pass.Reads.advance hlead
      have hplace := hstep.rest hi
      obtain ⟨q, name, hread, hrun⟩ := place.gives (some d.before) hf
        (by have := hstep.remaining; omega) hplace hp (by rw [hstep.table]; exact hc)
        (by rw [hstep.table]; exact hx) (stops_ne_mark hs .leftBracket (by decide))
      have hq := hread.current hplace
      obtain ⟨y, hy⟩ := place.lead_ident
      have hident := current_of_append hplace (place.next_lexemes rest)
      rw [hy] at hident
      have h := Gives.after (hstep.trans hread)
        ((simpleBody_count hlead).trans ((counted_eq hident).trans hrun))
        (access_value name hload (hq ▸ hs))
      obtain rfl := load_ty hload
      simpa [Simple.lexemes] using h
  | countAfter place l d =>
      obtain ⟨x, hx, hload⟩ := Option.bind_eq_some_iff.mp hr
      have hplace : p.input.lexemes = place.lexemes ++ ⟨.punct d.mark, l⟩ :: rest := by
        simpa [Simple.lexemes] using hi
      obtain ⟨q, name, hread, hrun⟩ := place.gives none hf hn hplace hp hc hx
        (by cases d <;> simp [next, Direction.mark])
      obtain rfl := Pass.here_of_lexemes (hread.rest hplace)
      have h := Gives.after hread ((simpleBody_place hplace).trans hrun)
        (access_after name hload (hread.current hplace))
      obtain rfl := load_ty hload
      simpa [Simple.lexemes] using h
  | assign place l e =>
      obtain ⟨x, hx, hr⟩ := Option.bind_eq_some_iff.mp hr
      obtain ⟨v, hv, hstore⟩ := Option.bind_eq_some_iff.mp hr
      have hplace : p.input.lexemes =
          place.lexemes ++ ⟨.punct .assign, l⟩ :: (e.lexemes ++ rest) := by
        simpa [Simple.lexemes] using hi
      obtain ⟨q, name, hread, hrun⟩ := place.gives none hf hn hplace hp.1 hc.1 hx (by simp [next])
      have hq : q.input.current? = some (.punct .assign) := hread.current hplace
      obtain rfl := Pass.here_of_lexemes (hread.rest hplace)
      have hstep := Pass.Reads.advance hq
      obtain rfl := store_ty hstore
      -- An assignment is void, so that only the end of the expression can follow its value.
      have hend : (next rest).any closes := hs.resolve_right fun h => h.1 rfl
      have hlt : q.advance.remaining < n := by
        have := (hread.trans hstep).remaining
        simp only [List.length_append, List.length_singleton] at this
        omega
      have hvalue : Gives (nested .expression) q.advance v.ty e.lexemes v.code v.warnings := by
        refine hf.gives hlt fun inner hinner => ?_
        refine e.gives hinner (Nat.le_refl _) (hstep.rest (hread.rest hplace)) hp.2 ?_ ?_ hend
        · rw [hstep.table, hread.table]
          exact hc.2
        · rw [hstep.table, hread.table]
          exact hv
      have h := Gives.after hread ((simpleBody_place hplace).trans hrun)
        (access_assign name hstore hq hvalue)
      simpa [Simple.lexemes] using h
  | call l name o args c =>
      obtain ⟨symbol, hsym, hr⟩ := Option.bind_eq_some_iff.mp hr
      obtain ⟨passed, hpassed, hcall⟩ := Option.bind_eq_some_iff.mp hr
      have hlead : p.input.current? = some (.ident name) := hlead
      obtain rfl := Pass.here_of_lexemes hi
      unfold Gives
      rw [simpleBody_ident hlead]
      refine named_call hlead hsym hcall fun q callee hread => ?_
      refine args.gives callee o c hf ?_ (hread.rest hi) hp ?_ ?_
      · have := hread.remaining
        simp only [List.length_singleton] at this
        omega
      · rw [hread.table]
        exact hc
      · rw [hread.table]
        exact hpassed
  | cast o type c s =>
      obtain ⟨type, l⟩ := type
      obtain ⟨target, htarget, hr⟩ := Option.bind_eq_some_iff.mp hr
      obtain ⟨a, ha, hcast⟩ := Option.bind_eq_some_iff.mp hr
      have hlead : p.input.current? = some (.punct .leftParen) := hlead
      obtain rfl := Pass.here_of_lexemes hi
      have h1 := Pass.Reads.advance hlead
      have ht : p.advance.input.current? = some type := h1.current hi
      have h2 := Pass.Reads.advance ht
      have hi2 : p.advance.input.lexemes =
          ⟨type, l⟩ :: ⟨.punct .rightParen, c⟩ :: (s.lexemes ++ rest) := h1.rest hi
      obtain rfl := Pass.here_of_lexemes hi2
      have hclose : p.advance.advance.input.current? = some (.punct .rightParen) :=
        h2.current hi2
      have h3 := Pass.Reads.advance hclose
      have hi3 : p.advance.advance.input.lexemes = _ := h2.rest hi2
      obtain rfl := Pass.here_of_lexemes hi3
      have htable := (h1.trans (h2.trans h3)).table
      have hlt : p.advance.advance.advance.remaining < n := by
        have := (h1.trans (h2.trans h3)).remaining
        simp only [List.length_append, List.length_singleton] at this
        omega
      unfold Gives
      rw [simpleBody_paren hlead]
      refine parenthesised_cast hlead ht htarget hclose hcast (hf.gives hlt fun inner hinner => ?_)
      refine s.gives hinner (Nat.le_refl _) (h3.rest hi3) hp ?_ ?_
        (stops_of_void_iff (cast_ty hcast) hs)
      · rw [htable]
        exact hc
      · rw [htable]
        exact ha
  | paren o e c =>
      have hlead : p.input.current? = some (.punct .leftParen) := hlead
      obtain rfl := Pass.here_of_lexemes hi
      have h1 := Pass.Reads.advance hlead
      have hi1 : p.advance.input.lexemes = e.lexemes ++ ⟨.punct .rightParen, c⟩ :: rest := by
        simpa [Simple.lexemes] using h1.rest hi
      have hlt : p.advance.remaining < n := by
        have := h1.remaining
        simp only [List.length_singleton] at this
        omega
      have hinner : Gives (nested .expression) p.advance r.ty e.lexemes r.code r.warnings := by
        refine hf.gives hlt fun inner hinner => ?_
        refine e.gives hinner (Nat.le_refl _) hi1 hp ?_ ?_ rfl
        · rw [h1.table]
          exact hc.2
        · rw [h1.table]
          exact hr
      obtain ⟨q, hq, hread⟩ := hinner
      obtain rfl := Pass.here_of_lexemes (hread.rest hi1)
      have hty := current_of_append hi1 (e.next_lexemes _)
      unfold Gives
      rw [simpleBody_paren hlead]
      exact parenthesised_expression hlead (hty ▸ hc.1) hq hread (hread.current hi1)
  | unary l op s =>
      obtain ⟨a, ha, hneg⟩ := Option.bind_eq_some_iff.mp hr
      obtain rfl := Pass.here_of_lexemes hi
      have hread := Pass.Reads.advance hlead
      have hlt : p.advance.remaining < n := by
        have := hread.remaining
        simp only [List.length_singleton] at this
        omega
      unfold Gives
      rw [simpleBody_unary hlead]
      refine unary_gives hlead hneg (hf.gives hlt fun inner hinner => ?_)
      refine s.gives hinner (Nat.le_refl _) (hread.rest hi) hp ?_ ?_ (negate_ty hneg ▸ hs)
      · rw [hread.table]
        exact hc
      · rw [hread.table]
        exact ha

theorem Place.gives (place : Place) (before : Option Count) {n : Nat}
    {nested : Nonterminal → Action Ty} {p : Pass} {rest : List Lexeme} {x : Target}
    (hf : Faithful n nested) (hn : p.remaining ≤ n)
    (hi : p.input.lexemes = place.lexemes ++ rest) (hp : place.Plain) (hc : place.Clear p.table)
    (hx : place.translate p.table = some x) (hb : next rest ≠ some (.punct .leftBracket)) :
    ∃ q name, p.Reads place.lexemes x.code x.warnings q ∧
      named nested before p = access nested before name x.storage x.ty q := by
  have hlead := current_of_append hi (place.next_lexemes rest)
  cases place with
  | name l name =>
      obtain ⟨symbol, hs, hscalar⟩ := Option.bind_eq_some_iff.mp hx
      have hlead : p.input.current? = some (.ident name) := hlead
      obtain rfl := Pass.here_of_lexemes hi
      have hb' : p.advance.input.current? ≠ some (.punct .leftBracket) :=
        (Pass.Reads.advance hlead).current hi ▸ hb
      obtain ⟨q, hread, hrun⟩ := named_scalar nested before hlead hs hscalar hb'
      exact ⟨q, name, hread, hrun⟩
  | element l name o e c =>
      obtain ⟨symbol, hs, hx⟩ := Option.bind_eq_some_iff.mp hx
      obtain ⟨index, hindex, hel⟩ := Option.bind_eq_some_iff.mp hx
      obtain ⟨ref, ty, element, hm, he, hint, rfl⟩ := element_eq_some hel
      have hlead : p.input.current? = some (.ident name) := hlead
      obtain rfl := Pass.here_of_lexemes hi
      have h1 := Pass.Reads.advance hlead
      have hi1 : p.advance.input.lexemes =
          ⟨.punct .leftBracket, o⟩ :: (e.lexemes ++ ⟨.punct .rightBracket, c⟩ :: rest) := by
        simpa [Place.lexemes] using h1.rest hi
      obtain rfl := Pass.here_of_lexemes hi1
      obtain ⟨q, hread, hrun⟩ := named_element nested before hlead hs hm he
        (Pass.current_of_lexemes hi1)
      have hiq : q.input.lexemes = e.lexemes ++ ⟨.punct .rightBracket, c⟩ :: rest :=
        hread.rest (by simpa [Place.lexemes] using hi)
      have hlt : q.remaining < n := by
        have := hread.remaining
        simp only [List.length_cons] at this
        omega
      have hindex : Gives (nested .expression) q index.ty e.lexemes index.code index.warnings := by
        refine hf.gives hlt fun inner hinner => ?_
        refine e.gives hinner (Nat.le_refl _) hiq hp ?_ ?_ rfl
        · rw [hread.table]
          exact hc
        · rw [hread.table]
          exact hindex
      obtain ⟨r, hr, hread'⟩ := hindex
      have hclose := hread'.current hiq
      obtain rfl := Pass.here_of_lexemes (hread'.rest hiq)
      refine ⟨r.advance, name, ?_, hrun r (hint ▸ hr) hclose⟩
      simpa [Place.lexemes] using hread.trans (hread'.trans (.advance hclose))

theorem Arguments.gives (args : Arguments) (callee : String) (o c : Location) {n : Nat}
    {nested : Nonterminal → Action Ty} {p : Pass} {rest : List Lexeme} {params : List Ty}
    {r : Passed} (hf : Faithful n nested) (hn : p.remaining < n)
    (hi : p.input.lexemes =
      ⟨.punct .leftParen, o⟩ :: (args.lexemes ++ [⟨.punct .rightParen, c⟩]) ++ rest)
    (hp : args.Plain) (hc : args.Clear p.table) (hr : args.translate p.table params = some r) :
    Gives (arguments nested (passArgument callee params)) p r.types
      (⟨.punct .leftParen, o⟩ :: (args.lexemes ++ [⟨.punct .rightParen, c⟩])) r.code
      r.warnings := by
  have ho : p.input.current? = some (.punct .leftParen) := Pass.current_of_lexemes hi
  obtain rfl := Pass.here_of_lexemes hi
  have h1 := Pass.Reads.advance ho
  cases args with
  | none =>
      cases hr
      have hi1 : p.advance.input.lexemes = ⟨.punct .rightParen, c⟩ :: rest := h1.rest hi
      obtain rfl := Pass.here_of_lexemes hi1
      exact arguments_none ho (Pass.current_of_lexemes hi1)
  | some list =>
      have hi1 : p.advance.input.lexemes = list.lexemes ++ ⟨.punct .rightParen, c⟩ :: rest := by
        simpa [Arguments.lexemes] using h1.rest hi
      have hlt : p.advance.remaining < n := by
        have := h1.remaining
        simp only [List.length_singleton] at this
        omega
      obtain ⟨q, hq, hread⟩ := list.gives callee [] params c hf hlt hi1 hp
        (by rw [h1.table]; exact hc) (by rw [h1.table]; exact hr)
      obtain rfl := Pass.here_of_lexemes (hread.rest hi1)
      refine arguments_some ho ?_ hq hread (hread.current hi1)
      rw [current_of_append hi1 (list.next_lexemes _)]
      intro hclose
      have hlead := list.begins_lead
      rw [Option.some.inj hclose] at hlead
      exact absurd hlead (by decide)

theorem ArgumentList.gives (list : ArgumentList) (callee : String) (args params : List Ty)
    (c : Location) {n : Nat} {nested : Nonterminal → Action Ty} {p : Pass} {rest : List Lexeme}
    {r : Passed} (hf : Faithful n nested) (hn : p.remaining < n)
    (hi : p.input.lexemes = list.lexemes ++ ⟨.punct .rightParen, c⟩ :: rest) (hp : list.Plain)
    (hc : list.Clear p.table)
    (hr : list.translate p.table (params.drop args.length) = some r) :
    Gives (moreArguments nested (passArgument callee params) args) p (args ++ r.types)
      list.lexemes r.code r.warnings := by
  cases list with
  | last e =>
      obtain ⟨a, ha, hcons⟩ := Option.bind_eq_some_iff.mp hr
      have harg : Gives (nested .expression) p a.ty e.lexemes a.code a.warnings :=
        hf.gives hn fun inner hinner => e.gives hinner (Nat.le_refl _) hi hp hc ha rfl
      obtain ⟨q, hq, hread⟩ := harg
      obtain ⟨is, rfl, s, hs, hread'⟩ := passArgument_gives hcons callee
        List.head?_drop.symm q
      have hcur := (hread.trans hread').current (by simpa [ArgumentList.lexemes] using hi)
      refine ⟨s, moreArguments_last hq hs (by simp [hcur, next]), ?_⟩
      simpa [ArgumentList.lexemes, Passed.nil] using hread.trans hread'
  | more e l list =>
      obtain ⟨a, ha, hr⟩ := Option.bind_eq_some_iff.mp hr
      obtain ⟨more, hmore, hcons⟩ := Option.bind_eq_some_iff.mp hr
      have hi : p.input.lexemes =
          e.lexemes ++ ⟨.punct .comma, l⟩ :: (list.lexemes ++ ⟨.punct .rightParen, c⟩ :: rest) := by
        simpa [ArgumentList.lexemes] using hi
      have harg : Gives (nested .expression) p a.ty e.lexemes a.code a.warnings :=
        hf.gives hn fun inner hinner => e.gives hinner (Nat.le_refl _) hi hp.1 hc.1 ha rfl
      obtain ⟨q, hq, hread⟩ := harg
      obtain ⟨is, rfl, s, hs, hread'⟩ := passArgument_gives hcons callee
        List.head?_drop.symm q
      have hi' : s.input.lexemes = _ := hread'.rest (hread.rest hi)
      have hcomma : s.input.current? = some (.punct .comma) := Pass.current_of_lexemes hi'
      obtain rfl := Pass.here_of_lexemes hi'
      have hread := (hread.trans hread').trans (.advance hcomma)
      have hlt : s.advance.remaining < p.remaining := by
        have := hread.remaining
        simp only [List.length_append, List.length_singleton] at this
        omega
      rw [List.tail_drop] at hmore
      obtain ⟨u, hu, hrest⟩ := list.gives callee (args ++ [a.ty]) params c hf
        (Nat.lt_trans hlt hn) (hread.rest (by simpa using hi)) hp.2
        (by rw [hread.table]; exact hc.2)
        (by rw [hread.table, List.length_append]; exact hmore)
      refine ⟨u, ?_, by simpa [ArgumentList.lexemes] using hread.trans hrest⟩
      rw [moreArguments_comma hq hs hcomma hlt, hu]
      simp

/-- The factors of a product are read up to where they stop; what follows is for the loop to
decide. -/
theorem Product.gives (a : Product) {n : Nat} {nested : Nonterminal → Action Ty} {p : Pass}
    {rest : List Lexeme} {r : Translation} (hf : Faithful n nested) (hn : p.remaining ≤ n)
    (hi : p.input.lexemes = a.lexemes ++ rest) (hp : a.Plain) (hc : a.Clear p.table)
    (hr : a.translate p.table = some r) (hs : Stops r.ty (next rest)) :
    ∃ q, multiplicative nested p = factors nested r.ty q ∧
      p.Reads a.lexemes r.code r.warnings q := by
  match a with
  | .simple s =>
      obtain ⟨q, hq, hread⟩ := s.gives hf hn hi hp hc hr hs
      exact ⟨q, bind_ok hq, hread⟩
  | .times a l op b =>
      obtain ⟨x, hx, hr⟩ := Option.bind_eq_some_iff.mp hr
      obtain ⟨y, hy, hmul⟩ := Option.bind_eq_some_iff.mp hr
      obtain ⟨res, hres, rfl⟩ := Option.map_eq_some_iff.mp hmul
      obtain ⟨hxv, hyv, hrv⟩ := result_ne_void hres
      have hi : p.input.lexemes = a.lexemes ++ ⟨.punct op.mark, l⟩ :: (b.lexemes ++ rest) := by
        simpa [Product.lexemes] using hi
      obtain ⟨q, hq, hread⟩ := a.gives hf hn hi hp.1 hc.1 hx (.inr ⟨hxv, multiplicative_joins op⟩)
      have hi' := hread.rest hi
      have hmark := Pass.current_of_lexemes hi'
      obtain rfl := Pass.here_of_lexemes hi'
      have hstep := Pass.Reads.advance hmark
      have htable := (hread.trans hstep).table
      obtain ⟨u, hu, hb⟩ := b.gives hf (by have := (hread.trans hstep).remaining; omega)
        (hstep.rest hi') hp.2 (by rw [htable]; exact hc.2) (by rw [htable]; exact hy)
        (stops_of_void_iff (by simp [hyv, hrv]) hs)
      obtain ⟨v, hv, hoperate⟩ := operate_reads hres u
      have hlt : v.remaining < q.remaining := by
        have := (hstep.trans (hb.trans hoperate)).remaining
        simp only [List.length_append, List.length_singleton] at this
        omega
      have hop : MultiplicativeOp.ofToken? q.input.current? = some op := by
        rw [hmark]
        exact multiplicativeOp_ofToken op
      refine ⟨_, hq.trans (factors_step hop hu hv hlt), ?_⟩
      simpa [Product.lexemes] using
        hread.trans (hstep.trans (hb.trans (hoperate.trans (.emit v _))))

theorem Sum.gives (a : Sum) {n : Nat} {nested : Nonterminal → Action Ty} {p : Pass}
    {rest : List Lexeme} {r : Translation} (hf : Faithful n nested) (hn : p.remaining ≤ n)
    (hi : p.input.lexemes = a.lexemes ++ rest) (hp : a.Plain) (hc : a.Clear p.table)
    (hr : a.translate p.table = some r) (hs : Stops r.ty (next rest))
    (hm : MultiplicativeOp.ofToken? (next rest) = none) :
    ∃ q, additive nested p = summands nested r.ty q ∧
      p.Reads a.lexemes r.code r.warnings q := by
  have hlead := current_of_append hi (a.next_lexemes rest)
  match a with
  | .product .none a =>
      obtain ⟨x, hx, hsign⟩ := Option.bind_eq_some_iff.mp hr
      cases hsign
      obtain ⟨q, hq, hread⟩ := multiplicative_gives (a.gives hf hn hi hp.2 hc hx hs) hi hm
      have hplus : p.input.current? ≠ some (.punct .plus) := by
        rw [hlead]
        intro h
        have hb := a.begins_lead
        rw [show a.lead = .punct .plus from Option.some.inj h] at hb
        exact absurd hb (by decide)
      have hminus : p.input.current? ≠ some (.punct .minus) := by
        rw [hlead]
        exact fun h => hp.1 rfl (Option.some.inj h)
      exact ⟨q, bind_ok ((signed_none nested hplus hminus).trans hq), hread⟩
  | .product (.plus l) a =>
      obtain ⟨x, hx, hsign⟩ := Option.bind_eq_some_iff.mp hr
      obtain ⟨hty, rfl⟩ := sign_plus hsign
      have hlead : p.input.current? = some (.punct .plus) := hlead
      obtain rfl := Pass.here_of_lexemes hi
      have hstep := Pass.Reads.advance hlead
      have hi1 := hstep.rest hi
      obtain ⟨q, hq, hread⟩ := multiplicative_gives (a.gives hf (by have := hstep.remaining; omega)
        hi1 hp.2 (by rw [hstep.table]; exact hc) (by rw [hstep.table]; exact hx) hs) hi1 hm
      exact ⟨q, bind_ok (signed_plus hlead hq hty), hstep.trans hread⟩
  | .product (.minus l) a =>
      obtain ⟨x, hx, hsign⟩ := Option.bind_eq_some_iff.mp hr
      obtain ⟨hty, rfl⟩ := sign_minus hsign
      have hlead : p.input.current? = some (.punct .minus) := hlead
      obtain rfl := Pass.here_of_lexemes hi
      have hstep := Pass.Reads.advance hlead
      have hi1 := hstep.rest hi
      have hlt := hstep.remaining
      obtain ⟨q, hq, hread⟩ := multiplicative_gives (a.gives (r := x) hf (by omega) hi1 hp.2
        (by rw [hstep.table]; exact hc) (by rw [hstep.table]; exact hx) hs) hi1 hm
      refine ⟨_, bind_ok (signed_minus hlead hq hty), ?_⟩
      simpa [Sum.lexemes, Sum.lead, Sign.lexemes] using hstep.trans (hread.trans (.emit q _))
  | .plus a l op b =>
      obtain ⟨x, hx, hr⟩ := Option.bind_eq_some_iff.mp hr
      obtain ⟨y, hy, hadd⟩ := Option.bind_eq_some_iff.mp hr
      obtain ⟨hxv, hyv, hrv⟩ := add_ne_void hadd
      have hi : p.input.lexemes = a.lexemes ++ ⟨.punct op.mark, l⟩ :: (b.lexemes ++ rest) := by
        simpa [Sum.lexemes] using hi
      obtain ⟨q, hq, hread⟩ := a.gives hf hn hi hp.1 hc.1 hx (.inr ⟨hxv, additive_joins op⟩)
        (multiplicativeOp_of_additive op)
      have hi' := hread.rest hi
      have hmark := Pass.current_of_lexemes hi'
      obtain rfl := Pass.here_of_lexemes hi'
      have hstep := Pass.Reads.advance hmark
      have htable := (hread.trans hstep).table
      have hib := hstep.rest hi'
      obtain ⟨u, hu, hb⟩ := multiplicative_gives
        (b.gives hf (by have := (hread.trans hstep).remaining; omega) hib hp.2
          (by rw [htable]; exact hc.2) (by rw [htable]; exact hy)
          (stops_of_void_iff (by simp [hyv, hrv]) hs)) hib hm
      obtain ⟨is, ws, hcode, hwarnings, v, hv, hcombine⟩ := combine_gives hadd u
      have hlt : v.remaining < q.remaining := by
        have := (hstep.trans (hb.trans hcombine)).remaining
        simp only [List.length_append, List.length_singleton] at this
        omega
      have hop : AdditiveOp.ofToken? q.input.current? = some op := by
        rw [hmark]
        exact additiveOp_ofToken op
      refine ⟨_, hq.trans (summands_step hop hu hv hlt), ?_⟩
      rw [hcode, hwarnings]
      simpa [Sum.lexemes] using hread.trans (hstep.trans (hb.trans hcombine))

/-- The tokens of an expression are read as it in front of a token that closes it. -/
theorem Expr.gives (e : Expr) {n : Nat} {nested : Nonterminal → Action Ty} {p : Pass}
    {rest : List Lexeme} {r : Translation} (hf : Faithful n nested) (hn : p.remaining ≤ n)
    (hi : p.input.lexemes = e.lexemes ++ rest) (hp : e.Plain) (hc : e.Clear p.table)
    (hr : e.translate p.table = some r) (hs : (next rest).any closes) :
    Gives (expressionBody nested) p r.ty e.lexemes r.code r.warnings := by
  obtain ⟨hm, ha, hrel⟩ := ofToken_of_closes hs
  cases e with
  | sum a =>
      obtain ⟨q, hq, hread⟩ := additive_gives (a.gives hf hn hi hp hc hr (.inl hs) hm) hi ha
      refine ⟨q, ?_, hread⟩
      unfold expressionBody
      rw [bind_ok hq, bind_ok (peek_apply q), hread.current hi, hrel]
      rfl
  | compare a l relation b =>
      obtain ⟨x, hx, hr⟩ := Option.bind_eq_some_iff.mp hr
      obtain ⟨y, hy, hcompare⟩ := Option.bind_eq_some_iff.mp hr
      obtain ⟨hxv, hxy, rfl⟩ := compare_eq_some hcompare
      have hi : p.input.lexemes =
          a.lexemes ++ ⟨.punct relation.mark, l⟩ :: (b.lexemes ++ rest) := by
        simpa [Expr.lexemes] using hi
      obtain ⟨hm', ha'⟩ := ofToken_of_relation relation
      obtain ⟨q, hq, hread⟩ := additive_gives (a.gives hf hn hi hp.1 hc.1 hx
        (.inr ⟨hxv, relation_joins relation⟩) hm') hi ha'
      have hi' := hread.rest hi
      have hmark := Pass.current_of_lexemes hi'
      obtain rfl := Pass.here_of_lexemes hi'
      have hstep := Pass.Reads.advance hmark
      have htable := (hread.trans hstep).table
      have hib := hstep.rest hi'
      obtain ⟨u, hu, hb⟩ := additive_gives
        (b.gives hf (by have := (hread.trans hstep).remaining; omega) hib hp.2
          (by rw [htable]; exact hc.2) (by rw [htable]; exact hy) (.inl hs) hm) hib ha
      refine ⟨u.perform (.emit (.compare relation x.ty)), ?_, ?_⟩
      · unfold expressionBody
        rw [bind_ok hq, bind_ok (peek_apply q), hmark, relation_ofToken]
        simp only [bind_ok (skip_apply q), bind_ok hu]
        exact bind_ok (require_of ⟨hxv, hxy⟩ _ u)
      · simpa [Expr.lexemes] using hread.trans (hstep.trans (hb.trans (.emit u _)))

end

end Tree
end OnePass
