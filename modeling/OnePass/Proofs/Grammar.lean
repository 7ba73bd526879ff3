import OnePass.Proofs.Tree

/-!
The grammar of the language, as rules over tokens, and what can be derived from it. The grammar
knows no names and no types: a type is an identifier or a star. Every expression that a tree
translates is derivable.
-/

namespace OnePass
namespace Grammar

/-- A kind of token. -/
inductive Terminal where
  | mark (mark : Punct)
  | word (word : Keyword)
  | identifier
  | literal
  | integer
deriving DecidableEq, Repr

namespace Terminal

def admits : Terminal → Token → Bool
  | mark m, .punct m' => m = m'
  | word w, .keyword w' => w = w'
  | identifier, .ident _ => true
  | literal, .literal _ => true
  | integer, .literal (.int _) => true
  | _, _ => false

end Terminal

inductive Nonterminal where
  | program | declaration | arraySuffix | parameters
  | statement | compound | localVariable
  | expression | additive | multiplicative | simple | location | type
deriving DecidableEq, Repr

/-- The right side of a rule. -/
inductive Ebnf where
  | terminal (t : Terminal)
  | nonterminal (n : Nonterminal)
  | sequence (parts : List Ebnf)
  | choice (alternatives : List Ebnf)
  | optional (part : Ebnf)
  | repeated (part : Ebnf)
deriving Repr

namespace Ebnf

def mark (m : Punct) : Ebnf :=
  .terminal (.mark m)

def word (w : Keyword) : Ebnf :=
  .terminal (.word w)

def oneOf (marks : List Punct) : Ebnf :=
  .choice (marks.map mark)

end Ebnf

open Ebnf

/-- A type and the name that is declared with it. -/
def typed : List Ebnf :=
  [nonterminal .type, terminal .identifier]

def addOp : Ebnf := oneOf [.plus, .minus, .bar, .barBar, .caret]

def mulOp : Ebnf := oneOf [.star, .slash, .percent, .amp, .ampAmp]

def relOp : Ebnf := oneOf [.less, .lessEq, .eqEq, .bangEq, .greaterEq, .greater]

def incDecOp : Ebnf := oneOf [.plusPlus, .minusMinus]

/-- The rules of the grammar. -/
def rule : Nonterminal → Ebnf
  | .program => repeated (choice [nonterminal .declaration, nonterminal .statement])
  | .declaration => sequence (typed ++ [choice [
      sequence [nonterminal .arraySuffix, mark .semicolon],
      sequence [mark .leftParen, nonterminal .parameters, mark .rightParen,
        nonterminal .compound],
      mark .semicolon]])
  | .arraySuffix => sequence [mark .leftBracket, terminal .integer, mark .rightBracket]
  | .parameters => optional (sequence (typed ++ [repeated (sequence (mark .comma :: typed))]))
  | .statement => choice [
      nonterminal .compound,
      sequence [word .ifWord, mark .leftParen, nonterminal .expression, mark .rightParen,
        nonterminal .statement, optional (sequence [word .elseWord, nonterminal .statement])],
      sequence [word .whileWord, mark .leftParen, nonterminal .expression, mark .rightParen,
        nonterminal .statement],
      sequence [word .loopWord, nonterminal .statement, word .infiniteWord],
      sequence [word .returnWord, optional (nonterminal .expression), mark .semicolon],
      sequence [word .breakWord, mark .semicolon],
      sequence [word .continueWord, mark .semicolon],
      sequence [optional (nonterminal .expression), mark .semicolon]]
  | .compound => sequence [mark .leftBrace,
      repeated (choice [nonterminal .localVariable, nonterminal .statement]), mark .rightBrace]
  | .localVariable => sequence (typed ++ [mark .semicolon])
  | .expression => sequence [nonterminal .additive,
      optional (sequence [relOp, nonterminal .additive])]
  | .additive => sequence [optional (oneOf [.plus, .minus]), nonterminal .multiplicative,
      repeated (sequence [addOp, nonterminal .multiplicative])]
  | .multiplicative => sequence [nonterminal .simple,
      repeated (sequence [mulOp, nonterminal .simple])]
  | .simple => choice [
      sequence [optional incDecOp, nonterminal .location, optional incDecOp],
      sequence [nonterminal .location, mark .assign, nonterminal .expression],
      sequence [nonterminal .location, mark .leftParen,
        optional (sequence [nonterminal .expression,
          repeated (sequence [mark .comma, nonterminal .expression])]), mark .rightParen],
      sequence [mark .leftParen, nonterminal .type, mark .rightParen, nonterminal .simple],
      sequence [mark .leftParen, nonterminal .expression, mark .rightParen],
      sequence [oneOf [.minus, .tilde, .bang], nonterminal .simple],
      terminal .literal]
  | .location => sequence [terminal .identifier,
      optional (sequence [mark .leftBracket, nonterminal .expression, mark .rightBracket])]
  | .type => choice [terminal .identifier, mark .star]

/-- The token sequences of a right side. -/
inductive Derives : Ebnf → List Token → Prop
  | terminal {t : Terminal} {token : Token} : t.admits token → Derives (.terminal t) [token]
  | nonterminal {n : Nonterminal} {ts : List Token} :
      Derives (rule n) ts → Derives (.nonterminal n) ts
  | nil : Derives (.sequence []) []
  | cons {e : Ebnf} {es : List Ebnf} {ts ts' : List Token} :
      Derives e ts → Derives (.sequence es) ts' → Derives (.sequence (e :: es)) (ts ++ ts')
  | choice {e : Ebnf} {es : List Ebnf} {ts : List Token} :
      e ∈ es → Derives e ts → Derives (.choice es) ts
  | none {e : Ebnf} : Derives (.optional e) []
  | some {e : Ebnf} {ts : List Token} : Derives e ts → Derives (.optional e) ts
  | stop {e : Ebnf} : Derives (.repeated e) []
  | again {e : Ebnf} {ts ts' : List Token} :
      Derives e ts → Derives (.repeated e) ts' → Derives (.repeated e) (ts ++ ts')

namespace Derives

variable {e x : Ebnf} {es es' : List Ebnf} {t : Terminal} {token : Token} {ts ts' : List Token}

/-- The grammar has no place for source text that is no token. -/
theorem ne_unknown (h : Derives e ts) : ∀ text, .unknown text ∉ ts := by
  intro text
  induction h with
  | @terminal t token h =>
      rintro hmem
      obtain rfl := List.mem_singleton.mp hmem
      cases t <;> simp [Terminal.admits] at h
  | nonterminal _ ih | choice _ _ ih | some _ ih => exact ih
  | nil | none | stop => exact List.not_mem_nil
  | cons _ _ ih ih' | again _ _ ih ih' => simp [ih, ih']

/-- A token in front of a sequence. -/
theorem token_cons (ht : t.admits token) (h : Derives (.sequence es) ts) :
    Derives (.sequence (.terminal t :: es)) (token :: ts) :=
  .cons (.terminal ht) h

theorem of_eq (h : Derives e ts) (hts : ts = ts') : Derives e ts' :=
  hts ▸ h

theorem singleton (h : Derives e ts) : Derives (.sequence [e]) ts := by
  simpa using Derives.cons h .nil

theorem of_nonterminal {n : Nonterminal} (h : Derives (.nonterminal n) ts) :
    Derives (rule n) ts := by
  cases h with
  | nonterminal h => exact h

theorem of_cons (h : Derives (.sequence (e :: es)) ts) :
    ∃ us us', ts = us ++ us' ∧ Derives e us ∧ Derives (.sequence es) us' := by
  cases h with
  | cons he hes => exact ⟨_, _, rfl, he, hes⟩

theorem append (h : Derives (.sequence es) ts) (h' : Derives (.sequence es') ts') :
    Derives (.sequence (es ++ es')) (ts ++ ts') := by
  induction es generalizing ts with
  | nil =>
      cases h
      exact h'
  | cons e es ih =>
      obtain ⟨us, us', rfl, he, hes⟩ := of_cons h
      rw [List.append_assoc]
      exact .cons he (ih hes)

theorem of_append (es : List Ebnf) (h : Derives (.sequence (es ++ es')) ts) :
    ∃ us us', ts = us ++ us' ∧ Derives (.sequence es) us ∧ Derives (.sequence es') us' := by
  induction es generalizing ts with
  | nil => exact ⟨[], ts, rfl, .nil, h⟩
  | cons e es ih =>
      obtain ⟨us, us', rfl, he, hes⟩ := of_cons h
      obtain ⟨vs, vs', rfl, hvs, hvs'⟩ := ih hes
      exact ⟨us ++ vs, vs', (List.append_assoc ..).symm, .cons he hvs, hvs'⟩

theorem of_singleton (h : Derives (.sequence [e]) ts) : Derives e ts := by
  obtain ⟨us, us', rfl, he, hnil⟩ := of_cons h
  cases hnil
  simpa using he

/-- The alternative at an index, as the rule lists them. -/
theorem alternative (i : Nat) (hi : es[i]? = Option.some e) (h : Derives e ts) :
    Derives (.choice es) ts :=
  .choice (List.mem_of_getElem? hi) h

theorem mark {m : Punct} : Derives (.mark m) [.punct m] :=
  .terminal (by simp [Terminal.admits])

theorem oneOf {m : Punct} {marks : List Punct} (h : m ∈ marks) :
    Derives (.oneOf marks) [.punct m] :=
  .choice (List.mem_map_of_mem h) .mark

/-- An optional part may be missing in front of a sequence. -/
theorem none_cons (h : Derives (.sequence es) ts) : Derives (.sequence (.optional e :: es)) ts :=
  .cons .none h

theorem stop_cons (h : Derives (.sequence es) ts) : Derives (.sequence (.repeated x :: es)) ts :=
  .cons .stop h

theorem of_optional (h : Derives (.optional e) ts) : ts = [] ∨ Derives e ts := by
  cases h with
  | none => exact .inl rfl
  | some h => exact .inr h

/-- One item and a repetition of such items behind it. -/
theorem repeated_cons (h : Derives (.sequence (x :: .repeated x :: es)) ts) :
    Derives (.sequence (.repeated x :: es)) ts := by
  obtain ⟨us, us', rfl, hx, h⟩ := of_cons h
  obtain ⟨vs, vs', rfl, hrepeated, hes⟩ := of_cons h
  rw [← List.append_assoc]
  exact .cons (.again hx hrepeated) hes

theorem repeated_snoc (h : Derives (.repeated x) ts) (hx : Derives x ts') :
    Derives (.repeated x) (ts ++ ts') := by
  generalize he : Ebnf.repeated x = e at h
  induction h with
  | stop =>
      cases he
      simpa using Derives.again hx .stop
  | again hfirst _ _ ih =>
      cases he
      rw [List.append_assoc]
      exact .again hfirst (ih rfl)
  | terminal _ | nonterminal _ _ | nil | cons _ _ _ _ | choice _ _ _ | none | some _ _ => cases he

/-- A sequence that ends with a repetition goes on. -/
theorem sequence_snoc (es : List Ebnf) (h : Derives (.sequence (es ++ [.repeated x])) ts)
    (hx : Derives x ts') :
    Derives (.sequence (es ++ [.repeated x])) (ts ++ ts') := by
  obtain ⟨us, us', rfl, hes, hrepeated⟩ := of_append es h
  rw [List.append_assoc]
  exact hes.append (singleton (repeated_snoc (of_singleton hrepeated) hx))

end Derives

/-! The tokens of trees -/

/-- The tokens of some lexemes. -/
def tokens (ls : List Lexeme) : List Token :=
  ls.map Lexeme.token

@[simp] theorem tokens_nil : tokens [] = [] := rfl

@[simp] theorem tokens_cons (l : Lexeme) (ls : List Lexeme) :
    tokens (l :: ls) = l.token :: tokens ls := rfl

@[simp] theorem tokens_append (ls ls' : List Lexeme) :
    tokens (ls ++ ls') = tokens ls ++ tokens ls' :=
  List.map_append

end Grammar

namespace Tree

open Grammar

variable {t : Table}

theorem derives_type {token : Token} {ty : Ty}
    (h : Action.typeOf? t (some token) = some ty) : Derives (.nonterminal .type) [token] := by
  refine .nonterminal ?_
  cases token with
  | ident name =>
      refine .alternative 0 rfl ?_
      exact .terminal rfl
  | punct m =>
      cases m with
      | star =>
          refine .alternative 1 rfl ?_
          exact .mark
      | _ => cases h
  | keyword _ | literal _ | unknown _ => cases h

theorem Direction.derives (d : Direction) : Derives incDecOp [.punct d.mark] := by
  cases d <;> exact .oneOf (by decide)

theorem Sign.derives (s : Sign) :
    Derives (.optional (.oneOf [.plus, .minus])) (tokens s.lexemes) := by
  cases s with
  | none => exact .none
  | plus l => exact .some (.oneOf (by decide))
  | minus l => exact .some (.oneOf (by decide))

mutual

/-- What a tree translates can be derived. -/
theorem Simple.derives (s : Simple) {r : Translation} (h : s.translate t = some r) :
    Derives (.nonterminal .simple) (tokens s.lexemes) := by
  refine .nonterminal ?_
  cases s with
  | literal l v =>
      refine .alternative 6 rfl ?_
      exact .terminal rfl
  | value place =>
      obtain ⟨x, hx, -⟩ := Option.bind_eq_some_iff.mp h
      refine .alternative 0 rfl ?_
      refine .of_eq (.cons .none (.cons (place.derives hx) (.cons .none .nil))) ?_
      simp [Simple.lexemes]
  | countBefore l d place =>
      obtain ⟨x, hx, -⟩ := Option.bind_eq_some_iff.mp h
      refine .alternative 0 rfl ?_
      refine .of_eq (.cons (.some d.derives) (.cons (place.derives hx) (.cons .none .nil))) ?_
      simp [Simple.lexemes]
  | countAfter place l d =>
      obtain ⟨x, hx, -⟩ := Option.bind_eq_some_iff.mp h
      refine .alternative 0 rfl ?_
      refine .of_eq (.cons .none (.cons (place.derives hx) (.cons (.some d.derives) .nil))) ?_
      simp [Simple.lexemes]
  | assign place l e =>
      obtain ⟨x, hx, h⟩ := Option.bind_eq_some_iff.mp h
      obtain ⟨v, hv, -⟩ := Option.bind_eq_some_iff.mp h
      refine .alternative 1 rfl ?_
      refine .of_eq (.cons (place.derives hx) (.cons .mark (.cons (e.derives hv) .nil))) ?_
      simp [Simple.lexemes]
  | call l name o args c =>
      obtain ⟨symbol, -, h⟩ := Option.bind_eq_some_iff.mp h
      obtain ⟨a, ha, -⟩ := Option.bind_eq_some_iff.mp h
      have hname : Derives (.nonterminal .location) [.ident name] :=
        .nonterminal (.token_cons rfl (.singleton .none))
      refine .alternative 2 rfl ?_
      refine .of_eq (.cons hname (.cons .mark (.cons (args.derives ha) (.cons .mark .nil)))) ?_
      simp [Simple.lexemes]
  | cast o type c s =>
      obtain ⟨target, htype, h⟩ := Option.bind_eq_some_iff.mp h
      obtain ⟨a, ha, -⟩ := Option.bind_eq_some_iff.mp h
      refine .alternative 3 rfl ?_
      refine .of_eq (.cons .mark (.cons (derives_type htype)
        (.cons .mark (.cons (s.derives ha) .nil)))) ?_
      simp [Simple.lexemes]
  | paren o e c =>
      refine .alternative 4 rfl ?_
      refine .of_eq (.cons .mark (.cons (e.derives h) (.cons .mark .nil))) ?_
      simp [Simple.lexemes]
  | unary l op s =>
      obtain ⟨a, ha, -⟩ := Option.bind_eq_some_iff.mp h
      have hop : Derives (.oneOf [.minus, .tilde, .bang]) [.punct op.mark] := by
        cases op <;> exact .oneOf (by decide)
      refine .alternative 5 rfl ?_
      refine .of_eq (.cons hop (.cons (s.derives ha) .nil)) ?_
      simp [Simple.lexemes]

theorem Place.derives (place : Place) {x : Target} (h : place.translate t = some x) :
    Derives (.nonterminal .location) (tokens place.lexemes) := by
  refine .nonterminal ?_
  cases place with
  | name l name => exact .token_cons rfl (.singleton .none)
  | element l name o e c =>
      obtain ⟨symbol, -, h⟩ := Option.bind_eq_some_iff.mp h
      obtain ⟨index, hindex, -⟩ := Option.bind_eq_some_iff.mp h
      rw [Place.lexemes, tokens_cons]
      refine .token_cons rfl (.singleton (.some ?_))
      refine .of_eq (.cons .mark (.cons (e.derives hindex) (.cons .mark .nil))) ?_
      simp

theorem Arguments.derives (args : Arguments) {params : List Ty} {r : Passed}
    (h : args.translate t params = Option.some r) :
    Derives (.optional (.sequence [.nonterminal .expression,
      .repeated (.sequence [.mark .comma, .nonterminal .expression])])) (tokens args.lexemes) := by
  cases args with
  | none => exact .none
  | some list => exact .some (list.derives h)

theorem ArgumentList.derives (list : ArgumentList) {params : List Ty} {r : Passed}
    (h : list.translate t params = some r) :
    Derives (.sequence [.nonterminal .expression,
      .repeated (.sequence [.mark .comma, .nonterminal .expression])]) (tokens list.lexemes) := by
  cases list with
  | last e =>
      obtain ⟨a, ha, -⟩ := Option.bind_eq_some_iff.mp h
      refine .of_eq (.cons (e.derives ha) (.cons .stop .nil)) ?_
      simp [ArgumentList.lexemes]
  | more e l rest =>
      obtain ⟨a, ha, h⟩ := Option.bind_eq_some_iff.mp h
      obtain ⟨b, hb, -⟩ := Option.bind_eq_some_iff.mp h
      -- The comma joins the expression behind it, and the repetition goes on from there.
      obtain ⟨us, us', hrest, hnext, hmore⟩ := (rest.derives hb).of_cons
      rw [ArgumentList.lexemes, tokens_append, tokens_cons, hrest]
      refine .cons (e.derives ha) (.singleton ?_)
      exact .again (.cons .mark (.singleton hnext)) hmore.of_singleton

theorem Product.derives (a : Product) {r : Translation} (h : a.translate t = some r) :
    Derives (.nonterminal .multiplicative) (tokens a.lexemes) := by
  refine .nonterminal ?_
  match a with
  | .simple s =>
      refine .of_eq (.cons (s.derives h) (.cons .stop .nil)) ?_
      simp [Product.lexemes]
  | .times a l op b =>
      obtain ⟨x, hx, h⟩ := Option.bind_eq_some_iff.mp h
      obtain ⟨y, hy, -⟩ := Option.bind_eq_some_iff.mp h
      have hop : Derives mulOp [.punct op.mark] := by cases op <;> exact .oneOf (by decide)
      have ha := (a.derives hx).of_nonterminal
      rw [Product.lexemes, tokens_append, tokens_cons]
      exact .sequence_snoc [_] ha (.cons hop (.singleton (b.derives hy)))

theorem Sum.derives (a : Sum) {r : Translation} (h : a.translate t = some r) :
    Derives (.nonterminal .additive) (tokens a.lexemes) := by
  refine .nonterminal ?_
  match a with
  | .product sign a =>
      obtain ⟨x, hx, -⟩ := Option.bind_eq_some_iff.mp h
      refine .of_eq (.cons sign.derives (.cons (a.derives hx) (.cons .stop .nil))) ?_
      simp [Sum.lexemes]
  | .plus a l op b =>
      obtain ⟨x, hx, h⟩ := Option.bind_eq_some_iff.mp h
      obtain ⟨y, hy, -⟩ := Option.bind_eq_some_iff.mp h
      have hop : Derives addOp [.punct op.mark] := by cases op <;> exact .oneOf (by decide)
      have ha := (a.derives hx).of_nonterminal
      rw [Sum.lexemes, tokens_append, tokens_cons]
      exact .sequence_snoc [_, _] ha (.cons hop (.singleton (b.derives hy)))

theorem Expr.derives (e : Expr) {r : Translation} (h : e.translate t = some r) :
    Derives (.nonterminal .expression) (tokens e.lexemes) := by
  refine .nonterminal ?_
  cases e with
  | sum a =>
      refine .of_eq (.cons (a.derives h) (.cons .none .nil)) ?_
      simp [Expr.lexemes]
  | compare a l relation b =>
      obtain ⟨x, hx, h⟩ := Option.bind_eq_some_iff.mp h
      obtain ⟨y, hy, -⟩ := Option.bind_eq_some_iff.mp h
      have hop : Derives relOp [.punct relation.mark] := by
        cases relation <;> exact .oneOf (by decide)
      rw [Expr.lexemes, tokens_append, tokens_cons]
      exact .cons (a.derives hx) (.singleton (.some (.cons hop (.singleton (b.derives hy)))))

end

end Tree
end OnePass
