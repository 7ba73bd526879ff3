import OnePass.Proofs.Parsing

/-!
From runs to trees: where a production gives a value, the tokens it has read are those of a
tree, and it has done what the translation of the tree says.
-/

namespace OnePass
namespace Tree

/-- A run from `p` to `q` that reads a tree and follows its translation. -/
def Simple.Runs (s : Simple) (p : Pass) (r : Translation) (q : Pass) : Prop :=
  s.Plain ∧ s.Clear p.table ∧ s.translate p.table = some r ∧
    p.Reads s.lexemes r.code r.warnings q

def Place.Runs (place : Place) (p : Pass) (x : Target) (q : Pass) : Prop :=
  place.Plain ∧ place.Clear p.table ∧ place.translate p.table = some x ∧
    p.Reads place.lexemes x.code x.warnings q

def ArgumentList.Runs (list : ArgumentList) (params : List Ty) (p : Pass) (r : Passed)
    (q : Pass) : Prop :=
  list.Plain ∧ list.Clear p.table ∧ list.translate p.table params = some r ∧
    p.Reads list.lexemes r.code r.warnings q

def Product.Runs (a : Product) (p : Pass) (r : Translation) (q : Pass) : Prop :=
  a.Plain ∧ a.Clear p.table ∧ a.translate p.table = some r ∧
    p.Reads a.lexemes r.code r.warnings q

def Sum.Runs (a : Sum) (p : Pass) (r : Translation) (q : Pass) : Prop :=
  a.Plain ∧ a.Clear p.table ∧ a.translate p.table = some r ∧
    p.Reads a.lexemes r.code r.warnings q

def Expr.Runs (e : Expr) (p : Pass) (r : Translation) (q : Pass) : Prop :=
  e.Plain ∧ e.Clear p.table ∧ e.translate p.table = some r ∧
    p.Reads e.lexemes r.code r.warnings q

end Tree

namespace Action

open OnePass.Tree

/-- A tree of the nonterminal stands behind the run. -/
def Recognised (p : Pass) (ty : Ty) (q : Pass) : Nonterminal → Prop
  | .expression => ∃ (e : Expr) (r : Translation), e.Runs p r q ∧ r.ty = ty
  | .simple => ∃ (s : Simple) (r : Translation), s.Runs p r q ∧ r.ty = ty

def Sound (nested : Nonterminal → Action Ty) : Prop :=
  ∀ j p ty q, nested j p = (.ok ty, q) → Recognised p ty q j

variable {nested : Nonterminal → Action Ty} {p q : Pass} {ty : Ty}

/-! Operands and places -/

theorem operate_eq_ok {rule : OperandRule} {l : Location} {a b : Ty}
    (h : operate rule l a b p = (.ok ty, q)) :
    ∃ res, rule.result? a b = some res ∧ res.ty = ty ∧
      p.Reads [] [] (res.converted.map fun side => ⟨l, .converted side⟩).toList q := by
  obtain ⟨_, _, hv, h⟩ := bind_eq_ok.mp h
  obtain ⟨-, rfl⟩ := require_eq_ok.mp hv
  cases hres : rule.result? a b with
  | none => simp [hres] at h
  | some res =>
      obtain ⟨t, converted⟩ := res
      rw [hres] at h
      cases converted with
      | none =>
          obtain ⟨rfl, rfl⟩ := pure_eq_ok.mp h
          exact ⟨_, rfl, rfl, .refl p⟩
      | some side =>
          obtain ⟨_, _, hw, h⟩ := bind_eq_ok.mp h
          obtain ⟨rfl, rfl⟩ := pure_eq_ok.mp h
          cases hw
          exact ⟨_, rfl, rfl, .warn p ⟨l, .converted side⟩⟩

theorem emit?_reads {i : Option Instr} {u : Unit} (h : emit? i p = (.ok u, q)) :
    p.Reads [] i.toList [] q := by
  cases i with
  | none =>
      obtain ⟨-, rfl⟩ := pure_eq_ok.mp h
      exact .refl p
  | some i =>
      cases h
      exact .emit p i

theorem load_eq_ok {storage : Storage} {mode : Option Count} {u : Unit}
    (h : load storage mode p = (.ok u, q)) :
    p.Reads [] (Target.loadCode storage mode) [] q := by
  obtain ⟨r, hr, hread⟩ := load_reads storage mode p
  cases hr.symm.trans h
  exact hread

theorem countAfter_eq_some {t : Option Token} {mode : Count} (h : countAfter t = some mode) :
    ∃ d : Direction, t = some (.punct d.mark) ∧ mode = d.after := by
  unfold countAfter at h
  split at h <;> cases h
  · exact ⟨.up, rfl, rfl⟩
  · exact ⟨.down, rfl, rfl⟩

theorem countMode_eq_ok {before mode : Option Count} (h : countMode before p = (.ok mode, q)) :
    (mode = before ∧ p = q) ∨
      (before = none ∧ ∃ d : Direction, p.input.current? = some (.punct d.mark) ∧
        mode = some d.after ∧ p.advance = q) := by
  unfold countMode at h
  rw [bind_ok (peek_apply p)] at h
  cases hafter : countAfter p.input.current? with
  | none =>
      simp only [hafter] at h
      obtain ⟨rfl, rfl⟩ := pure_eq_ok.mp h
      exact .inl ⟨rfl, rfl⟩
  | some after =>
      cases before with
      | some _ => simp [hafter] at h
      | none =>
          simp only [hafter, bind_ok (skip_apply p)] at h
          obtain ⟨rfl, rfl⟩ := pure_eq_ok.mp h
          obtain ⟨d, hd, rfl⟩ := countAfter_eq_some hafter
          exact .inr ⟨rfl, d, hd, rfl, rfl⟩

/-- The value of a place, which may be counted by what stands behind it. -/
theorem placeValue_eq_ok {before : Option Count} {name : String} {storage : Storage} {t : Ty}
    (h : placeValue before name storage t p = (.ok ty, q)) :
    ty = t ∧ ∃ mode r, (mode.isNone ∨ t.isNumeric) ∧
      r.Reads [] (Target.loadCode storage mode) [] q ∧
      ((mode = before ∧ p = r) ∨
        (before = none ∧ ∃ d : Direction, p.input.current? = some (.punct d.mark) ∧
          mode = some d.after ∧ p.advance = r)) := by
  obtain ⟨mode, r, hmode, h⟩ := bind_eq_ok.mp h
  obtain ⟨_, _, hrequire, h⟩ := bind_eq_ok.mp h
  obtain ⟨hnum, rfl⟩ := require_eq_ok.mp hrequire
  obtain ⟨_, _, hload, h⟩ := bind_eq_ok.mp h
  obtain ⟨rfl, rfl⟩ := pure_eq_ok.mp h
  exact ⟨rfl, mode, r, hnum, load_eq_ok hload, countMode_eq_ok hmode⟩

/-- A place that is counted in front is only read. -/
theorem access_counted {mode : Count} {name : String} {x : Target}
    (h : access nested (some mode) name x.storage x.ty p = (.ok ty, q)) :
    ty = x.ty ∧ x.ty.isNumeric ∧ p.Reads [] (Target.loadCode x.storage (some mode)) [] q := by
  unfold access at h
  rw [bind_ok (atMark_apply _ p)] at h
  split at h
  · exact absurd h fail_ne_ok
  · obtain ⟨rfl, mode', r, hnum, hread, ⟨rfl, rfl⟩ | ⟨hn, -⟩⟩ := placeValue_eq_ok h
    · exact ⟨rfl, by simpa using hnum, hread⟩
    · cases hn

theorem access_recognised (hs : Sound nested) {place : Place} {name : String} {x : Target}
    {p₀ : Pass} (hplace : place.Runs p₀ x p)
    (h : access nested none name x.storage x.ty p = (.ok ty, q)) :
    Recognised p₀ ty q .simple := by
  obtain ⟨hplain, hclear, hx, hread⟩ := hplace
  unfold access at h
  rw [bind_ok (atMark_apply _ p)] at h
  split at h
  · exact absurd h fail_ne_ok
  · simp only [acceptMark] at h
    rw [accept_bind] at h
    split at h
    · rename_i hassign
      obtain ⟨found, r, hfound, h⟩ := bind_eq_ok.mp h
      obtain ⟨_, _, hrequire, h⟩ := bind_eq_ok.mp h
      obtain ⟨hty, rfl⟩ := require_eq_ok.mp hrequire
      obtain ⟨_, s, hcast, h⟩ := bind_eq_ok.mp h
      obtain ⟨_, _, hstore, h⟩ := bind_eq_ok.mp h
      obtain ⟨rfl, rfl⟩ := pure_eq_ok.mp h
      cases hstore
      obtain ⟨e, v, ⟨heplain, heclear, hv, heread⟩, rfl⟩ := hs _ _ _ _ hfound
      have hstep := Pass.Reads.advance hassign
      rw [hstep.table, hread.table] at heclear hv
      have ht : Simple.translate p₀.table (.assign place p.input.here e) = x.store v := by
        simp only [Simple.translate, hx, hv]
        rfl
      refine ⟨.assign place p.input.here e, _, ⟨⟨hplain, heplain⟩, ⟨hclear, heclear⟩,
        ht.trans (if_pos hty), ?_⟩, rfl⟩
      simpa [Simple.lexemes] using hread.trans
        (hstep.trans (heread.trans ((emit?_reads hcast).trans (.emit s _))))
    · obtain ⟨rfl, mode, r, hnum, hload, ⟨rfl, rfl⟩ | ⟨-, d, hd, rfl, rfl⟩⟩ := placeValue_eq_ok h
      · have ht : Simple.translate p₀.table (.value place) = x.load none := by
          simp only [Simple.translate, hx]
          rfl
        refine ⟨.value place, _, ⟨hplain, hclear, ht.trans (if_pos hnum), ?_⟩, rfl⟩
        simpa [Simple.lexemes] using hread.trans hload
      · have ht : Simple.translate p₀.table (.countAfter place p.input.here d) =
            x.load (some d.after) := by
          simp only [Simple.translate, hx]
          rfl
        refine ⟨.countAfter place p.input.here d, _,
          ⟨hplain, hclear, ht.trans (if_pos hnum), ?_⟩, rfl⟩
        simpa [Simple.lexemes] using hread.trans ((Pass.Reads.advance hd).trans hload)

/-! Calls -/

theorem passArgument_eq_ok {callee : String} {params : List Ty} {index : Nat} {u : Unit}
    (h : passArgument callee params index ty p = (.ok u, q)) :
    ∃ is, p.Reads [] is [] q ∧ ∀ (arg : Translation) (more : Passed), arg.ty = ty →
      Passed.cons params[index]? arg more = some ⟨ty :: more.types, arg.code ++ is ++ more.code,
        arg.warnings ++ more.warnings⟩ := by
  unfold passArgument at h
  cases hparam : params[index]? with
  | none =>
      rw [hparam] at h
      obtain ⟨-, rfl⟩ := pure_eq_ok.mp h
      refine ⟨[], .refl p, ?_⟩
      rintro arg more rfl
      simp [Passed.cons]
  | some t =>
      rw [hparam] at h
      obtain ⟨_, _, hrequire, h⟩ := bind_eq_ok.mp h
      obtain ⟨hty, rfl⟩ := require_eq_ok.mp hrequire
      refine ⟨_, emit?_reads h, ?_⟩
      rintro arg more rfl
      exact if_pos hty

theorem moreArguments_recognised (hs : Sound nested) {callee : String} {params args types : List Ty}
    (h : moreArguments nested (passArgument callee params) args p = (.ok types, q)) :
    ∃ (list : ArgumentList) (r : Passed), list.Runs (params.drop args.length) p r q ∧
      types = args ++ r.types := by
  revert h
  unfold moreArguments
  -- The loop keeps the arguments it has read in front of those that it reads.
  refine recurse_induction (C := fun args p out => out = (.ok types, q) →
    ∃ (list : ArgumentList) (r : Passed), list.Runs (params.drop args.length) p r q ∧
      types = args ++ r.types) ?_ ?_ args p
  · exact fun args p h => absurd h failHere_ne_ok
  · intro more ih args p h
    obtain ⟨ty, p₁, hty, h⟩ := bind_eq_ok.mp h
    obtain ⟨_, p₂, hpass, h⟩ := bind_eq_ok.mp h
    obtain ⟨e, a, ⟨hplain, hclear, ha, hread⟩, rfl⟩ := hs _ _ _ _ hty
    obtain ⟨is, hread', hcons⟩ := passArgument_eq_ok hpass
    rw [← List.head?_drop] at hcons
    simp only [acceptMark] at h
    rw [accept_bind] at h
    have hread := hread.trans hread'
    split at h
    · rename_i hcomma
      have hstep := hread.trans (.advance hcomma)
      obtain ⟨list, r, ⟨hlplain, hlclear, hlist, hlread⟩, rfl⟩ := ih _ _ h
      rw [hstep.table] at hlclear hlist
      rw [List.length_append, List.length_singleton, ← List.tail_drop] at hlist
      have ht : ArgumentList.translate p.table (params.drop args.length)
          (.more e p₂.input.here list) = Passed.cons (params.drop args.length).head? a r := by
        simp only [ArgumentList.translate, ha, hlist]
        rfl
      refine ⟨.more e p₂.input.here list, _, ⟨⟨hplain, hlplain⟩, ⟨hclear, hlclear⟩,
        ht.trans (hcons a r rfl), ?_⟩, by simp⟩
      simpa [ArgumentList.lexemes] using hstep.trans hlread
    · obtain ⟨rfl, rfl⟩ := pure_eq_ok.mp h
      have ht : ArgumentList.translate p.table (params.drop args.length) (.last e) =
          Passed.cons (params.drop args.length).head? a .nil := by
        simp only [ArgumentList.translate, ha]
        rfl
      refine ⟨.last e, _, ⟨hplain, hclear, ht.trans (hcons a .nil rfl), ?_⟩, by simp [Passed.nil]⟩
      simpa [ArgumentList.lexemes, Passed.nil] using hread

/-- The arguments of a call and the parentheses around them. -/
theorem arguments_recognised (hs : Sound nested) {callee : String} {params types : List Ty}
    (h : arguments nested (passArgument callee params) p = (.ok types, q)) :
    ∃ (o c : Location) (args : Arguments) (r : Passed), args.Plain ∧ args.Clear p.table ∧
      args.translate p.table params = some r ∧ r.types = types ∧
      p.Reads (⟨.punct .leftParen, o⟩ :: (args.lexemes ++ [⟨.punct .rightParen, c⟩])) r.code
        r.warnings q := by
  obtain ⟨_, _, hconsume, h⟩ := bind_eq_ok.mp h
  obtain ⟨hopen, rfl⟩ := consume_eq_ok.mp hconsume
  rw [bind_ok (atMark_apply _ _)] at h
  have h1 := Pass.Reads.advance hopen
  split at h
  · obtain ⟨_, _, hnone, h⟩ := bind_eq_ok.mp h
    obtain ⟨rfl, rfl⟩ := pure_eq_ok.mp hnone
    obtain ⟨_, _, hconsume, h⟩ := bind_eq_ok.mp h
    obtain ⟨hclose, rfl⟩ := consume_eq_ok.mp hconsume
    obtain ⟨rfl, rfl⟩ := pure_eq_ok.mp h
    exact ⟨_, _, .none, .nil, trivial, trivial, rfl, rfl, h1.trans (.advance hclose)⟩
  · obtain ⟨_, p₁, hsome, h⟩ := bind_eq_ok.mp h
    obtain ⟨_, _, hconsume, h⟩ := bind_eq_ok.mp h
    obtain ⟨hclose, rfl⟩ := consume_eq_ok.mp hconsume
    obtain ⟨rfl, rfl⟩ := pure_eq_ok.mp h
    obtain ⟨list, r, ⟨hplain, hclear, hlist, hread⟩, rfl⟩ := moreArguments_recognised hs hsome
    rw [h1.table] at hclear hlist
    refine ⟨p.input.here, p₁.input.here, .some list, r, hplain, hclear, hlist, rfl, ?_⟩
    simpa [Arguments.lexemes] using h1.trans (hread.trans (.advance hclose))

/-- A called name gives the tree of the call, whatever the name means. -/
theorem call_recognised {name : String} {symbol : Symbol} {meaning : Meaning} {o c : Location}
    {args : Arguments}
    {passed : Passed} {r : Translation} {p₁ : Pass}
    (hread : p.Reads [⟨.ident name, p.input.here⟩] [] [] p₁)
    (hsymbol : p.table.resolve name = some symbol) (hm : symbol.meaning = meaning)
    (hplain : args.Plain) (hclear : args.Clear p₁.table)
    (hargs : args.translate p₁.table (Passed.params meaning) = some passed)
    (hcall : passed.call meaning = some r)
    (hrun : p₁.Reads (⟨.punct .leftParen, o⟩ :: (args.lexemes ++ [⟨.punct .rightParen, c⟩]))
      r.code r.warnings q) :
    Recognised p r.ty q .simple := by
  subst hm
  rw [hread.table] at hclear hargs
  refine ⟨.call p.input.here name o args c, r, ⟨hplain, hclear, ?_, ?_⟩, rfl⟩
  · simp only [Simple.translate]
    exact Option.bind_eq_some_iff.mpr ⟨symbol, hsymbol,
      Option.bind_eq_some_iff.mpr ⟨passed, hargs, hcall⟩⟩
  · simpa [Simple.lexemes] using hread.trans hrun

theorem callMethod_recognised (hs : Sound nested) {name callee : String} {symbol : Symbol}
    {l : Location} {returnType : Ty} {params : List Ty} {index : Option Nat} {p₁ : Pass}
    (hread : p.Reads [⟨.ident name, p.input.here⟩] [] [] p₁)
    (hsymbol : p.table.resolve name = some symbol)
    (hm : symbol.meaning = .method returnType params index)
    (h : callMethod nested callee l returnType params index p₁ = (.ok ty, q)) :
    Recognised p ty q .simple := by
  obtain ⟨types, p₂, hargs, h⟩ := bind_eq_ok.mp h
  obtain ⟨o, c, args, passed, hplain, hclear, hpassed, rfl, hrun⟩ := arguments_recognised hs hargs
  cases index with
  | none => exact absurd h failAt_ne_ok
  | some i =>
      obtain ⟨_, _, hemit, h⟩ := bind_eq_ok.mp h
      cases hemit
      obtain ⟨_, _, hrequire, h⟩ := bind_eq_ok.mp h
      obtain ⟨hlength, rfl⟩ := require_eq_ok.mp hrequire
      obtain ⟨rfl, rfl⟩ := pure_eq_ok.mp h
      refine call_recognised (o := o) (c := c) hread hsymbol hm hplain hclear hpassed
        (if_pos hlength) ?_
      simpa using hrun.trans (.emit p₂ _)

theorem callBuiltin_recognised (hs : Sound nested) {name callee : String} {symbol : Symbol}
    {builtin : Builtin} {returnType : Ty} {params : List Ty} {variadic : Bool} {p₁ : Pass}
    (hread : p.Reads [⟨.ident name, p.input.here⟩] [] [] p₁)
    (hsymbol : p.table.resolve name = some symbol)
    (hm : symbol.meaning = .function builtin returnType params variadic)
    (h : callBuiltin nested callee builtin returnType params variadic p₁ = (.ok ty, q)) :
    Recognised p ty q .simple := by
  obtain ⟨types, p₂, hargs, h⟩ := bind_eq_ok.mp h
  obtain ⟨o, c, args, passed, hplain, hclear, hpassed, rfl, hrun⟩ := arguments_recognised hs hargs
  obtain ⟨_, _, hemit, h⟩ := bind_eq_ok.mp h
  cases hemit
  obtain ⟨_, _, hrequire, h⟩ := bind_eq_ok.mp h
  obtain ⟨hlength, rfl⟩ := require_eq_ok.mp hrequire
  obtain ⟨rfl, rfl⟩ := pure_eq_ok.mp h
  refine call_recognised (o := o) (c := c) hread hsymbol hm hplain hclear hpassed
    (if_pos hlength) ?_
  simpa using hrun.trans (.emit p₂ _)

theorem callExternal_recognised (hs : Sound nested) {name callee : String} {symbol : Symbol}
    {overloads : List Host.Method} {p₁ : Pass}
    (hread : p.Reads [⟨.ident name, p.input.here⟩] [] [] p₁)
    (hsymbol : p.table.resolve name = some symbol)
    (hm : symbol.meaning = .external overloads)
    (h : callExternal nested callee overloads p₁ = (.ok ty, q)) :
    Recognised p ty q .simple := by
  unfold callExternal at h
  rw [passArgument_nil callee] at h
  obtain ⟨types, p₂, hargs, h⟩ := bind_eq_ok.mp h
  obtain ⟨o, c, args, passed, hplain, hclear, hpassed, rfl, hrun⟩ := arguments_recognised hs hargs
  cases hselect : Host.selectOverload overloads passed.types with
  | none => simp [hselect] at h
  | some m =>
      rw [hselect] at h
      obtain ⟨_, _, hrecord, h⟩ := bind_eq_ok.mp h
      cases hrecord
      obtain ⟨_, _, hemit, h⟩ := bind_eq_ok.mp h
      cases hemit
      obtain ⟨rfl, rfl⟩ := pure_eq_ok.mp h
      refine call_recognised (o := o) (c := c) (r := ⟨m.returnType,
        passed.code ++ [.call (.external m)], passed.warnings⟩) hread hsymbol hm hplain hclear
        hpassed ?_ ?_
      · simp only [Passed.call, hselect]
      · simpa using (hrun.trans (.record p₂ (.bound callee m))).trans (.emit _ _)

/-! Names -/

/-- A field is a place, or with an index behind it an element is. -/
theorem fieldAccess_recognised (hs : Sound nested) {before : Option Count} {name : String}
    {symbol : Symbol} {ref : FieldRef} {t : Ty} {p₁ : Pass}
    (hread : p.Reads [⟨.ident name, p.input.here⟩] [] [] p₁)
    (hsymbol : p.table.resolve name = some symbol) (hm : symbol.meaning = .field ref t)
    (h : fieldAccess nested before name ref t p₁ = (.ok ty, q)) :
    ∃ (place : Place) (x : Target) (r : Pass), place.Runs p x r ∧
      access nested before name x.storage x.ty r = (.ok ty, q) := by
  unfold fieldAccess at h
  rw [bind_ok (atMark_apply _ p₁)] at h
  split at h
  · rename_i hopen
    have hopen : p₁.input.current? = some (.punct .leftBracket) := by simpa using hopen
    cases helement : t.element? with
    | none => simp [helement] at h
    | some element =>
        rw [helement] at h
        simp only [bind_ok (skip_apply p₁), bind_ok (emit_apply _ _)] at h
        obtain ⟨index, p₂, hindex, h⟩ := bind_eq_ok.mp h
        obtain ⟨_, _, hrequire, h⟩ := bind_eq_ok.mp h
        obtain ⟨rfl, rfl⟩ := require_eq_ok.mp hrequire
        obtain ⟨_, _, hconsume, h⟩ := bind_eq_ok.mp h
        obtain ⟨hclose, rfl⟩ := consume_eq_ok.mp hconsume
        obtain ⟨e, i, ⟨hplain, hclear, hi, heread⟩, hint⟩ := hs _ _ _ _ hindex
        have hbase := (hread.trans (.advance hopen)).trans (.emit _ (.loadBase ref))
        rw [hbase.table] at hclear hi
        refine ⟨.element p.input.here name p₁.input.here e p₂.input.here,
          ⟨.element ref, element, .loadBase ref :: i.code, i.warnings⟩, p₂.advance,
          ⟨hplain, hclear, ?_, ?_⟩, h⟩
        · simp only [Place.translate]
          refine Option.bind_eq_some_iff.mpr ⟨symbol, hsymbol,
            Option.bind_eq_some_iff.mpr ⟨i, hi, ?_⟩⟩
          simp only [hm, element?, helement, hint, if_true]
        · simpa [Place.lexemes] using hbase.trans (heread.trans (.advance hclose))
  · refine ⟨.name p.input.here name, ⟨.field ref, t, [], []⟩, p₁,
      ⟨trivial, trivial, ?_, hread⟩, h⟩
    simp only [Place.translate]
    exact Option.bind_eq_some_iff.mpr ⟨symbol, hsymbol, by rw [hm]; rfl⟩

/-- What begins with a name is a call or an access to a place. -/
theorem named_cases (hs : Sound nested) {before : Option Count}
    (h : named nested before p = (.ok ty, q)) :
    (before = none ∧ Recognised p ty q .simple) ∨
      ∃ (name : String) (place : Place) (x : Target) (r : Pass), place.Runs p x r ∧
        access nested before name x.storage x.ty r = (.ok ty, q) := by
  obtain ⟨⟨name, l⟩, _, hname, h⟩ := bind_eq_ok.mp h
  obtain ⟨hident, rfl, rfl⟩ := identifier_eq_ok.mp hname
  simp only [bind_ok (resolve_apply name p.advance), Pass.table_advance] at h
  have hread := (Pass.Reads.advance hident).trans (.resolved p.advance name)
  cases hsymbol : p.table.resolve name with
  | none => simp [hsymbol] at h
  | some symbol =>
      rw [hsymbol] at h
      have hscalar {storage : Storage} {t : Ty}
          (hm : scalar? symbol.meaning = some ⟨storage, t, [], []⟩)
          (h : access nested before name storage t (p.advance.resolved name) = (.ok ty, q)) :
          ∃ (name : String) (place : Place) (x : Target) (r : Pass), place.Runs p x r ∧
            access nested before name x.storage x.ty r = (.ok ty, q) := by
        refine ⟨name, .name p.input.here name, ⟨storage, t, [], []⟩, p.advance.resolved name,
          ⟨trivial, trivial, ?_, hread⟩, h⟩
        simp only [Place.translate]
        exact Option.bind_eq_some_iff.mpr ⟨symbol, hsymbol, hm⟩
      cases hm : symbol.meaning with
      | method returnType params index =>
          simp only [hm] at h
          obtain ⟨_, _, hrequire, h⟩ := bind_eq_ok.mp h
          obtain ⟨hbefore, rfl⟩ := requireAt_eq_ok.mp hrequire
          exact .inl ⟨by simpa using hbefore, callMethod_recognised hs hread hsymbol hm h⟩
      | function builtin returnType params variadic =>
          simp only [hm] at h
          obtain ⟨_, _, hrequire, h⟩ := bind_eq_ok.mp h
          obtain ⟨hbefore, rfl⟩ := requireAt_eq_ok.mp hrequire
          exact .inl ⟨by simpa using hbefore, callBuiltin_recognised hs hread hsymbol hm h⟩
      | external overloads =>
          simp only [hm] at h
          obtain ⟨_, _, hrequire, h⟩ := bind_eq_ok.mp h
          obtain ⟨hbefore, rfl⟩ := requireAt_eq_ok.mp hrequire
          exact .inl ⟨by simpa using hbefore, callExternal_recognised hs hread hsymbol hm h⟩
      | type _ => simp [hm] at h
      | field ref t =>
          simp only [hm] at h
          obtain ⟨place, x, r, hplace, h⟩ := fieldAccess_recognised hs hread hsymbol hm h
          exact .inr ⟨name, place, x, r, hplace, h⟩
      | localVar index t =>
          simp only [hm] at h
          exact .inr (hscalar (by rw [hm]; rfl) h)
      | param index t ordinal =>
          cases index with
          | none => simp [hm] at h
          | some i =>
              simp only [hm] at h
              exact .inr (hscalar (by rw [hm]; rfl) h)

theorem named_recognised (hs : Sound nested) (h : named nested none p = (.ok ty, q)) :
    Recognised p ty q .simple := by
  obtain ⟨-, h⟩ | ⟨name, place, x, r, hplace, h⟩ := named_cases hs h
  · exact h
  · exact access_recognised hs hplace h

theorem counted_recognised (hs : Sound nested) {d : Direction}
    (hd : p.input.current? = some (.punct d.mark))
    (h : counted nested d.before p = (.ok ty, q)) : Recognised p ty q .simple := by
  unfold counted at h
  rw [bind_ok (skip_apply p), bind_ok (peek_apply _)] at h
  generalize p.advance.input.current? = t at h
  split at h
  · obtain ⟨hn, -⟩ | ⟨name, place, x, r, ⟨hplain, hclear, hx, hread⟩, h⟩ := named_cases hs h
    · cases hn
    · obtain ⟨rfl, hnum, hload⟩ := access_counted h
      have hstep := Pass.Reads.advance hd
      rw [hstep.table] at hclear hx
      have ht : Simple.translate p.table (.countBefore p.input.here d place) =
          x.load (some d.before) := by
        simp only [Simple.translate, hx]
        rfl
      refine ⟨.countBefore p.input.here d place, _,
        ⟨hplain, hclear, ht.trans (if_pos (.inr hnum)), ?_⟩, rfl⟩
      simpa [Simple.lexemes] using hstep.trans (hread.trans hload)
  · exact absurd h failHere_ne_ok

/-! Expressions -/

theorem unary_recognised (hs : Sound nested) (op : UnaryOp)
    (hop : p.input.current? = some (.punct op.mark))
    (h : unary nested op p = (.ok ty, q)) : Recognised p ty q .simple := by
  unfold unary at h
  rw [bind_ok (skip_apply p)] at h
  obtain ⟨t, p₁, hsimple, h⟩ := bind_eq_ok.mp h
  obtain ⟨_, _, hrequire, h⟩ := bind_eq_ok.mp h
  obtain ⟨haccepts, rfl⟩ := require_eq_ok.mp hrequire
  obtain ⟨_, _, hemit, h⟩ := bind_eq_ok.mp h
  cases hemit
  obtain ⟨rfl, rfl⟩ := pure_eq_ok.mp h
  obtain ⟨s, a, ⟨hplain, hclear, ha, hread⟩, rfl⟩ := hs _ _ _ _ hsimple
  have hstep := Pass.Reads.advance hop
  rw [hstep.table] at hclear ha
  have ht : Simple.translate p.table (.unary p.input.here op s) = a.negate op := by
    simp only [Simple.translate, ha]
    rfl
  refine ⟨.unary p.input.here op s, _, ⟨hplain, hclear, ht.trans (if_pos haccepts), ?_⟩, rfl⟩
  simpa [Simple.lexemes] using hstep.trans (hread.trans (.emit p₁ _))

theorem parenthesised_recognised (hs : Sound nested)
    (ho : p.input.current? = some (.punct .leftParen))
    (h : parenthesised nested p = (.ok ty, q)) : Recognised p ty q .simple := by
  have h1 := Pass.Reads.advance ho
  unfold parenthesised startsType at h
  rw [bind_ok (skip_apply p), bind_ok (view_apply _ _), h1.table] at h
  split at h
  · obtain ⟨target, p₁, htype, h⟩ := bind_eq_ok.mp h
    obtain ⟨t, hcurrent, htarget, rfl⟩ := type_eq_ok htype
    obtain ⟨_, _, hconsume, h⟩ := bind_eq_ok.mp h
    obtain ⟨hclose, rfl⟩ := consume_eq_ok.mp hconsume
    obtain ⟨source, p₂, hsimple, h⟩ := bind_eq_ok.mp h
    obtain ⟨_, _, hrequire, h⟩ := bind_eq_ok.mp h
    obtain ⟨hcast, rfl⟩ := require_eq_ok.mp hrequire
    obtain ⟨_, _, hemit, h⟩ := bind_eq_ok.mp h
    cases hemit
    obtain ⟨rfl, rfl⟩ := pure_eq_ok.mp h
    obtain ⟨s, a, ⟨hplain, hclear, ha, hread⟩, rfl⟩ := hs _ _ _ _ hsimple
    have h3 := (h1.trans (.advance hcurrent)).trans (.advance hclose)
    rw [h3.table] at hclear ha
    rw [h1.table] at htarget
    have ht : Simple.translate p.table (.cast p.input.here ⟨t, p.advance.input.here⟩
        p.advance.advance.input.here s) = a.cast target := by
      simp only [Simple.translate, htarget, ha]
      rfl
    refine ⟨.cast p.input.here ⟨t, p.advance.input.here⟩ p.advance.advance.input.here s, _,
      ⟨hplain, hclear, ht.trans (if_pos hcast), ?_⟩, rfl⟩
    simpa [Simple.lexemes] using h3.trans (hread.trans (.emit p₂ _))
  · rename_i htype
    obtain ⟨_, p₁, hexpr, h⟩ := bind_eq_ok.mp h
    obtain ⟨_, _, hconsume, h⟩ := bind_eq_ok.mp h
    obtain ⟨hclose, rfl⟩ := consume_eq_ok.mp hconsume
    obtain ⟨rfl, rfl⟩ := pure_eq_ok.mp h
    obtain ⟨e, r, ⟨hplain, hclear, hr, hread⟩, rfl⟩ := hs _ _ _ _ hexpr
    have hlead := current_of_append hread.lexemes (e.next_lexemes _)
    rw [h1.table] at hclear hr
    rw [hlead] at htype
    refine ⟨.paren p.input.here e p₁.input.here, r,
      ⟨hplain, ⟨by simpa using htype, hclear⟩, hr, ?_⟩, rfl⟩
    simpa [Simple.lexemes] using h1.trans (hread.trans (.advance hclose))

theorem simpleBody_recognised (hs : Sound nested) (h : simpleBody nested p = (.ok ty, q)) :
    Recognised p ty q .simple := by
  unfold simpleBody at h
  rw [bind_ok (peek_apply p)] at h
  generalize ht : p.input.current? = t at h
  split at h
  · rename_i v
    simp only [bind_ok (skip_apply p), bind_ok (emit_apply _ _)] at h
    obtain ⟨rfl, rfl⟩ := pure_eq_ok.mp h
    exact ⟨.literal p.input.here v, ⟨v.ty, [.const v], []⟩, ⟨trivial, trivial, rfl,
      (Pass.Reads.advance ht).trans (.emit _ _)⟩, rfl⟩
  · exact named_recognised hs h
  · exact counted_recognised (d := .up) hs ht h
  · exact counted_recognised (d := .down) hs ht h
  · exact parenthesised_recognised hs ht h
  · exact unary_recognised hs .neg ht h
  · exact unary_recognised hs .bitNot ht h
  · exact unary_recognised hs .not ht h
  · exact absurd h failHere_ne_ok

/-- The factors behind a product make a longer product. -/
theorem factors_recognised (hs : Sound nested) {p₀ : Pass} {left : Ty} {a : Product}
    {x : Translation} (ha : a.Runs p₀ x p) (hx : x.ty = left)
    (h : factors nested left p = (.ok ty, q)) :
    ∃ (b : Product) (y : Translation), b.Runs p₀ y q ∧ y.ty = ty := by
  revert a x
  revert h
  unfold factors
  refine recurse_induction (C := fun left p out => out = (.ok ty, q) →
    ∀ {a : Product} {x : Translation}, a.Runs p₀ x p → x.ty = left →
      ∃ (b : Product) (y : Translation), b.Runs p₀ y q ∧ y.ty = ty) ?_ ?_ left p
  · exact fun left p h => absurd h failHere_ne_ok
  · intro more ih left p h a x ha hx
    rw [factorsRound, bind_ok (peek_apply p)] at h
    cases hop : MultiplicativeOp.ofToken? p.input.current? with
    | none =>
        simp only [hop] at h
        obtain ⟨rfl, rfl⟩ := pure_eq_ok.mp h
        exact ⟨a, x, ha, hx⟩
    | some op =>
        simp only [hop, bind_ok (advance_apply p)] at h
        obtain ⟨right, p₁, hsimple, h⟩ := bind_eq_ok.mp h
        obtain ⟨t, p₂, hoperate, h⟩ := bind_eq_ok.mp h
        obtain ⟨_, _, hemit, h⟩ := bind_eq_ok.mp h
        cases hemit
        obtain ⟨hplain, hclear, hax, hread⟩ := ha
        obtain ⟨b, y, ⟨hbplain, hbclear, hy, hbread⟩, rfl⟩ := simpleBody_recognised hs hsimple
        obtain ⟨res, hres, rfl, hwarn⟩ := operate_eq_ok hoperate
        have hstep := hread.trans (.advance (multiplicativeOp_mark hop))
        rw [hstep.table] at hbclear hy
        subst hx
        refine ih _ _ h (a := .times a p.input.here op b)
          (x := ⟨res.ty, x.code ++ y.code ++ [.multiplicative op x.ty y.ty],
            x.warnings ++ y.warnings ++
              (res.converted.map fun side => ⟨p.input.here, .converted side⟩).toList⟩)
          ⟨⟨hplain, hbplain⟩, ⟨hclear, hbclear⟩, ?_, ?_⟩ rfl
        · simp only [Product.translate]
          refine Option.bind_eq_some_iff.mpr ⟨x, hax, Option.bind_eq_some_iff.mpr ⟨y, hy, ?_⟩⟩
          simp only [Translation.multiply, Translation.operate, hres, Option.map_some]
        · simpa [Product.lexemes] using hstep.trans (hbread.trans (hwarn.trans (.emit p₂ _)))

theorem multiplicative_recognised (hs : Sound nested)
    (h : multiplicative nested p = (.ok ty, q)) :
    ∃ (a : Product) (x : Translation), a.Runs p x q ∧ x.ty = ty := by
  obtain ⟨left, p₁, hsimple, h⟩ := bind_eq_ok.mp h
  obtain ⟨s, r, hr, hty⟩ := simpleBody_recognised hs hsimple
  exact factors_recognised hs (a := .simple s) hr hty h

theorem applySign_eq_ok {negative : Bool} {t : Ty} {u : Unit}
    (h : applySign negative t p = (.ok u, q)) :
    (t = .int ∨ t = .double) ∧ p.Reads [] (if negative then [.unary .neg t] else []) [] q := by
  obtain ⟨_, _, hrequire, h⟩ := bind_eq_ok.mp h
  obtain ⟨hty, rfl⟩ := require_eq_ok.mp hrequire
  refine ⟨hty, ?_⟩
  cases negative with
  | false =>
      obtain ⟨-, rfl⟩ := pure_eq_ok.mp h
      exact .refl p
  | true =>
      cases h
      exact .emit p _

theorem signed_recognised (hs : Sound nested) (h : signed nested p = (.ok ty, q)) :
    ∃ (a : Sum) (x : Translation), a.Runs p x q ∧ x.ty = ty := by
  unfold signed at h
  rw [bind_ok (peek_apply p)] at h
  generalize ht : p.input.current? = t at h
  split at h
  · rw [bind_ok (skip_apply p)] at h
    obtain ⟨left, p₁, hproduct, h⟩ := bind_eq_ok.mp h
    obtain ⟨_, _, hsign, h⟩ := bind_eq_ok.mp h
    obtain ⟨rfl, rfl⟩ := pure_eq_ok.mp h
    obtain ⟨a, x, ⟨hplain, hclear, hx, hread⟩, rfl⟩ := multiplicative_recognised hs hproduct
    obtain ⟨hty, hsign⟩ := applySign_eq_ok hsign
    have hstep := Pass.Reads.advance ht
    rw [hstep.table] at hclear hx
    refine ⟨.product (.plus p.input.here) a, x, ⟨⟨nofun, hplain⟩, hclear, ?_, ?_⟩, rfl⟩
    · simp only [Sum.translate]
      exact Option.bind_eq_some_iff.mpr ⟨x, hx, if_pos hty⟩
    · simpa [Sum.lexemes, Sign.lexemes] using hstep.trans (hread.trans hsign)
  · rw [bind_ok (skip_apply p)] at h
    obtain ⟨left, p₁, hproduct, h⟩ := bind_eq_ok.mp h
    obtain ⟨_, _, hsign, h⟩ := bind_eq_ok.mp h
    obtain ⟨rfl, rfl⟩ := pure_eq_ok.mp h
    obtain ⟨a, x, ⟨hplain, hclear, hx, hread⟩, rfl⟩ := multiplicative_recognised hs hproduct
    obtain ⟨hty, hsign⟩ := applySign_eq_ok hsign
    have hstep := Pass.Reads.advance ht
    rw [hstep.table] at hclear hx
    refine ⟨.product (.minus p.input.here) a, ⟨x.ty, x.code ++ [.unary .neg x.ty], x.warnings⟩,
      ⟨⟨nofun, hplain⟩, hclear, ?_, ?_⟩, rfl⟩
    · simp only [Sum.translate]
      exact Option.bind_eq_some_iff.mpr ⟨x, hx, if_pos hty⟩
    · simpa [Sum.lexemes, Sign.lexemes] using hstep.trans (hread.trans hsign)
  · rename_i hminus
    obtain ⟨a, x, ⟨hplain, hclear, hx, hread⟩, rfl⟩ := multiplicative_recognised hs h
    have hlead := current_of_append hread.lexemes (a.next_lexemes _)
    refine ⟨.product .none a, x, ⟨⟨fun _ hm => ?_, hplain⟩, hclear, ?_, hread⟩, rfl⟩
    · exact hminus (by rw [← ht, hlead, hm])
    · simp only [Sum.translate]
      exact Option.bind_eq_some_iff.mpr ⟨x, hx, rfl⟩

theorem combine_recognised {op : AdditiveOp} {l : Location} {left right : Ty}
    (h : combine op l left right p = (.ok ty, q)) :
    ∃ is ws, p.Reads [] is ws q ∧ ∀ a b : Translation, a.ty = left → b.ty = right →
      Translation.add op l a b =
        some ⟨ty, a.code ++ b.code ++ is, a.warnings ++ b.warnings ++ ws⟩ := by
  unfold combine at h
  split at h
  · rename_i hc
    obtain ⟨_, _, hemit, h⟩ := bind_eq_ok.mp h
    cases hemit
    obtain ⟨rfl, rfl⟩ := pure_eq_ok.mp h
    refine ⟨_, [], .emit p .concat, ?_⟩
    rintro a b rfl rfl
    simp [Translation.add, hc]
  · rename_i hc
    obtain ⟨t, p₁, hoperate, h⟩ := bind_eq_ok.mp h
    obtain ⟨_, _, hemit, h⟩ := bind_eq_ok.mp h
    cases hemit
    obtain ⟨rfl, rfl⟩ := pure_eq_ok.mp h
    obtain ⟨res, hres, rfl, hwarn⟩ := operate_eq_ok hoperate
    refine ⟨_, _, hwarn.trans (.emit p₁ _), ?_⟩
    rintro a b rfl rfl
    simp [Translation.add, Translation.operate, hc, hres]

/-- The summands behind a sum make a longer sum. -/
theorem summands_recognised (hs : Sound nested) {p₀ : Pass} {left : Ty} {a : Sum}
    {x : Translation} (ha : a.Runs p₀ x p) (hx : x.ty = left)
    (h : summands nested left p = (.ok ty, q)) :
    ∃ (b : Sum) (y : Translation), b.Runs p₀ y q ∧ y.ty = ty := by
  revert a x
  revert h
  unfold summands
  refine recurse_induction (C := fun left p out => out = (.ok ty, q) →
    ∀ {a : Sum} {x : Translation}, a.Runs p₀ x p → x.ty = left →
      ∃ (b : Sum) (y : Translation), b.Runs p₀ y q ∧ y.ty = ty) ?_ ?_ left p
  · exact fun left p h => absurd h failHere_ne_ok
  · intro more ih left p h a x ha hx
    rw [summandsRound, bind_ok (peek_apply p)] at h
    cases hop : AdditiveOp.ofToken? p.input.current? with
    | none =>
        simp only [hop] at h
        obtain ⟨rfl, rfl⟩ := pure_eq_ok.mp h
        exact ⟨a, x, ha, hx⟩
    | some op =>
        simp only [hop, bind_ok (advance_apply p)] at h
        obtain ⟨right, p₁, hproduct, h⟩ := bind_eq_ok.mp h
        obtain ⟨t, p₂, hcombine, hmore⟩ := bind_eq_ok.mp h
        obtain ⟨hplain, hclear, hax, hread⟩ := ha
        obtain ⟨b, y, ⟨hbplain, hbclear, hy, hbread⟩, rfl⟩ := multiplicative_recognised hs hproduct
        obtain ⟨is, ws, hcread, hadd⟩ := combine_recognised hcombine
        have hstep := hread.trans (.advance (additiveOp_mark hop))
        rw [hstep.table] at hbclear hy
        refine ih _ _ hmore (a := .plus a p.input.here op b)
          (x := ⟨t, x.code ++ y.code ++ is, x.warnings ++ y.warnings ++ ws⟩)
          ⟨⟨hplain, hbplain⟩, ⟨hclear, hbclear⟩, ?_, ?_⟩ rfl
        · simp only [Sum.translate]
          exact Option.bind_eq_some_iff.mpr ⟨x, hax, Option.bind_eq_some_iff.mpr
            ⟨y, hy, hadd x y hx rfl⟩⟩
        · simpa [Sum.lexemes] using hstep.trans (hbread.trans hcread)

theorem additive_recognised (hs : Sound nested) (h : additive nested p = (.ok ty, q)) :
    ∃ (a : Sum) (x : Translation), a.Runs p x q ∧ x.ty = ty := by
  obtain ⟨left, p₁, hsigned, h⟩ := bind_eq_ok.mp h
  obtain ⟨a, x, ha, hx⟩ := signed_recognised hs hsigned
  exact summands_recognised hs ha hx h

theorem expressionBody_recognised (hs : Sound nested)
    (h : expressionBody nested p = (.ok ty, q)) : Recognised p ty q .expression := by
  obtain ⟨left, p₁, hleft, h⟩ := bind_eq_ok.mp h
  obtain ⟨a, x, ⟨hplain, hclear, hx, hread⟩, rfl⟩ := additive_recognised hs hleft
  rw [bind_ok (peek_apply p₁)] at h
  cases hrelation : Relation.ofToken? p₁.input.current? with
  | none =>
      simp only [hrelation] at h
      obtain ⟨rfl, rfl⟩ := pure_eq_ok.mp h
      exact ⟨.sum a, x, ⟨hplain, hclear, hx, hread⟩, rfl⟩
  | some relation =>
      simp only [hrelation, bind_ok (skip_apply p₁)] at h
      obtain ⟨right, p₂, hright, h⟩ := bind_eq_ok.mp h
      obtain ⟨_, _, hrequire, h⟩ := bind_eq_ok.mp h
      obtain ⟨hty, rfl⟩ := require_eq_ok.mp hrequire
      obtain ⟨_, _, hemit, h⟩ := bind_eq_ok.mp h
      cases hemit
      obtain ⟨rfl, rfl⟩ := pure_eq_ok.mp h
      obtain ⟨b, y, ⟨hbplain, hbclear, hy, hbread⟩, rfl⟩ := additive_recognised hs hright
      have hstep := hread.trans (.advance (relation_mark hrelation))
      rw [hstep.table] at hbclear hy
      refine ⟨.compare a p₁.input.here relation b,
        ⟨.bool, x.code ++ y.code ++ [.compare relation x.ty], x.warnings ++ y.warnings⟩,
        ⟨⟨hplain, hbplain⟩, ⟨hclear, hbclear⟩, ?_, ?_⟩, rfl⟩
      · simp only [Expr.translate]
        exact Option.bind_eq_some_iff.mpr ⟨x, hx, Option.bind_eq_some_iff.mpr
          ⟨y, hy, if_pos hty⟩⟩
      · simpa [Expr.lexemes] using hstep.trans (hbread.trans (.emit p₂ _))

/-- Whatever the productions accept is a tree, and they follow its translation. -/
theorem recurse_recognised (j : Nonterminal) (h : recurse production j p = (.ok ty, q)) :
    Recognised p ty q j := by
  revert h
  refine recurse_induction (C := fun j p out => ∀ ty q, out = (.ok ty, q) → Recognised p ty q j)
    ?_ ?_ j p ty q
  · exact fun j p ty q h => absurd h failHere_ne_ok
  · intro nested hs j p ty q h
    cases j with
    | expression => exact expressionBody_recognised hs h
    | simple => exact simpleBody_recognised hs h

theorem expression_recognised (h : expression p = (.ok ty, q)) :
    ∃ (e : Expr) (r : Translation), e.Runs p r q ∧ r.ty = ty :=
  recurse_recognised .expression h

theorem expression_gives {e : Expr} {r : Translation} {rest : List Lexeme} (hp : e.Plain)
    (hr : e.reference p.table = some r) (hi : p.input.lexemes = e.lexemes ++ rest)
    (hs : (next rest).any closes) : Gives expression p r.ty e.lexemes r.code r.warnings := by
  unfold Expr.reference at hr
  split at hr
  · rename_i hnames
    obtain ⟨nested, hf, heq⟩ := exists_faithful .expression p
    have hc : e.Clear p.table := e.clear_of_names (by simpa using hnames)
    unfold Gives expression
    rw [heq]
    exact e.gives hf (Nat.le_refl _) hi hp hc hr hs
  · cases hr

/-- The pass reads expressions as their trees are translated. In front of a token that closes
an expression, the tokens of a tree are read with the type, the code and the warnings of its
translation; and whenever an expression is read, it is such a tree. -/
theorem expression_reads_trees (p : Pass) :
    (∀ (e : Expr) (r : Translation) (l : Lexeme) (rest : List Lexeme), e.Plain →
      e.reference p.table = some r → closes l.token → p.input.lexemes = e.lexemes ++ l :: rest →
      ∃ q, expression p = (.ok r.ty, q) ∧ q.input = ⟨l :: rest, p.input.finish⟩ ∧
        q.table = p.table ∧ q.code = p.code.emitAll r.code ∧
        q.diagnostics = p.diagnostics.warnAll r.warnings) ∧
    (∀ (ty : Ty) (q : Pass), expression p = (.ok ty, q) →
      ∃ (e : Expr) (r : Translation), e.Plain ∧ e.translate p.table = some r ∧ r.ty = ty ∧
        p.input.lexemes = e.lexemes ++ q.input.lexemes ∧ q.input.finish = p.input.finish ∧
        q.table = p.table ∧ q.code = p.code.emitAll r.code ∧
        q.diagnostics = p.diagnostics.warnAll r.warnings) := by
  constructor
  · intro e r l rest hp hr hl hi
    have hs : (next (l :: rest)).any closes := by simpa [next] using hl
    obtain ⟨q, hq, hread⟩ := expression_gives hp hr hi hs
    refine ⟨q, hq, ?_, hread.table, hread.code, hread.diagnostics⟩
    rw [← hread.rest hi, ← hread.finish]
  · intro ty q h
    obtain ⟨e, r, ⟨hp, -, hr, hread⟩, hty⟩ := expression_recognised h
    exact ⟨e, r, hp, hr, hty, hread.lexemes, hread.finish, hread.table, hread.code,
      hread.diagnostics⟩

/-- The tree of `a[i++] = i * x + 1`. -/
def elementUpdate : Expr :=
  let at' (column : Nat) : Location := ⟨1, column, column - 1⟩
  let i (column : Nat) : Place := .name (at' column) "i"
  let index : Expr := .sum (.product .none (.simple (.countAfter (i 3) (at' 4) .up)))
  let product : Product := .times (.simple (.value (i 10))) (at' 12) .mul
    (.value (.name (at' 14) "x"))
  let value : Expr := .sum (.plus (.product .none product) (at' 16) .add
    (.simple (.literal (at' 18) (.int 1))))
  .sum (.product .none (.simple (.assign (.element (at' 1) "a" (at' 2) index (at' 6)) (at' 8)
    value)))

/-- A pass in front of it, where `a` is an array of doubles, `i` an integer and `x` a
double. -/
def elementUpdatePass : Pass where
  table := [.declareField ⟨"a", .field (.module 0) (.array .double)⟩ .start, .openScope,
    .declare ⟨"i", .localVar 0 .int⟩ .start,
    .declare ⟨"x", .localVar 1 .double⟩ .start].foldl Table.edit { host := {} }
  code := .empty "main"
  diagnostics := { maxErrors := 1 }
  input := ⟨elementUpdate.lexemes ++ [⟨.punct .semicolon, ⟨1, 19, 18⟩⟩], ⟨1, 20, 19⟩⟩

theorem expression_reads_elementUpdate :
    ∃ q, expression elementUpdatePass = (.ok .void, q) ∧
      q.input = ⟨[⟨.punct .semicolon, ⟨1, 19, 18⟩⟩], ⟨1, 20, 19⟩⟩ ∧
      q.table = elementUpdatePass.table ∧
      q.code = (Code.empty "main").emitAll
        [.loadBase (.module 0), .read (.localVar 0), .count (.localVar 0) .postInc,
          .read (.localVar 0), .read (.localVar 1), .multiplicative .mul .int .double,
          .const (.int 1), .additive .add .double .int, .store (.element (.module 0))] ∧
      q.diagnostics = { maxErrors := 1 : Diagnostics }.warnAll
        [⟨⟨1, 12, 11⟩, .converted .left⟩, ⟨⟨1, 16, 15⟩, .converted .right⟩] :=
  (expression_reads_trees elementUpdatePass).1 elementUpdate
    ⟨.void, _, _⟩ ⟨.punct .semicolon, ⟨1, 19, 18⟩⟩ []
    (by simp [elementUpdate, Expr.Plain, Sum.Plain, Product.Plain, Simple.Plain, Place.Plain,
      Product.lead, Simple.lead, Place.lead]) rfl rfl rfl

end Action
end OnePass
