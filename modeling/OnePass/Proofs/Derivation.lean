import OnePass.Compile
import OnePass.Proofs.Expressions

/-!
What statements and declarations do to a pass, whatever the outcome. The rules follow the
statements of the language, and each of them says which labels are made and marked and which
scopes are opened and closed. What a compilation keeps is shown by induction on these rules.
-/

namespace OnePass

theorem Table.length_updateInnermost (t : Table) (f : Frame → Frame) :
    (t.updateInnermost f).blocks.length = t.blocks.length := by
  unfold updateInnermost
  split
  · rename_i hb
    simp [hb]
  · rfl

namespace Pass

/-- The labels of a loop that begins here. -/
def loopLabels (p : Pass) : LoopLabels :=
  ⟨(p.perform .newLabel).code.nextLabel, p.code.nextLabel⟩

/-- A loop has begun: its labels are made, and the one to repeat it is marked. -/
def beginLoop (p : Pass) : Pass :=
  ((p.perform .newLabel).perform .newLabel).perform (.markLabel p.loopLabels.again)

/-- The loop ends with a jump back, and its exit is marked. -/
def endLoop (p : Pass) (labels : LoopLabels) : Pass :=
  (p.perform (.emit (.branch labels.again))).perform (.markLabel labels.exit)

/-- The branch around a statement, to a label that is marked later. -/
def skipUnless (p : Pass) : Pass :=
  (p.perform .newLabel).perform (.emit (.branchFalse p.code.nextLabel))

/-- The end of the statement that such a branch skips, and the branch around the other one. -/
def otherwise (p : Pass) (label : Label) : Pass :=
  ((p.perform .newLabel).perform (.emit (.branch p.code.nextLabel))).perform (.markLabel label)

def openBlock (p : Pass) : Pass :=
  (p.edit .openScope).perform .openScope

def closeBlock (p : Pass) : Pass :=
  (p.perform .closeScope).edit .closeScope

def declareLocal (p : Pass) (name : String) (ty : Ty) (location : Location) : Pass :=
  (p.perform (.addLocal name ty)).edit
    (.declare ⟨name, .localVar p.code.current.locals.size ty⟩ location)

section Table

variable (p : Pass)

@[simp] theorem table_beginLoop : p.beginLoop.table = p.table := by simp [beginLoop]

@[simp] theorem table_endLoop (labels : LoopLabels) : (p.endLoop labels).table = p.table := by
  simp [endLoop]

@[simp] theorem table_skipUnless : p.skipUnless.table = p.table := by simp [skipUnless]

@[simp] theorem table_otherwise (label : Label) : (p.otherwise label).table = p.table := by
  simp [otherwise]

@[simp] theorem table_openBlock : p.openBlock.table = p.table.openScope := by
  simp [openBlock, Table.edit]

@[simp] theorem table_closeBlock : p.closeBlock.table = p.table.closeScope := by
  simp [closeBlock, Table.edit]

@[simp] theorem table_declareLocal (name : String) (ty : Ty) (l : Location) :
    (p.declareLocal name ty l).table =
      p.table.declare ⟨name, .localVar p.code.current.locals.size ty⟩ l := by
  simp [declareLocal, Table.edit]

end Table

/-- A condition has been read. -/
def Tested (p q : Pass) : Prop :=
  ∃ r s, p.Writes [] r ∧ Action.expression r = (.ok .bool, s) ∧ s.Writes [] q

/-- A statement has been abandoned among instructions of an expression or at a return. -/
def Abandons (p q : Pass) : Prop :=
  ∃ is, p.Writes is q ∧ (∀ i ∈ is, p.table.Allows i ∨ i = .ret) ∧
    0 < q.diagnostics.errorCount

/-- One statement, or the items of a block one after another. -/
inductive Part where
  | statement
  | items

/-- What statements and the items of blocks do, inside of a loop or not. Only an item declares a
local variable. -/
inductive Ran : Part → Option LoopLabels → Pass → Pass → Prop
  | quiet {part : Part} {loop : Option LoopLabels} {p q : Pass} : p.Writes [] q → Ran part loop p q
  | trans {part : Part} {loop : Option LoopLabels} {p q r : Pass} :
      Ran part loop p q → Ran part loop q r → Ran part loop p r
  | item {loop : Option LoopLabels} {p q : Pass} : Ran .statement loop p q → Ran .items loop p q
  | declared {loop : Option LoopLabels} {p : Pass} {name : String} {ty : Ty} (l : Location) :
      p.table.blocks ≠ [] → p.table.declaredAt? name = none → ty ≠ .void →
      Ran .items loop p (p.declareLocal name ty l)
  | abandoned {loop : Option LoopLabels} {p q : Pass} : p.Abandons q → Ran .statement loop p q
  | discarded {loop : Option LoopLabels} {p q : Pass} {ty : Ty} :
      Action.expression p = (.ok ty, q) →
      Ran .statement loop p (if ty = .void then q else q.perform (.emit .pop))
  | returned {loop : Option LoopLabels} {p : Pass} :
      p.code.current.returnType = .void → Ran .statement loop p (p.perform (.emit .ret))
  | returnedValue {loop : Option LoopLabels} {p q r : Pass} {ty returnType : Ty} :
      p.code.current.returnType = returnType → returnType ≠ .void →
      Action.expression p = (.ok ty, q) → returnType.assignable ty →
      q.Writes (Instr.assignCast? returnType ty).toList r →
      Ran .statement loop p (r.perform (.emit .ret))
  | jumped {labels : LoopLabels} {p : Pass} {label : Label} :
      label = labels.exit ∨ label = labels.again →
      Ran .statement (some labels) p (p.perform (.emit (.branch label)))
  | block {loop : Option LoopLabels} {p q : Pass} :
      Ran .items loop p.openBlock q → Ran .statement loop p q.closeBlock
  | ifThen {loop : Option LoopLabels} {p q r : Pass} :
      p.Tested q → Ran .statement loop q.skipUnless r →
      Ran .statement loop p (r.perform (.markLabel q.code.nextLabel))
  | ifElse {loop : Option LoopLabels} {p q r s u : Pass} :
      p.Tested q → Ran .statement loop q.skipUnless r → r.Writes [] s →
      Ran .statement loop (s.otherwise q.code.nextLabel) u →
      Ran .statement loop p (u.perform (.markLabel s.code.nextLabel))
  | whileAbandoned {loop : Option LoopLabels} {p q : Pass} :
      p.beginLoop.Abandons q →
      Ran .statement loop p (q.perform (.markLabel p.loopLabels.exit))
  | whileLoop {loop : Option LoopLabels} {p q r : Pass} :
      p.beginLoop.Tested q →
      Ran .statement (some p.loopLabels)
        (q.perform (.emit (.branchFalse p.loopLabels.exit))) r →
      Ran .statement loop p (r.endLoop p.loopLabels)
  | infinite {loop : Option LoopLabels} {p q : Pass} :
      Ran .statement (some p.loopLabels) p.beginLoop q →
      Ran .statement loop p (q.endLoop p.loopLabels)

end Pass

namespace Action

open Pass

variable {α β : Type} {t : Table} {A : Instr → Prop} {part : Part} {loop : Option LoopLabels}
  {p q : Pass}

/-! Runs put together -/

theorem Writing.requireFresh (what : Declared) (name : String) (l : Location) :
    Writing t A (Action.requireFresh what name l) fun _ => t.declaredAt? name = none := by
  rintro p rfl
  unfold Action.requireFresh
  cases hfirst : p.table.declaredAt? name with
  | none => exact ⟨⟨[], .refl p, by simp⟩, fun _ _ => rfl, by simp⟩
  | some first =>
      have hrest (q : Pass) : q.Writes [] (if first = .builtin then q
          else q.report .note first (Remark.firstDeclared name).message).resynchronise := by
        split
        · exact .resynchronise q
        · exact (Pass.Writes.report q (s := .note) nofun _ _).trans (.resynchronise _)
      exact ⟨⟨[], (Pass.Writes.report p (s := .error) nofun _ _).trans (hrest _), by simp⟩, by simp,
        fun _ _ => Nat.lt_of_lt_of_le (Pass.errorCount_report p _ _) (hrest _).errors⟩

theorem abandons_of_error {m : Action α} {e : Abandoned} (hm : Writing p.table p.table.Allows m)
    (h : m p = (.error e, q)) : p.Abandons q := by
  obtain ⟨⟨is, hwrites, hallowed⟩, -, herror⟩ := hm p rfl
  rw [h] at hwrites herror
  exact ⟨is, hwrites, fun i hi => .inl (hallowed i hi), herror e rfl⟩

theorem quiet_of_ok {m : Action α} {Q : α → Prop} {a : α}
    (hm : Writing p.table (fun _ => False) m Q) (h : m p = (.ok a, q)) :
    p.Writes [] q ∧ Q a := by
  have hwrites := hm.writes_nothing rfl
  have hvalue := (hm p rfl).value
  rw [h] at hwrites hvalue
  exact ⟨hwrites, hvalue a rfl⟩

/-- A run goes on where its first part gives a value, and else ends with it. The first part
writes nothing. -/
theorem quiet_bind {R : Pass → Pass → Prop} (hquiet : ∀ {p q}, p.Writes [] q → R p q)
    (htrans : ∀ {p q r}, R p q → R q r → R p r) {m : Action α} {f : α → Action β} {Q : α → Prop}
    (hm : Writing p.table (fun _ => False) m Q)
    (hf : ∀ a q, p.Writes [] q → Q a → R q (f a q).2) : R p ((m >>= f) p).2 := by
  have hwrites := hm.writes_nothing rfl
  have hvalue := (hm p rfl).value
  cases h : m p with
  | mk out q =>
      rw [h] at hwrites hvalue
      cases out with
      | error e =>
          rw [bind_error h]
          exact hquiet hwrites
      | ok a =>
          rw [bind_ok h]
          exact htrans (hquiet hwrites) (hf a q hwrites (hvalue a rfl))

theorem ran_quiet_bind {m : Action α} {f : α → Action β} {Q : α → Prop}
    (hm : Writing p.table (fun _ => False) m Q)
    (hf : ∀ a q, p.Writes [] q → Q a → Ran part loop q (f a q).2) :
    Ran part loop p ((m >>= f) p).2 :=
  quiet_bind .quiet .trans hm hf

theorem ran_of_quiet {m : Action α} {Q : α → Prop}
    (hm : Writing p.table (fun _ => False) m Q) : Ran part loop p (m p).2 :=
  .quiet (hm.writes_nothing rfl)

/-! Statements -/

theorem writing_condition : Writing t t.Allows condition := by
  refine .bind (.consume _) fun _ _ => .bind writing_expression fun _ _ => ?_
  exact .bind (.require _ _) fun _ _ => .consume _

theorem tested_of_ok {u : Unit} (h : condition p = (.ok u, q)) : p.Tested q := by
  obtain ⟨_, r, hopen, h⟩ := bind_eq_ok.mp h
  obtain ⟨ty, s, hexpr, h⟩ := bind_eq_ok.mp h
  obtain ⟨_, _, hrequire, h⟩ := bind_eq_ok.mp h
  obtain ⟨rfl, rfl⟩ := require_eq_ok.mp hrequire
  exact ⟨r, s, (quiet_of_ok (.consume _) hopen).1, hexpr, (quiet_of_ok (.consume _) h).1⟩

theorem expression_writes {out : Except Abandoned Ty} (h : expression p = (out, q)) :
    ∃ is, p.Writes is q ∧ ∀ i ∈ is, p.table.Allows i := by
  have hwrites := (writing_expression p rfl).writes
  rwa [h] at hwrites

theorem ran_variableDeclaration (hb : p.table.blocks ≠ []) :
    Ran .items loop p (variableDeclaration p).2 := by
  refine ran_quiet_bind .type fun ty p₁ h₁ _ => ?_
  refine ran_quiet_bind (.identifier _) fun (name, l) p₂ h₂ _ => ?_
  refine ran_quiet_bind (.requireAt _ _ _) fun _ p₃ h₃ hty => ?_
  refine ran_quiet_bind (.requireFresh _ _ _) fun _ p₄ h₄ hfresh => ?_
  refine ran_quiet_bind (.consume _) fun _ p₅ h₅ _ => ?_
  rw [← h₄.table, ← h₅.table] at hfresh
  rw [← h₁.table, ← h₂.table, ← h₃.table, ← h₄.table, ← h₅.table] at hb
  exact .declared l hb hfresh hty

end Action

namespace Pass

variable {part : Part} {loop : Option LoopLabels} {p q : Pass}

theorem Tested.writes (h : p.Tested q) : ∃ is, p.Writes is q ∧ ∀ i ∈ is, p.table.Allows i := by
  obtain ⟨r, s, hr, hs, hq⟩ := h
  obtain ⟨is, his, hallowed⟩ := Action.expression_writes hs
  refine ⟨is, by simpa using hr.trans (his.trans hq), ?_⟩
  rwa [hr.table] at hallowed

/-- What statements ask of the code, beside the instructions of expressions and outside of blocks
and declarations. -/
def Asks : Code.Request → Prop
  | .emit i => i = .pop ∨ i = .ret ∨ i.branchTarget?.isSome
  | .newLabel | .markLabel _ => True
  | _ => False

/-- A relation between passes that holds over each single part of a run. -/
structure Stepwise (R : Pass → Pass → Prop) : Prop where
  trans : ∀ {p q r}, R p q → R q r → R p r
  writes : ∀ {p q is}, p.Writes is q → (∀ i ∈ is, p.table.Allows i ∨ i = .ret) → R p q
  perform : ∀ p r, Asks r → R p (p.perform r)
  declared : ∀ {p : Pass} {name ty} l, p.table.blocks ≠ [] → p.table.declaredAt? name = none →
    ty ≠ .void → R p (p.declareLocal name ty l)
  block : ∀ {p q}, R p.openBlock q → R p q.closeBlock

namespace Stepwise

variable {R : Pass → Pass → Prop} (hR : Stepwise R)
include hR

theorem allowed {is : List Instr} (h : p.Writes is q ∧ ∀ i ∈ is, p.table.Allows i) : R p q :=
  hR.writes h.1 fun i hi => .inl (h.2 i hi)

theorem expression {ty : Ty} (h : Action.expression p = (.ok ty, q)) : R p q := by
  obtain ⟨is, h⟩ := Action.expression_writes h
  exact hR.allowed h

theorem tested (h : p.Tested q) : R p q := by
  obtain ⟨is, h⟩ := h.writes
  exact hR.allowed h

theorem abandons (h : p.Abandons q) : R p q := by
  obtain ⟨is, h, hallowed, -⟩ := h
  exact hR.writes h hallowed

theorem newLabel (p : Pass) : R p (p.perform .newLabel) :=
  hR.perform p .newLabel trivial

theorem markLabel (p : Pass) (l : Label) : R p (p.perform (.markLabel l)) :=
  hR.perform p (.markLabel l) trivial

theorem branch (p : Pass) (l : Label) : R p (p.perform (.emit (.branch l))) :=
  hR.perform p (.emit (.branch l)) (.inr (.inr rfl))

theorem branchFalse (p : Pass) (l : Label) : R p (p.perform (.emit (.branchFalse l))) :=
  hR.perform p (.emit (.branchFalse l)) (.inr (.inr rfl))

theorem ret (p : Pass) : R p (p.perform (.emit .ret)) :=
  hR.perform p (.emit .ret) (.inr (.inl rfl))

theorem beginLoop (p : Pass) : R p p.beginLoop :=
  hR.trans (hR.trans (hR.newLabel _) (hR.newLabel _)) (hR.markLabel _ _)

theorem endLoop (p : Pass) (labels : LoopLabels) : R p (p.endLoop labels) :=
  hR.trans (hR.branch _ _) (hR.markLabel _ _)

theorem skipUnless (p : Pass) : R p p.skipUnless :=
  hR.trans (hR.newLabel _) (hR.branchFalse _ _)

theorem otherwise (p : Pass) (l : Label) : R p (p.otherwise l) :=
  hR.trans (hR.trans (hR.newLabel _) (hR.branch _ _)) (hR.markLabel _ _)

/-- It holds over the whole run. -/
theorem ran (h : Ran part loop p q) : R p q := by
  induction h with
  | quiet h => exact hR.writes h (by simp)
  | trans _ _ ih ih' => exact hR.trans ih ih'
  | item _ ih => exact ih
  | declared l hb hfresh hty => exact hR.declared l hb hfresh hty
  | abandoned h => exact hR.abandons h
  | discarded h =>
      split
      · exact hR.expression h
      · exact hR.trans (hR.expression h) (hR.perform _ (.emit .pop) (.inl rfl))
  | returned _ => exact hR.ret _
  | returnedValue _ _ h _ h' =>
      have hcast := hR.allowed ⟨h', fun i hi => Action.allows_assignCast (Option.mem_toList.mp hi)⟩
      exact hR.trans (hR.trans (hR.expression h) hcast) (hR.ret _)
  | jumped _ => exact hR.branch _ _
  | block _ ih => exact hR.block ih
  | ifThen h _ ih =>
      have htest := hR.trans (hR.tested h) (hR.skipUnless _)
      exact hR.trans (hR.trans htest ih) (hR.markLabel _ _)
  | ifElse h _ h' _ ih ih' =>
      have hthen := hR.trans (hR.trans (hR.tested h) (hR.skipUnless _)) ih
      have helse := hR.trans (hR.trans (hR.writes h' (by simp)) (hR.otherwise _ _)) ih'
      exact hR.trans (hR.trans hthen helse) (hR.markLabel _ _)
  | whileAbandoned h =>
      exact hR.trans (hR.trans (hR.beginLoop _) (hR.abandons h)) (hR.markLabel _ _)
  | whileLoop h _ ih =>
      have htest := hR.trans (hR.beginLoop _) (hR.tested h)
      exact hR.trans (hR.trans (hR.trans htest (hR.branchFalse _ _)) ih) (hR.endLoop _ _)
  | infinite _ ih => exact hR.trans (hR.trans (hR.beginLoop _) ih) (hR.endLoop _ _)

end Stepwise

theorem stepwise_observe {α : Type} {f : Table → α}
    (hdeclare : ∀ t s l, f (Table.declare t s l) = f t)
    (hblock : ∀ t u : Table, f u = f t.openScope → f u.closeScope = f t) :
    Stepwise fun p q => f q.table = f p.table where
  trans h h' := h'.trans h
  writes h _ := by rw [h.table]
  perform p r _ := by rw [table_perform]
  declared l _ _ _ := by
    rw [table_declareLocal]
    exact hdeclare _ _ l
  block h := by
    rw [table_openBlock] at h
    rw [table_closeBlock]
    exact hblock _ _ h

/-- The innermost block is the same one before and after. -/
theorem Ran.length_blocks (h : Ran part loop p q) :
    q.table.blocks.length = p.table.blocks.length := by
  refine (stepwise_observe (f := fun t => t.blocks.length) ?_ ?_).ran h
  · intro t s l
    exact Table.length_updateInnermost _ _
  · intro t u hu
    simp [Table.closeScope, Table.openScope, hu]

theorem stepwise_errors :
    Stepwise fun p q => p.diagnostics.errorCount ≤ q.diagnostics.errorCount where
  trans := Nat.le_trans
  writes h _ := h.errors
  perform p r _ := Nat.le_of_eq (by rw [diagnostics_perform])
  declared l _ _ _ := Nat.le_of_eq (by simp [declareLocal])
  block h := by simpa [openBlock, closeBlock] using h

/-- Errors stay counted. -/
theorem Ran.errors (h : Ran part loop p q) :
    p.diagnostics.errorCount ≤ q.diagnostics.errorCount :=
  stepwise_errors.ran h

theorem Ran.blocks_ne_nil (h : Ran part loop p q) (hp : p.table.blocks ≠ []) :
    q.table.blocks ≠ [] := by
  rw [← List.length_pos_iff] at hp ⊢
  rwa [h.length_blocks]

end Pass

namespace Action

open Pass

variable {nested : Option LoopLabels → Action Unit} {loop : Option LoopLabels} {p q : Pass}

theorem ran_blockItems (hn : ∀ loop q, Ran .statement loop q (nested loop q).2)
    (hb : p.table.blocks ≠ []) : Ran .items loop p (blockItems nested loop p).2 := by
  unfold blockItems
  refine recurse_induction (C := fun _ p out => p.table.blocks ≠ [] → Ran .items loop p out.2)
    ?_ ?_ () p hb
  · exact fun _ p _ => ran_of_quiet (Q := fun _ => True) (.failHere _)
  · intro more ih _ p hb
    refine ran_quiet_bind .peek fun token p₁ h₁ _ => ?_
    have hb₁ : p₁.table.blocks ≠ [] := h₁.table ▸ hb
    split
    · exact ran_of_quiet (.consume _)
    · exact ran_of_quiet (.consume _)
    · refine ran_quiet_bind (.view _) fun isType p₂ h₂ _ => ?_
      have hb₂ : p₂.table.blocks ≠ [] := h₂.table ▸ hb₁
      split
      · have h : Ran .items loop p₂ _ := ran_variableDeclaration hb₂
        exact h.trans (ih () _ (h.blocks_ne_nil hb₂))
      · have h := Ran.item (hn loop p₂)
        exact h.trans (ih () _ (h.blocks_ne_nil hb₂))

theorem ran_block (hn : ∀ loop q, Ran .statement loop q (nested loop q).2) :
    Ran .statement loop p (block nested loop p).2 := by
  refine ran_quiet_bind (.consume _) fun _ p₁ _ _ => ?_
  exact .block (ran_blockItems hn (by simp [Table.openScope]))

theorem ran_ifStatement (hn : ∀ loop q, Ran .statement loop q (nested loop q).2) :
    Ran .statement loop p (ifStatement nested loop p).2 := by
  refine ran_quiet_bind .skip fun _ p₁ _ _ => ?_
  cases h : condition p₁ with
  | mk out q =>
      cases out with
      | error e =>
          rw [bind_error h]
          exact .abandoned (abandons_of_error writing_condition h)
      | ok u =>
          rw [bind_ok h]
          have hthen := hn loop q.skipUnless
          simp only [bind_ok (newLabel_apply q), bind_ok (emit_apply _ _)]
          rw [bind_ok (attempt_apply _ _)]
          unfold acceptWord
          rw [accept_bind]
          split
          · exact .ifElse (tested_of_ok h) hthen (.advance _) (hn loop _)
          · exact .ifThen (tested_of_ok h) hthen

/-- A loop whose condition is wrong is only begun, and its exit is marked. -/
theorem whileStatement_cases (nested : Option LoopLabels → Action Unit) (p : Pass) :
    let labels := p.advance.loopLabels
    (∃ e q, condition p.advance.beginLoop = (.error e, q) ∧
      whileStatement nested p = (.error e, q.perform (.markLabel labels.exit))) ∨
    ∃ u q, condition p.advance.beginLoop = (.ok u, q) ∧
      whileStatement nested p =
        (.ok (), (nested (some labels) (q.perform (.emit (.branchFalse labels.exit)))).2.endLoop
          labels) := by
  intro labels
  have hbegun : whileStatement nested p = (do
      condition.ifAbandoned fun p => p.perform (.markLabel labels.exit)
      emit (.branchFalse labels.exit)
      attempt (nested (some labels))
      emit (.branch labels.again)
      markLabel labels.exit : Action Unit) p.advance.beginLoop := rfl
  rw [hbegun]
  cases h : condition p.advance.beginLoop with
  | mk out q =>
      cases out with
      | error e => exact .inl ⟨e, q, rfl, bind_error (by simp only [ifAbandoned, h])⟩
      | ok u => exact .inr ⟨u, q, rfl, bind_ok (a := u) (by simp only [ifAbandoned, h])⟩

theorem ran_whileStatement (hn : ∀ loop q, Ran .statement loop q (nested loop q).2) :
    Ran .statement loop p (whileStatement nested p).2 := by
  have hskip : Ran .statement loop p p.advance := .quiet (.advance p)
  obtain ⟨e, q, h, hrun⟩ | ⟨u, q, h, hrun⟩ := whileStatement_cases nested p
  · rw [hrun]
    exact hskip.trans (.whileAbandoned (abandons_of_error writing_condition h))
  · rw [hrun]
    exact hskip.trans (.whileLoop (tested_of_ok h) (hn _ _))

/-- Behind the end of a loop without a condition only a word is missing or not. -/
theorem loopStatement_writes (nested : Option LoopLabels → Action Unit) (p : Pass) :
    let labels := p.advance.loopLabels
    ((nested (some labels) p.advance.beginLoop).2.endLoop labels).Writes []
      (loopStatement nested p).2 := by
  intro labels
  have hend (t : Table) : Writing t (fun _ => False) (do
      if ← acceptWord .infiniteWord then return ()
      else failHere (.expected .loopEnd) : Action Unit) := by
    refine .bind (.accept _) fun _ _ => ?_
    split
    · exact .pure trivial
    · exact .failHere _
  exact (hend _).writes_nothing rfl

theorem ran_loopStatement (hn : ∀ loop q, Ran .statement loop q (nested loop q).2) :
    Ran .statement loop p (loopStatement nested p).2 := by
  have hskip : Ran .statement loop p p.advance := .quiet (.advance p)
  exact (hskip.trans (.infinite (hn _ _))).trans (.quiet (loopStatement_writes nested p))

/-- A return that is wrong in its place still returns. -/
theorem abandons_returned {is : List Instr} {r : Pass} (hwrites : p.Writes is q)
    (hallowed : ∀ i ∈ is, p.table.Allows i) (hr : (q.perform (.emit .ret)).Writes [] r)
    (herror : 0 < r.diagnostics.errorCount) : p.Abandons r := by
  have hret : q.Writes [.ret] (q.perform (.emit .ret)) := .emit q rfl
  refine ⟨is ++ [.ret], by simpa using (hwrites.trans hret).trans hr, ?_, herror⟩
  intro i hi
  rcases List.mem_append.mp hi with hi | hi
  · exact .inl (hallowed i hi)
  · exact .inr (by simpa using hi)

theorem abandons_failAt {is : List Instr} (hwrites : p.Writes is q)
    (hallowed : ∀ i ∈ is, p.table.Allows i) (l : Location) (c : Complaint) :
    p.Abandons ((failAt l c : Action Unit) (q.perform (.emit .ret))).2 :=
  have hfail : Writing (q.perform (.emit .ret)).table (fun _ => False) (failAt l c : Action Unit)
    (fun _ => True) := .failAt l c
  abandons_returned hwrites hallowed (hfail.writes_nothing rfl) ((hfail _ rfl).abandoned _ rfl)

theorem ran_returnNothing (l : Location) :
    Ran .statement loop p (returnNothing l p.code.current.returnType p).2 := by
  unfold returnNothing requireAt
  rw [bind_ok (emit_apply _ p)]
  by_cases hvoid : p.code.current.returnType = .void
  · simp only [if_pos hvoid]
    exact (Ran.returned hvoid).trans (.quiet (.advance _))
  · simp only [if_neg hvoid]
    exact .abandoned (abandons_failAt (.refl p) (by simp) _ _)

theorem ran_returnValue (l : Location) :
    Ran .statement loop p (returnValue l p.code.current.returnType p).2 := by
  unfold returnValue
  cases h : expression p with
  | mk out q =>
      obtain ⟨is, hwrites, hallowed⟩ := expression_writes h
      cases out with
      | error e =>
          have h' : expression.ifAbandoned (fun p => p.perform (.emit .ret)) p =
              (.error e, q.perform (.emit .ret)) := by
            simp only [ifAbandoned, h]
          have herror := (writing_expression p rfl).abandoned e (by rw [h])
          rw [bind_error h']
          refine .abandoned (abandons_returned hwrites hallowed (.refl _) ?_)
          simpa [h] using herror
      | ok ty =>
          have h' : expression.ifAbandoned (fun p => p.perform (.emit .ret)) p = (.ok ty, q) := by
            simp only [ifAbandoned, h]
          rw [bind_ok h']
          split
          · exact .abandoned (abandons_failAt hwrites hallowed _ _)
          · rename_i hvoid
            split
            · rename_i hty
              obtain ⟨r, hcast, hr⟩ :=
                emit?_writes (i := Instr.assignCast? p.code.current.returnType ty)
                  (fun _ => promotes_assignCast) q
              rw [bind_ok hcast, bind_ok (emit_apply _ r)]
              exact (Ran.returnedValue rfl hvoid h hty hr).trans (ran_of_quiet (.consume _))
            · exact .abandoned (abandons_failAt hwrites hallowed _ _)

theorem ran_returnStatement : Ran .statement loop p (returnStatement p).2 := by
  refine ran_quiet_bind .advance fun l p₁ _ _ => ?_
  rw [bind_ok (view_apply _ p₁), bind_ok (atMark_apply _ p₁)]
  split
  · exact ran_returnNothing l
  · exact ran_returnValue l

theorem ran_jump {target : LoopLabels → Label} (word : Keyword)
    (ht : ∀ labels, target labels = labels.exit ∨ target labels = labels.again) :
    Ran .statement loop p (jump word (loop.map target) p).2 := by
  refine ran_quiet_bind .advance fun l p₁ _ _ => ?_
  cases loop with
  | none => exact ran_of_quiet (Q := fun _ => True) (.failAt _ _)
  | some labels => exact (Ran.jumped (ht labels)).trans (ran_of_quiet (.consume _))

theorem ran_expressionStatement : Ran .statement loop p (expressionStatement p).2 := by
  unfold expressionStatement
  cases h : expression p with
  | mk out q =>
      cases out with
      | error e =>
          rw [bind_error h]
          exact .abandoned (abandons_of_error writing_expression h)
      | ok ty =>
          rw [bind_ok h]
          have hdiscarded : Ran .statement loop p _ := .discarded h
          split at hdiscarded <;> rename_i hty
          · rw [if_pos hty]
            exact hdiscarded.trans (ran_of_quiet (.consume _))
          · rw [if_neg hty, bind_ok (emit_apply _ q)]
            exact hdiscarded.trans (ran_of_quiet (.consume _))

/-- Every statement runs by the rules, whatever stands in the text. -/
theorem ran_statement (loop : Option LoopLabels) (p : Pass) :
    Ran .statement loop p (statement loop p).2 := by
  refine recurse_induction (C := fun loop p out => Ran .statement loop p out.2) ?_ ?_ loop p
  · exact fun loop p => ran_of_quiet (Q := fun _ => True) (.failHere _)
  · intro nested hn loop p
    refine ran_quiet_bind .peek fun token p₁ _ _ => ?_
    split
    · exact ran_block hn
    · exact ran_of_quiet .skip
    · split
      · exact ran_ifStatement hn
      · exact ran_whileStatement hn
      · exact ran_loopStatement hn
      · exact ran_returnStatement
      · exact ran_jump _ fun _ => .inl rfl
      · exact ran_jump _ fun _ => .inr rfl
      · exact ran_of_quiet (Q := fun _ => True) (.fail _)
      · exact ran_of_quiet (Q := fun _ => True) (.fail _)
    · exact ran_expressionStatement

end Action

/-! Programs -/

theorem Table.depth_pos (t : Table) : 0 < t.depth :=
  Nat.succ_pos _

theorem Table.length_overwriteAt (t : Table) (depth : Nat) (name : String) (symbol : Symbol) :
    (t.overwriteAt depth name symbol).blocks.length = t.blocks.length := by
  unfold overwriteAt
  split
  · rfl
  · rfl
  · split
    · simp
    · rfl

namespace Pass

/-- A method has been declared, and the scope of its parameters is open. -/
def beginSignature (p : Pass) (name : String) (returnType : Ty) (l : Location) : Pass :=
  (p.edit (.declare ⟨name, .method returnType [] none⟩ l)).edit .openScope

def declareParam (p : Pass) (name : String) (ty : Ty) (ordinal : Nat) (l : Location) : Pass :=
  p.edit (.declare ⟨name, .param none ty ordinal⟩ l)

/-- The method whose signature has been read is opened, and its parameters get their indices. -/
def openMethod (p : Pass) (depth : Nat) (name : String) (returnType : Ty)
    (params : List (String × Ty)) : Pass :=
  let types := params.map Prod.snd
  let q := p.perform (.addMethod name returnType types)
  Action.completeMethod depth name types q.code.currentIndex (Action.bindParameters params 1 q)

def closeMethod (p : Pass) : Pass :=
  (p.perform .closeMethod).edit .closeScope

def declareField (p : Pass) (name : String) (ty : Ty) (size : Option Nat) (l : Location) : Pass :=
  (p.perform (.addField name ty size)).edit
    (.declareField ⟨name, .field (.module p.code.fields.size) ty⟩ l)

/-- Parameters have been read and declared. -/
inductive Parameters : List (String × Ty) → Pass → Pass → Prop
  | nil {p q : Pass} : p.Writes [] q → Parameters [] p q
  | snoc {p q r : Pass} {params : List (String × Ty)} {name : String} {ty : Ty} (l : Location) :
      Parameters params p q → q.table.declaredAt? name = none → ty ≠ .void →
      (q.declareParam name ty (params.length + 1) l).Writes [] r →
      Parameters (params ++ [(name, ty)]) p r

/-- What the items of a program do. -/
inductive Built : Pass → Pass → Prop
  | ran {p q : Pass} : Ran .statement none p q → Built p q
  | trans {p q r : Pass} : Built p q → Built q r → Built p r
  | field {p : Pass} {name : String} {ty : Ty} (size : Option Nat) (l : Location) :
      (∃ token, Action.typeOf? p.table token = some ty) → p.table.declaredAt? name = none →
      ty ≠ .void → (∀ n, size = some n → 0 < n ∧ n ≤ 2147483647) →
      Built p (p.declareField name (if size.isSome then ty.array else ty) size l)
  /-- The signature was abandoned; no method is opened. -/
  | signature {p q : Pass} {name : String} {returnType : Ty} {params : List (String × Ty)}
      (l : Location) :
      p.table.declaredAt? name = none →
      Parameters params (p.beginSignature name returnType l) q → 0 < q.diagnostics.errorCount →
      Built p (q.edit .closeScope)
  | method {p q r : Pass} {name : String} {returnType : Ty} {params : List (String × Ty)}
      (l : Location) :
      p.table.declaredAt? name = none →
      Parameters params (p.beginSignature name returnType l) q →
      Ran .items none (q.openMethod p.table.depth name returnType params) r → Built p r.closeMethod

variable {p q r : Pass} {params : List (String × Ty)}

theorem Parameters.quiet (h : Parameters params p q) (hq : q.Writes [] r) :
    Parameters params p r := by
  cases h with
  | nil h => exact .nil (h.trans hq)
  | snoc l h hfresh hty h' => exact .snoc l h hfresh hty (h'.trans hq)

theorem Parameters.observe {α : Type} (f : Table → α)
    (hdeclare : ∀ t s l, f (t.declare s l) = f t) (h : Parameters params p q) :
    f q.table = f p.table := by
  induction h with
  | nil h => rw [h.table]
  | snoc l _ _ _ h' ih =>
      rw [h'.table, ← ih]
      exact hdeclare _ _ l

theorem Parameters.length_blocks (h : Parameters params p q) :
    q.table.blocks.length = p.table.blocks.length :=
  h.observe (fun t => t.blocks.length) fun _ _ _ => Table.length_updateInnermost _ _

theorem Parameters.code (h : Parameters params p q) : q.code = p.code := by
  induction h with
  | nil h => exact h.code
  | snoc l _ _ _ h' ih => rw [h'.code, ← ih, declareParam, Code.emitAll, List.foldl_nil, code_edit]

theorem Parameters.errors (h : Parameters params p q) :
    p.diagnostics.errorCount ≤ q.diagnostics.errorCount := by
  induction h with
  | nil h => exact h.errors
  | snoc l _ _ _ h' ih => exact Nat.le_trans ih (by simpa [declareParam] using h'.errors)

theorem Parameters.ne_void (h : Parameters params p q) : ∀ x ∈ params, x.2 ≠ .void := by
  induction h with
  | nil _ => exact fun _ => nofun
  | snoc l _ _ hty _ ih =>
      intro x hx
      rcases List.mem_append.mp hx with hx | hx
      · exact ih x hx
      · obtain rfl := List.mem_singleton.mp hx
        exact hty

section Observation

variable {α : Type} {f : Table → α}
  (hoverwrite : ∀ t depth name s, 0 < depth → f (Table.overwriteAt t depth name s) = f t)
include hoverwrite

theorem observe_bindParameters (ordinal : Nat) (p : Pass) :
    f (Action.bindParameters params ordinal p).table = f p.table := by
  induction params generalizing ordinal p with
  | nil => rfl
  | cons param params ih =>
      rw [Action.bindParameters, ih, Action.bindParameter]
      split
      · rw [hoverwrite _ _ _ _ (Table.depth_pos _), table_perform]
      · rw [table_perform]

/-- What no new symbol of a declared name changes of the table is the same in the open method. -/
theorem observe_openMethod (p : Pass) {depth : Nat} (hdepth : 0 < depth) (name : String)
    (returnType : Ty) (params : List (String × Ty)) :
    f (p.openMethod depth name returnType params).table = f p.table := by
  rw [openMethod, Action.completeMethod]
  split
  · rw [hoverwrite _ _ _ _ hdepth, observe_bindParameters hoverwrite, table_perform]
  · rw [observe_bindParameters hoverwrite, table_perform]

/-- What no declaration, no new symbol and no whole scope changes of the table is the same before
and after the items of a program. -/
theorem Built.observe (hdeclare : ∀ t s l, f (t.declare s l) = f t)
    (hfield : ∀ t s l, f (t.declareField s l) = f t)
    (hblock : ∀ t u : Table, f u = f t.openScope → f u.closeScope = f t) (h : Built p q) :
    f q.table = f p.table := by
  have hclose {params : List (String × Ty)} {p q : Pass} {name : String} {ty : Ty} {l : Location}
      (h : Parameters params (p.beginSignature name ty l) q) (u : Table) (hu : f u = f q.table) :
      f u.closeScope = f p.table := by
    rw [h.observe f hdeclare, beginSignature, table_edit, table_edit] at hu
    exact (hblock _ _ hu).trans (hdeclare _ _ l)
  induction h with
  | ran h => exact (stepwise_observe hdeclare hblock).ran h
  | trans _ _ ih ih' => exact ih'.trans ih
  | field size l _ _ _ _ =>
      rw [declareField, table_edit, table_perform]
      exact hfield _ _ l
  | signature l _ h _ =>
      rw [table_edit]
      exact hclose h _ rfl
  | method l _ h hran =>
      rw [closeMethod, table_edit, table_perform]
      refine hclose h _ ?_
      rw [(stepwise_observe hdeclare hblock).ran hran,
        observe_openMethod hoverwrite _ (Table.depth_pos _)]

end Observation

theorem length_openMethod (p : Pass) {depth : Nat} (hdepth : 0 < depth) (name : String)
    (returnType : Ty) (params : List (String × Ty)) :
    (p.openMethod depth name returnType params).table.blocks.length = p.table.blocks.length :=
  observe_openMethod (f := fun t => t.blocks.length) (fun t depth name s _ =>
    t.length_overwriteAt depth name s) p hdepth ..

end Pass

namespace Action

open Pass

variable {α β : Type} {p q : Pass} {params : List (String × Ty)}

/-- The parameters that have been read so far, whether or not the signature is abandoned. -/
def ReadsParameters (p : Pass) : Except Abandoned (List (String × Ty)) × Pass → Prop
  | (.ok params, q) => Parameters params p q
  | (.error _, q) => ∃ params, Parameters params p q ∧ 0 < q.diagnostics.errorCount

theorem readsParameters_bind {m : Action α} {f : α → Action (List (String × Ty))}
    {Q : α → Prop} (hp : Parameters params p q) (hm : Writing q.table (fun _ => False) m Q)
    (hf : ∀ a r, q.Writes [] r → Q a → ReadsParameters p (f a r)) :
    ReadsParameters p ((m >>= f) q) := by
  have hwrites := hm.writes_nothing rfl
  obtain ⟨-, hvalue, herror⟩ := hm q rfl
  cases h : m q with
  | mk out r =>
      rw [h] at hwrites hvalue herror
      cases out with
      | error e =>
          rw [bind_error h]
          exact ⟨params, hp.quiet hwrites, herror e rfl⟩
      | ok a =>
          rw [bind_ok h]
          exact hf a r hwrites (hvalue a rfl)

theorem readsParameters_more (hp : Parameters params p q) :
    ReadsParameters p (moreParameters params q) := by
  refine recurse_induction (C := fun params q out => Parameters params p q → ReadsParameters p out)
    ?_ ?_ params q hp
  · intro params q hp
    have hstuck : Writing q.table (fun _ => False)
      (failHere .noProgress : Action (List (String × Ty))) (fun _ => True) := .failHere _
    exact ⟨params, hp.quiet (hstuck.writes_nothing rfl), (hstuck q rfl).abandoned _ rfl⟩
  · intro more ih params q hp
    refine readsParameters_bind hp .type fun ty q₁ h₁ _ => ?_
    replace hp := hp.quiet h₁
    refine readsParameters_bind hp (.identifier _) fun (name, l) q₂ h₂ _ => ?_
    replace hp := hp.quiet h₂
    refine readsParameters_bind hp (.requireAt _ _ _) fun _ q₃ h₃ hty => ?_
    replace hp := hp.quiet h₃
    refine readsParameters_bind hp (.requireFresh _ _ _) fun _ q₄ h₄ hfresh => ?_
    rw [← h₄.table] at hfresh
    replace hp := Parameters.snoc l (hp.quiet h₄) hfresh hty (.refl _)
    show ReadsParameters p ((acceptMark .comma >>= _) (q₄.declareParam name ty _ l))
    refine readsParameters_bind hp (.accept _) fun _ q₅ h₅ _ => ?_
    replace hp := hp.quiet h₅
    split
    · exact ih _ _ hp
    · exact hp

theorem readsParameters (p : Pass) : ReadsParameters p (parameters p) := by
  refine readsParameters_bind (.nil (.refl p)) (.view _) fun _ q hq _ => ?_
  split
  · exact .nil hq
  · exact readsParameters_more (.nil hq)

theorem ran_methodBody (hb : p.table.blocks ≠ []) : Ran .items none p (methodBody p).2 := by
  refine ran_quiet_bind (.accept _) fun _ q hq _ => ?_
  split
  · exact ran_blockItems ran_statement (hq.table ▸ hb)
  · exact ran_of_quiet (Q := fun _ => True) (.failHere _)

theorem built_quiet_bind {m : Action α} {f : α → Action β} {Q : α → Prop}
    (hm : Writing p.table (fun _ => False) m Q)
    (hf : ∀ a q, p.Writes [] q → Q a → Built q (f a q).2) : Built p ((m >>= f) p).2 :=
  quiet_bind (fun h => .ran (.quiet h)) .trans hm hf

theorem writing_arraySuffix {t : Table} : Writing t (fun _ => False) arraySuffix
    fun size => ∀ n, size = some n → 0 < n ∧ n ≤ 2147483647 := by
  refine .bind (.accept _) fun _ _ => ?_
  split
  · refine .bind .peek fun _ _ => ?_
    split
    · rename_i size
      refine .bind (.require _ _) fun _ hpos => .bind .skip fun _ _ => ?_
      refine .bind (.consume _) fun _ _ => .pure ?_
      rintro n ⟨⟩
      have hlower : 0 < size.toInt := Int32.lt_iff_toInt_lt.mp hpos
      have hupper := size.toInt_lt
      omega
    · exact .failHere _
  · exact .pure nofun

theorem built_methodRest {returnType : Ty} {name : String} {l : Location}
    (hfresh : p.table.declaredAt? name = none) :
    Built p ((methodRest p.table.depth name returnType
      (p.beginSignature name returnType l)).2.edit .closeScope) := by
  have hparams := readsParameters (p.beginSignature name returnType l)
  unfold methodRest
  cases h : parameters (p.beginSignature name returnType l) with
  | mk out q =>
      rw [h] at hparams
      cases out with
      | error e =>
          obtain ⟨params, hparams, herror⟩ := hparams
          rw [bind_error h]
          exact .signature l hfresh hparams herror
      | ok params =>
          rw [bind_ok h]
          have hclose : Writing q.table (fun _ => False) (consume .rightParen) := .consume _
          have hwrites := hclose.writes_nothing rfl
          have hparams : Parameters params (p.beginSignature name returnType l) _ :=
            hparams.quiet hwrites
          cases h' : consume .rightParen q with
          | mk out r =>
              rw [h'] at hparams
              cases out with
              | error e =>
                  rw [bind_error h']
                  have herror := (hclose q rfl).abandoned e (by rw [h'])
                  rw [h'] at herror
                  exact .signature l hfresh hparams herror
              | ok u =>
                  rw [bind_ok h']
                  refine .method l hfresh hparams (ran_methodBody ?_)
                  rw [← List.length_pos_iff, length_openMethod _ (Table.depth_pos _),
                    hparams.length_blocks]
                  exact Nat.succ_pos _

theorem built_declaration : Built p (declaration p).2 := by
  refine built_quiet_bind .type fun ty p₁ h₁ htype => ?_
  refine built_quiet_bind (.identifier _) fun (name, l) p₂ h₂ _ => ?_
  refine built_quiet_bind (.view _) fun _ p₃ h₃ _ => ?_
  split
  · refine built_quiet_bind (.requireFresh _ _ _) fun _ p₄ h₄ hfresh => ?_
    refine built_quiet_bind .skip fun _ p₅ h₅ _ => ?_
    rw [← h₄.table, ← h₅.table] at hfresh
    exact built_methodRest (l := l) hfresh
  · refine built_quiet_bind writing_arraySuffix fun size p₄ h₄ hsize => ?_
    refine built_quiet_bind (.requireAt _ _ _) fun _ p₅ h₅ hty => ?_
    refine built_quiet_bind (.requireFresh _ _ _) fun _ p₆ h₆ hfresh => ?_
    refine built_quiet_bind (.consume _) fun _ p₇ h₇ _ => ?_
    rw [← h₆.table, ← h₇.table] at hfresh
    rw [← h₁.table, ← h₂.table, ← h₃.table, ← h₄.table, ← h₅.table, ← h₆.table, ← h₇.table]
      at htype
    exact .field size l htype hfresh hty hsize

theorem built_programItem : Built p (programItem p).2 := by
  refine built_quiet_bind .peek fun token p₁ _ _ => ?_
  refine built_quiet_bind (.view _) fun _ p₂ _ _ => ?_
  split
  · exact built_declaration
  · split
    · exact .ran (ran_statement none _)
    · refine .ran (ran_quiet_bind (.view _) fun _ p₃ _ _ => ?_)
      split
      · refine ran_quiet_bind (.view _) fun l p₄ _ _ => ?_
        exact .quiet ((Pass.Writes.report _ (s := .note) nofun _ _).trans (.advance _))
      · exact ran_of_quiet (Q := fun _ => True) (.fail _)

theorem built_programItems (p : Pass) : Built p (programItems p).2 := by
  refine recurse_induction (C := fun _ p out => Built p out.2) ?_ ?_ () p
  · exact fun _ p => .ran (ran_of_quiet (Q := fun _ => True) (.failHere _))
  · intro more ih _ p
    refine built_quiet_bind .peek fun token p₁ _ _ => ?_
    split
    · exact .ran (.quiet (.refl _))
    · exact built_programItem.trans (ih () _)

/-- The items of a program are read to the end of the text, or else an error is reported. -/
theorem programItems_ends (p : Pass) :
    (programItems p).2.input.lexemes = [] ∨ 0 < (programItems p).2.diagnostics.errorCount := by
  refine recurse_induction
    (C := fun _ _ out => out.2.input.lexemes = [] ∨ 0 < out.2.diagnostics.errorCount) ?_ ?_ () p
  · intro _ p
    have hstuck : Writing p.table (fun _ => False) (failHere .noProgress : Action Unit)
      (fun _ => True) := .failHere _
    exact .inr ((hstuck p rfl).abandoned _ rfl)
  · intro more ih _ p
    rw [programRound, bind_ok (peek_apply p)]
    cases h : p.input.current? with
    | none =>
        have hend : p.input.lexemes = [] := by simpa [Tokens.current?] using h
        exact .inl hend
    | some token => exact ih () _

end Action

namespace Pass

/-- The beginning of a compilation. -/
def initial (source : String) (config : Config) (host : Host.Registry) : Pass :=
  let p := start (.start config host) source
  { p with table := p.table.predeclareAll }

variable (source : String) (config : Config) (host : Host.Registry)

@[simp] theorem code_initial : (initial source config host).code = .empty config.entryMethod := by
  simp only [initial, start, code_meet]
  rfl

@[simp] theorem diagnostics_initial :
    (initial source config host).diagnostics = { maxErrors := config.maxErrors } := by
  simp only [initial, start, diagnostics_meet]
  rfl

@[simp] theorem trail_initial : (initial source config host).trail = {} := by
  simp only [initial, start, Session.trail]
  rw [← Session.trail, trail_meet]
  rfl

/-- The end of a compilation. -/
def final : Pass :=
  (Action.programItems (initial source config host)).2

theorem run_eq : run source config host =
    let q := final source config host
    (q.succeeded, (q.toSession.record (.programRead q.table)).record
      (.passFinished q.succeeded q.diagnostics.errorCount (q.diagnostics.count .warning))) := rfl

/-- A compilation runs by the rules to the end of its text, or reports an error. -/
theorem built_run :
    Built (initial source config host) (final source config host) ∧
      ((final source config host).input.lexemes = [] ∨
        0 < (final source config host).diagnostics.errorCount) :=
  ⟨Action.built_programItems _, Action.programItems_ends _⟩

theorem diagnostics_run :
    (run source config host).2.diagnostics = (final source config host).diagnostics := by
  rw [run_eq]
  generalize final source config host = q
  rfl

theorem code_run : (run source config host).2.code = (final source config host).code := by
  rw [run_eq]
  generalize final source config host = q
  rfl

theorem trail_run : (run source config host).2.trail = (final source config host).trail := by
  rw [run_eq]
  exact (Session.trail_record _ _).trans (Session.trail_record _ _)

end Pass
end OnePass
