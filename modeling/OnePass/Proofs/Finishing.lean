import OnePass.Proofs.Methods

/-!
The code of every compilation can be finished, also after errors: labels, branches and
scopes are kept in order by each rule of the derivation.
-/

namespace OnePass
namespace Code

/-- Code in order while it is being written. Labels that are `pending` are still to be marked
in the open method, those that are `owned` may be branched to from it, and `depth` of its
scopes are open. -/
structure Tidy (pending owned : Label → Prop) (depth : Nat) (c : Code) : Prop where
  pending_owned : ∀ l, pending l → owned l
  owned : ∀ l, owned l → c.belongsTo l c.currentIndex
  labels : ∀ index s, c.labels[index]? = some s →
    ∃ m, c.methods[s.method]? = some m ∧
      (pending ⟨index⟩ ∧ s.marks = 0 ∧ s.target = none ∨
        ¬ pending ⟨index⟩ ∧ s.marks = 1 ∧ ∃ pc, s.target = some pc ∧ pc ≤ m.code.size)
  branches : ∀ index m, c.methods[index]? = some m →
    ∀ l ∈ m.branchTargets, c.belongsTo l index
  scopes : ∀ index m, c.methods[index]? = some m →
    m.underflow = false ∧ m.depth = if index = c.currentIndex then depth else 0

theorem tidy_empty (entryName : String) :
    (empty entryName).Tidy (fun _ => False) (fun _ => False) 0 := by
  refine ⟨fun _ => id, fun _ => False.elim, by simp [empty], ?_, ?_⟩
  · intro index m hm l hl
    rw [eq_of_getElem_empty hm] at hl
    cases hl
  · intro index m hm
    rw [eq_of_getElem_empty hm]
    simp

namespace Tidy

variable {c : Code} {pending pending' owned owned' : Label → Prop} {depth depth' : Nat}

/-- A change of the open method that keeps its code and branches to owned labels only. -/
theorem update {f : Method → Method} (h : c.Tidy pending owned depth)
    (hsize : c.current.code.size ≤ (f c.current).code.size)
    (hbranches : ∀ l ∈ (f c.current).branchTargets, l ∈ c.current.branchTargets ∨ owned l)
    (hscopes : (f c.current).underflow = false ∧ (f c.current).depth = depth') :
    (c.updateCurrent f).Tidy pending owned depth' := by
  refine ⟨h.pending_owned, by simpa [belongsTo] using h.owned, ?_, ?_, ?_⟩
  · intro index s hs
    obtain ⟨m, hm, hstate⟩ := h.labels index s (by simpa using hs)
    obtain ⟨-, rfl, hm'⟩ | ⟨-, hm'⟩ := c.updateCurrent_getElem (f := f) hm
    · refine ⟨f c.current, hm', hstate.imp_right ?_⟩
      rintro ⟨hp, hmarks, pc, htarget, hpc⟩
      exact ⟨hp, hmarks, pc, htarget, Nat.le_trans hpc hsize⟩
    · exact ⟨m, hm', hstate⟩
  · intro index m hm l hl
    simp only [belongsTo, labels_updateCurrent]
    obtain ⟨rfl, rfl⟩ | ⟨-, hm⟩ := c.getElem_updateCurrent hm
    · rcases hbranches l hl with hl | hl
      · exact h.branches _ _ c.getElem_currentIndex l hl
      · exact h.owned l hl
    · exact h.branches index m hm l hl
  · intro index m hm
    rw [currentIndex_updateCurrent]
    obtain ⟨rfl, rfl⟩ | ⟨hne, hm⟩ := c.getElem_updateCurrent hm
    · simpa using hscopes
    · have hscope := h.scopes index m hm
      rw [if_neg hne] at hscope ⊢
      exact hscope

theorem current_scopes (h : c.Tidy pending owned depth) :
    c.current.underflow = false ∧ c.current.depth = depth := by
  simpa using h.scopes _ _ c.getElem_currentIndex

theorem emitAll {is : List Instr} (h : c.Tidy pending owned depth)
    (hbranches : ∀ i ∈ is, ∀ l, i.branchTarget? = some l → owned l) :
    (c.emitAll is).Tidy pending owned depth := by
  rw [emitAll_eq]
  refine h.update (by simp) ?_ h.current_scopes
  intro l hl
  simp only [Method.branchTargets, Array.toList_append, List.filterMap_append,
    List.mem_append] at hl
  refine hl.imp_right fun hl => ?_
  obtain ⟨i, hi, hl⟩ := List.mem_filterMap.mp hl
  exact hbranches i hi l hl

theorem emit {i : Instr} (h : c.Tidy pending owned depth)
    (hbranch : ∀ l, i.branchTarget? = some l → owned l) :
    (c.emit i).Tidy pending owned depth :=
  h.emitAll (List.forall_mem_singleton.mpr hbranch)

theorem openScope (h : c.Tidy pending owned depth) : c.openScope.Tidy pending owned (depth + 1) :=
  h.update (Nat.le_refl _) (fun _ => .inl)
    ⟨h.current_scopes.1, congrArg (· + 1) h.current_scopes.2⟩

theorem closeScope (h : c.Tidy pending owned (depth + 1)) :
    c.closeScope.Tidy pending owned depth := by
  obtain ⟨hunderflow, hdepth⟩ := h.current_scopes
  have hclose : c.current.closeScope = { c.current with depth := depth } := by
    simp [Method.closeScope, hdepth]
  refine h.update ?_ ?_ ?_
  · simp [hclose]
  · rw [hclose]
    exact fun _ => .inl
  · rw [hclose]
    exact ⟨hunderflow, rfl⟩

theorem addLocal (h : c.Tidy pending owned depth) (name : String) (ty : Ty) :
    (c.addLocal name ty).Tidy pending owned depth :=
  h.update (Nat.le_refl _) (fun _ => .inl) h.current_scopes

theorem addParam (h : c.Tidy pending owned depth) (name : String) (ordinal : Nat) (ty : Ty) :
    (c.addParam name ordinal ty).Tidy pending owned depth :=
  h.update (Nat.le_refl _) (fun _ => .inl) h.current_scopes

theorem addField (h : c.Tidy pending owned depth) (name : String) (ty : Ty) (size : Option Nat) :
    (c.addField name ty size).Tidy pending owned depth :=
  ⟨h.pending_owned, h.owned, h.labels, h.branches, h.scopes⟩

theorem lt_of_owned (h : c.Tidy pending owned depth) {l : Label} (hl : owned l) :
    l.index < c.labels.size := by
  refine Nat.lt_of_not_le fun hge => ?_
  have := h.owned l hl
  simp [belongsTo, Array.getElem?_eq_none hge] at this

theorem newLabel (h : c.Tidy pending owned depth) :
    c.newLabel.Tidy (fun l => pending l ∨ l = c.nextLabel) (fun l => owned l ∨ l = c.nextLabel)
      depth := by
  constructor
  · exact fun l => Or.imp_left (h.pending_owned l)
  · rintro l (hl | rfl)
    · exact belongsTo_newLabel (h.owned l hl)
    · exact c.belongsTo_nextLabel
  · intro index s hs
    simp only [Code.newLabel, Array.getElem?_push] at hs
    split at hs
    · rename_i hi
      cases hs
      exact ⟨_, c.getElem_currentIndex, .inl ⟨.inr (by rw [hi]; rfl), rfl, rfl⟩⟩
    · rename_i hi
      obtain ⟨m, hm, hstate⟩ := h.labels index s hs
      have hne : (⟨index⟩ : Label) ≠ c.nextLabel := fun e => hi (congrArg Label.index e)
      exact ⟨m, hm, by simpa [hne] using hstate⟩
  · exact fun index m hm l hl => belongsTo_newLabel (h.branches index m hm l hl)
  · exact h.scopes

/-- A pending label is marked in its own method. -/
theorem markLabel {l : Label} (h : c.Tidy pending owned depth) (hl : pending l) :
    (c.markLabel l).Tidy (fun l' => pending l' ∧ l' ≠ l) owned depth := by
  constructor
  · exact fun l' hl' => h.pending_owned l' hl'.1
  · intro l' hl'
    rw [belongsTo_markLabel]
    exact h.owned l' hl'
  · intro index s hs
    simp only [Code.markLabel, Array.getElem?_modify] at hs
    split at hs
    · rename_i hi
      obtain ⟨old, hold, rfl⟩ := Option.map_eq_some_iff.mp hs
      obtain ⟨m, hm, hstate⟩ := h.labels index old hold
      have howned := h.owned l (h.pending_owned l hl)
      obtain rfl : l = ⟨index⟩ := congrArg Label.mk hi
      simp only [belongsTo, hold, Option.any_some, beq_iff_eq] at howned
      rw [howned, c.getElem_currentIndex] at hm
      obtain rfl := Option.some.inj hm
      obtain ⟨-, hmarks, htarget⟩ | ⟨hnot, -⟩ := hstate
      · refine ⟨c.current, by simp only [howned]; exact c.getElem_currentIndex, .inr ⟨by simp, ?_⟩⟩
        exact ⟨by simp [hmarks], c.current.code.size, by simp [htarget], Nat.le_refl _⟩
      · exact absurd hl hnot
    · rename_i hi
      obtain ⟨m, hm, hstate⟩ := h.labels index s hs
      have hne : (⟨index⟩ : Label) ≠ l := fun e => hi (congrArg Label.index e.symm)
      exact ⟨m, hm, by simpa [hne] using hstate⟩
  · intro index m hm l' hl'
    rw [belongsTo_markLabel]
    exact h.branches index m hm l' hl'
  · exact h.scopes

theorem mono (h : c.Tidy pending owned depth) (hpending : ∀ l, pending l ↔ pending' l)
    (howned : ∀ l, owned' l → owned l) (hsub : ∀ l, pending' l → owned' l) :
    c.Tidy pending' owned' depth := by
  refine ⟨hsub, fun l hl => h.owned l (howned l hl), ?_, h.branches, h.scopes⟩
  intro index s hs
  simpa only [hpending] using h.labels index s hs

theorem not_pending_nextLabel (h : c.Tidy pending owned depth) : ¬ pending c.nextLabel :=
  fun hl => Nat.lt_irrefl _ (h.lt_of_owned (h.pending_owned _ hl))

/-- The last label that was made is marked, and forgotten. -/
theorem markLast {l : Label} (h : c.Tidy (fun l' => pending l' ∨ l' = l) owned depth)
    (hl : ¬ pending l) (howned : ∀ l, owned' l → owned l) (hsub : ∀ l, pending l → owned' l) :
    (c.markLabel l).Tidy pending owned' depth := by
  refine (h.markLabel (.inr rfl)).mono ?_ howned hsub
  intro l'
  constructor
  · rintro ⟨hl' | rfl, hne⟩
    · exact hl'
    · exact absurd rfl hne
  · intro hl'
    refine ⟨.inl hl', ?_⟩
    rintro rfl
    exact hl hl'

/-- A method that is opened has no labels yet. -/
theorem addMethod (h : c.Tidy pending owned 0) (hnone : ∀ l, ¬ pending l)
    (name : String) (returnType : Ty) :
    (c.addMethod name returnType).Tidy (fun _ => False) (fun _ => False) 0 := by
  have hmethods := c.methods_addMethod name returnType
  constructor
  · exact fun _ => False.elim
  · exact fun _ => False.elim
  · intro index s hs
    obtain ⟨m, hm, hstate⟩ := h.labels index s hs
    exact ⟨m, getElem_push hmethods hm, by simpa [hnone] using hstate⟩
  · intro index m hm l hl
    obtain hm | rfl := getElem_of_push hmethods hm
    · exact h.branches index m hm l hl
    · cases hl
  · intro index m hm
    obtain hm | rfl := getElem_of_push hmethods hm
    · simpa using h.scopes index m hm
    · simp

theorem closeMethod (h : c.Tidy (fun _ => False) (fun _ => False) 0) :
    c.closeMethod.Tidy (fun _ => False) (fun _ => False) 0 := by
  refine ⟨fun _ => id, fun _ => False.elim, ?_, ?_, ?_⟩
  · rw [methods_closeMethod]
    exact h.labels
  · rw [methods_closeMethod]
    exact h.branches
  · rw [methods_closeMethod]
    simpa using h.scopes

end Tidy
end Code

theorem Table.Allows.branchTarget {t : Table} {i : Instr} (h : t.Allows i) :
    i.branchTarget? = none := by
  cases i <;> first | rfl | exact h.elim

namespace Pass

open Code (Tidy)

variable {p q : Pass} {pending owned : Label → Prop} {depth : Nat} {part : Part}
  {loop : Option LoopLabels}

theorem tidy_beginLoop (h : p.code.Tidy pending owned depth) :
    p.beginLoop.code.Tidy (fun l => pending l ∨ l = p.loopLabels.exit)
      (fun l => owned l ∨ l = p.loopLabels.exit ∨ l = p.loopLabels.again) depth := by
  have hlt (l : Label) (hl : pending l) : l ≠ p.loopLabels.again := by
    rintro rfl
    exact Nat.lt_irrefl _ (h.lt_of_owned (h.pending_owned _ hl))
  have hne : p.loopLabels.exit ≠ p.loopLabels.again := by
    simp [loopLabels, Code.perform, Code.nextLabel, Code.newLabel]
  have hmark := h.newLabel.newLabel.markLabel (l := p.loopLabels.again) (.inl (.inr rfl))
  refine hmark.mono ?_ ?_ ?_
  · intro l
    constructor
    · rintro ⟨(hl | hl) | hl, hagain⟩
      · exact .inl hl
      · exact absurd hl hagain
      · exact .inr hl
    · rintro (hl | rfl)
      · exact ⟨.inl (.inl hl), hlt l hl⟩
      · exact ⟨.inr rfl, hne⟩
  · rintro l (hl | hl | hl)
    · exact .inl (.inl hl)
    · exact .inr hl
    · exact .inl (.inr hl)
  · exact fun l => Or.imp (h.pending_owned l) .inl

theorem not_pending_exit (h : p.code.Tidy pending owned depth) : ¬ pending p.loopLabels.exit := by
  intro hl
  have := h.lt_of_owned (h.pending_owned _ hl)
  simp only [loopLabels, code_perform, Code.perform, Code.nextLabel, Code.newLabel,
    Array.size_push] at this
  omega

theorem tidy_endLoop {labels : LoopLabels}
    (h : p.code.Tidy (fun l => pending l ∨ l = labels.exit)
      (fun l => owned l ∨ l = labels.exit ∨ l = labels.again) depth)
    (hexit : ¬ pending labels.exit) (hsub : ∀ l, pending l → owned l) :
    (p.endLoop labels).code.Tidy pending owned depth := by
  have hback := h.emit (i := .branch labels.again) (by
    rintro _ ⟨⟩
    exact .inr (.inr rfl))
  exact hback.markLast hexit (fun _ => .inl) hsub

theorem tidy_skipUnless (h : p.code.Tidy pending owned depth) :
    p.skipUnless.code.Tidy (fun l => pending l ∨ l = p.code.nextLabel)
      (fun l => owned l ∨ l = p.code.nextLabel) depth :=
  h.newLabel.emit (by
    rintro _ ⟨⟩
    exact .inr rfl)

theorem tidy_otherwise {label : Label}
    (h : p.code.Tidy (fun l => pending l ∨ l = label) owned depth) (hl : ¬ pending label) :
    (p.otherwise label).code.Tidy (fun l => pending l ∨ l = p.code.nextLabel)
      (fun l => owned l ∨ l = p.code.nextLabel) depth := by
  have hne : p.code.nextLabel ≠ label := by
    rintro rfl
    exact h.not_pending_nextLabel (.inr rfl)
  have hdone := h.newLabel.emit (i := .branch p.code.nextLabel) (by
    rintro _ ⟨⟩
    exact .inr rfl)
  refine (hdone.markLabel (.inl (.inr rfl))).mono ?_ (fun _ => id) ?_
  · intro l
    constructor
    · rintro ⟨(hl | hl) | hl, hlabel⟩
      · exact .inl hl
      · exact absurd hl hlabel
      · exact .inr hl
    · rintro (hp | rfl)
      · refine ⟨.inl (.inl hp), ?_⟩
        rintro rfl
        exact hl hp
      · exact ⟨.inr rfl, hne⟩
  · exact fun l => Or.imp_left fun hp => h.pending_owned l (.inl hp)

theorem tidy_writes {is : List Instr} (h : p.code.Tidy pending owned depth) (hw : p.Writes is q)
    (hbranch : ∀ i ∈ is, i.branchTarget? = none) : q.code.Tidy pending owned depth := by
  rw [hw.code]
  refine h.emitAll fun i hi l hl => ?_
  rw [hbranch i hi] at hl
  cases hl

theorem tidy_allowed {is : List Instr} (h : p.code.Tidy pending owned depth) (hw : p.Writes is q)
    (hallowed : ∀ i ∈ is, p.table.Allows i) : q.code.Tidy pending owned depth :=
  tidy_writes h hw fun i hi => (hallowed i hi).branchTarget

theorem tidy_tested (h : p.code.Tidy pending owned depth) (ht : p.Tested q) :
    q.code.Tidy pending owned depth := by
  obtain ⟨is, hw, hallowed⟩ := ht.writes
  exact tidy_allowed h hw hallowed

theorem tidy_abandons (h : p.code.Tidy pending owned depth) (ha : p.Abandons q) :
    q.code.Tidy pending owned depth := by
  obtain ⟨is, hw, hallowed, -⟩ := ha
  refine tidy_writes h hw fun i hi => ?_
  obtain hi | rfl := hallowed i hi
  · exact hi.branchTarget
  · rfl

/-- Statements keep the code in order, and mark all the labels that they make. -/
theorem Ran.tidy (h : Ran part loop p q) (hloop : ∀ labels, loop = some labels →
      owned labels.exit ∧ owned labels.again)
    (hp : p.code.Tidy pending owned depth) : q.code.Tidy pending owned depth := by
  induction h generalizing pending owned depth with
  | quiet h => exact tidy_writes hp h (by simp)
  | trans _ _ ih ih' => exact ih' hloop (ih hloop hp)
  | item _ ih => exact ih hloop hp
  | abandoned h => exact tidy_abandons hp h
  | discarded h =>
      obtain ⟨is, hw, hallowed⟩ := Action.expression_writes h
      have hq := tidy_allowed hp hw hallowed
      split
      · exact hq
      · exact hq.emit nofun
  | returned _ => exact hp.emit nofun
  | returnedValue _ _ h _ h' =>
      obtain ⟨is, hw, hallowed⟩ := Action.expression_writes h
      have hq := tidy_allowed hp hw hallowed
      refine (tidy_allowed hq h' ?_).emit nofun
      exact fun i hi => Action.allows_assignCast (Option.mem_toList.mp hi)
  | jumped h =>
      obtain ⟨hexit, hagain⟩ := hloop _ rfl
      refine hp.emit ?_
      rintro l ⟨⟩
      rcases h with rfl | rfl
      · exact hexit
      · exact hagain
  | declared l _ _ _ =>
      simp only [declareLocal, code_edit]
      exact hp.addLocal _ _
  | block _ ih =>
      simp only [closeBlock, code_edit]
      refine (ih hloop ?_).closeScope
      simp only [openBlock, code_perform, code_edit]
      exact hp.openScope
  | ifThen h _ ih =>
      have hq := tidy_tested hp h
      refine (ih ?_ (tidy_skipUnless hq)).markLast hq.not_pending_nextLabel (fun _ => .inl)
        hp.pending_owned
      exact fun labels hl => (hloop labels hl).imp .inl .inl
  | ifElse h _ h' _ ih ih' =>
      have hq := tidy_tested hp h
      have hthen := ih (fun labels hl => (hloop labels hl).imp .inl .inl) (tidy_skipUnless hq)
      have hs := tidy_writes hthen h' (by simp)
      have helse := ih' (fun labels hl => (hloop labels hl).imp (.inl ∘ .inl) (.inl ∘ .inl))
        (tidy_otherwise hs hq.not_pending_nextLabel)
      refine helse.markLast ?_ (fun _ => .inl ∘ .inl) hp.pending_owned
      exact fun hl => hs.not_pending_nextLabel (.inl hl)
  | whileAbandoned h =>
      have hq := tidy_abandons (tidy_beginLoop hp) h
      exact hq.markLast (not_pending_exit hp) (fun _ => .inl) hp.pending_owned
  | whileLoop h _ ih =>
      have hq := tidy_tested (tidy_beginLoop hp) h
      have htest := hq.emit (i := .branchFalse _) (by
        rintro _ ⟨⟩
        exact .inr (.inl rfl))
      refine tidy_endLoop (ih ?_ htest) (not_pending_exit hp) hp.pending_owned
      rintro _ ⟨⟩
      exact ⟨.inr (.inl rfl), .inr (.inr rfl)⟩
  | infinite _ ih =>
      refine tidy_endLoop (ih ?_ (tidy_beginLoop hp)) (not_pending_exit hp) hp.pending_owned
      rintro _ ⟨⟩
      exact ⟨.inr (.inl rfl), .inr (.inr rfl)⟩

/-- Code in order between the items of a program. -/
def AtRest (c : Code) : Prop :=
  c.Tidy (fun _ => False) (fun _ => False) 0

theorem code_bindParameter (name : String) (ordinal : Nat) (ty : Ty) (p : Pass) :
    (Action.bindParameter name ordinal ty p).code = p.code.addParam name ordinal ty := by
  unfold Action.bindParameter
  simp only
  split <;> rfl

theorem tidy_bindParameters {params : List (String × Ty)} {ordinal : Nat}
    (h : p.code.Tidy pending owned depth) :
    (Action.bindParameters params ordinal p).code.Tidy pending owned depth := by
  induction params generalizing ordinal p with
  | nil => exact h
  | cons param params ih =>
      refine ih ?_
      rw [code_bindParameter]
      exact h.addParam _ _ _

theorem code_completeMethod (depth : Nat) (name : String) (types : List Ty) (index : Nat)
    (p : Pass) : (Action.completeMethod depth name types index p).code = p.code := by
  unfold Action.completeMethod
  split <;> rfl

theorem Built.atRest (h : Built p q) (hp : AtRest p.code) : AtRest q.code := by
  induction h with
  | ran h => exact h.tidy nofun hp
  | trans _ _ ih ih' => exact ih' (ih hp)
  | field size l _ _ _ _ =>
      rw [declareField, code_edit]
      exact hp.addField _ _ _
  | signature l _ h _ =>
      rw [code_edit, h.code, beginSignature, code_edit, code_edit]
      exact hp
  | method l _ h hran =>
      rw [closeMethod, code_edit]
      refine Tidy.closeMethod (hran.tidy nofun ?_)
      rw [openMethod, code_completeMethod]
      refine tidy_bindParameters ?_
      rw [code_perform, h.code, beginSignature, code_edit, code_edit]
      exact hp.addMethod (fun _ => id) _ _

/-- Between the items of a program the entry method is open. -/
theorem Built.body_eq_none (h : Built p q) (hp : p.code.body = none) : q.code.body = none := by
  induction h with
  | ran h =>
      have hsome := h.isSome_body
      rw [hp] at hsome
      simpa using hsome
  | trans _ _ ih ih' => exact ih' (ih hp)
  | field size l _ _ _ _ =>
      rw [declareField, code_edit]
      exact hp
  | signature l _ h _ =>
      rw [code_edit, h.code, beginSignature, code_edit, code_edit]
      exact hp
  | method l _ _ _ =>
      rw [closeMethod, code_edit]
      rfl

end Pass

namespace Code

/-- Code that can be finished: the entry method is open and all scopes are closed; every label
is marked exactly once, not behind the end of its method; and every branch goes to a label of
its own method. -/
structure Finishable (c : Code) : Prop where
  body : c.body = none
  scopes : ∀ m ∈ c.methods, m.isBalanced
  labels : ∀ s ∈ c.labels, s.marks = 1 ∧
    ∃ m pc, c.methods[s.method]? = some m ∧ s.target = some pc ∧ pc ≤ m.code.size
  branches : ∀ (index : Nat) (m : Method), c.methods[index]? = some m →
    ∀ l ∈ m.branchTargets, ∃ s, c.labels[l.index]? = some s ∧ s.method = index

theorem Tidy.finishable {c : Code} (h : c.Tidy (fun _ => False) (fun _ => False) 0)
    (hb : c.body = none) : c.Finishable := by
  refine ⟨hb, ?_, ?_, ?_⟩
  · intro m hm
    obtain ⟨index, hm⟩ := Array.mem_iff_getElem?.mp hm
    simpa [Method.isBalanced, and_comm] using h.scopes index m hm
  · intro s hs
    obtain ⟨index, hs⟩ := Array.mem_iff_getElem?.mp hs
    obtain ⟨m, hm, ⟨hno, -⟩ | ⟨-, hmarks, pc, htarget, hpc⟩⟩ := h.labels index s hs
    · exact hno.elim
    · exact ⟨hmarks, m, pc, hm, htarget, hpc⟩
  · intro index m hm l hl
    simpa [belongsTo, Option.any_eq_true] using h.branches index m hm l hl

variable {c : Code}

theorem scopeFault?_eq_none_iff : c.scopeFault? = none ↔ ∀ m ∈ c.methods, m.isBalanced := by
  simp [scopeFault?]

theorem labelFault?_eq_none_iff : c.labelFault? = none ↔ ∀ s ∈ c.labels, s.marks = 1 := by
  have hmark (index : Nat) (s : LabelState) : c.markFault? index s = none ↔ s.marks = 1 := by
    unfold markFault?
    split <;> simp_all
  rw [labelFault?, List.findSome?_eq_none_iff]
  simp only [hmark]
  constructor
  · intro h s hs
    obtain ⟨index, hs⟩ := Array.mem_iff_getElem?.mp hs
    exact h (s, index) (List.mk_mem_zipIdx_iff_getElem?.mpr (by simpa using hs))
  · rintro h ⟨s, index⟩ hs
    have hs : c.labels[index]? = some s := by
      simpa using List.mk_mem_zipIdx_iff_getElem?.mp hs
    exact h s (Array.mem_of_getElem? hs)

theorem branchFault?_eq_none_iff : c.branchFault? = none ↔
    ∀ (index : Nat) (m : Method), c.methods[index]? = some m →
      ∀ l ∈ m.branchTargets, c.belongsTo l index := by
  rw [branchFault?, List.findSome?_eq_none_iff]
  constructor
  · intro h index m hm
    have hmem : (m, index) ∈ c.methods.toList.zipIdx :=
      List.mk_mem_zipIdx_iff_getElem?.mpr (by simpa using hm)
    simpa using h (m, index) hmem
  · rintro h ⟨m, index⟩ hm
    have hm : c.methods[index]? = some m := by
      simpa using List.mk_mem_zipIdx_iff_getElem?.mp hm
    simpa using h index m hm

/-- Code is finished exactly if none of the checks finds a fault. -/
theorem finish_eq_ok_iff {m : Module} : c.finish = .ok m ↔
    (c.body = none ∧ (∀ x ∈ c.methods, x.isBalanced) ∧ (∀ s ∈ c.labels, s.marks = 1) ∧
      ∀ (index : Nat) (x : Method), c.methods[index]? = some x →
        ∀ l ∈ x.branchTargets, c.belongsTo l index) ∧
    m = ⟨c.fields, c.entry, c.closed, c.labels⟩ := by
  have hfault : c.fault? = none ↔ c.body = none ∧ c.scopeFault? = none ∧ c.labelFault? = none ∧
      c.branchFault? = none := by
    simp [fault?, unclosedFault?]
  rw [scopeFault?_eq_none_iff, labelFault?_eq_none_iff, branchFault?_eq_none_iff] at hfault
  rw [← hfault, finish]
  cases c.fault? with
  | some fault => simp
  | none => simp [eq_comm]

/-- A module has the methods of its code. -/
theorem methods_module (h : c.body = none) :
    (⟨c.fields, c.entry, c.closed, c.labels⟩ : Module).methods = c.methods := by
  simp [Module.methods, methods, h]

theorem Finishable.finish (h : c.Finishable) :
    c.finish = .ok ⟨c.fields, c.entry, c.closed, c.labels⟩ := by
  refine finish_eq_ok_iff.mpr ⟨⟨h.body, h.scopes, fun s hs => (h.labels s hs).1, ?_⟩, rfl⟩
  intro index m hm l hl
  obtain ⟨s, hs, hmethod⟩ := h.branches index m hm l hl
  simp [belongsTo, hs, hmethod]

end Code

/-- A compilation succeeds exactly if it counts no error: only then is its text read to the
end. -/
theorem run_fst (source : String) (config : Config) (host : Host.Registry) :
    (run source config host).1 =
      decide ((run source config host).2.diagnostics.errorCount = 0) := by
  rw [Pass.run_eq]
  show Pass.succeeded _ = decide ((Pass.final source config host).diagnostics.errorCount = 0)
  unfold Pass.succeeded Diagnostics.hasErrors
  rcases (Pass.built_run source config host).2 with h | h
  · simp [h, bne, Bool.beq_eq_decide_eq]
  · have hne := Nat.ne_of_gt h
    simp [hne]

theorem finishable_run (source : String) (config : Config) (host : Host.Registry) :
    (run source config host).2.code.Finishable := by
  have hbuilt := (Pass.built_run source config host).1
  rw [Pass.run_eq]
  refine Code.Tidy.finishable (hbuilt.atRest ?_) (hbuilt.body_eq_none ?_)
  · rw [Pass.code_initial]
    exact Code.tidy_empty _
  · rw [Pass.code_initial]
    rfl

theorem result_compileWith (host : Host.Registry) (source : String) (config : Config) :
    let s := (run source config host).2
    (compileWith host source config).result =
      if s.diagnostics.errorCount = 0 then
        .ok ⟨s.code.fields, s.code.entry, s.code.closed, s.code.labels⟩
      else .error (.rejected s.diagnostics.items) := by
  have hsuccess := run_fst source config host
  have hfinish := (finishable_run source config host).finish
  unfold compileWith
  generalize run source config host = r at hsuccess hfinish
  obtain ⟨success, s⟩ := r
  simp only at hsuccess hfinish ⊢
  by_cases hzero : s.diagnostics.errorCount = 0
  · simp [hsuccess, hzero, hfinish]
  · simp [hsuccess, hzero]

theorem result_check (source : String) (config : Config) :
    (check source config).result = (run source config Host.standard).2.diagnostics := by
  unfold check
  generalize run source config Host.standard = r
  rfl

/-- Every compilation leaves code behind that can be finished, also one with errors. It gives a
module exactly if no error was counted, and otherwise the diagnostics that were kept, which
are those of the check of the program. -/
theorem compilation_finishes (source : String) (config : Config) :
    (∀ host : Host.Registry,
      let s := (run source config host).2
      s.code.Finishable ∧ ∃ m, s.code.finish = .ok m ∧
        (compileWith host source config).result =
          if s.diagnostics.errorCount = 0 then .ok m
          else .error (.rejected s.diagnostics.items)) ∧
    ∃ m, (compile source config).result =
      if (check source config).result.errorCount = 0 then .ok m
      else .error (.rejected (check source config).result.items) := by
  constructor
  · intro host
    have hcode := finishable_run source config host
    exact ⟨hcode, _, hcode.finish, result_compileWith host source config⟩
  · rw [result_check]
    exact ⟨_, result_compileWith Host.standard source config⟩

end OnePass
