import OnePass.Proofs.Finishing

/-!
What statements add to the code. Instructions and local variables are put behind those of the open
method, labels behind all others, and nothing else changes. The labels that a statement adds are
marked once, inside of its own code, and its branches go to them or to those of the loop around it.
-/

namespace OnePass

/-- What code has more than before: instructions and local variables of the open method, and
labels. -/
structure Growth where
  code : List Instr := []
  locals : List Local := []
  labels : List LabelState := []
deriving DecidableEq, Repr

namespace Growth

def append (g h : Growth) : Growth :=
  ⟨g.code ++ h.code, g.locals ++ h.locals, g.labels ++ h.labels⟩

instance : Append Growth := ⟨append⟩

variable (g h : Growth)

@[simp] theorem code_append : (g ++ h).code = g.code ++ h.code := rfl

@[simp] theorem locals_append : (g ++ h).locals = g.locals ++ h.locals := rfl

@[simp] theorem labels_append : (g ++ h).labels = g.labels ++ h.labels := rfl

theorem append_assoc (k : Growth) : g ++ h ++ k = g ++ (h ++ k) := by
  show append (append g h) k = append g (append h k)
  simp [append]

end Growth

namespace Code

variable (c : Code) (g h : Growth)

def grow : Code :=
  { c.updateCurrent fun m =>
      { m with code := m.code ++ g.code.toArray, locals := m.locals ++ g.locals.toArray } with
    labels := c.labels ++ g.labels.toArray }

@[simp] theorem current_grow : (c.grow g).current =
    { c.current with
      code := c.current.code ++ g.code.toArray, locals := c.current.locals ++ g.locals.toArray } :=
  current_updateCurrent _ _

@[simp] theorem currentIndex_grow : (c.grow g).currentIndex = c.currentIndex :=
  currentIndex_updateCurrent _ _

@[simp] theorem labels_grow : (c.grow g).labels = c.labels ++ g.labels.toArray := rfl

@[simp] theorem fields_grow : (c.grow g).fields = c.fields :=
  fields_updateCurrent _ _

theorem methods_grow : (c.grow g).methods = c.methods.modify c.currentIndex fun m =>
    { m with code := m.code ++ g.code.toArray, locals := m.locals ++ g.locals.toArray } :=
  methods_updateCurrent _ _

theorem grow_append : c.grow (g ++ h) = (c.grow g).grow h := by
  obtain ⟨fields, entry, closed, body, labels⟩ := c
  cases body <;> simp [grow, updateCurrent]

theorem grow_nil : c.grow {} = c := by
  obtain ⟨fields, entry, closed, body, labels⟩ := c
  cases body <;> simp [grow, updateCurrent]

/-! The requests that statements make -/

theorem emitAll_eq_grow (is : List Instr) : c.emitAll is = c.grow { code := is } := by
  rw [emitAll_eq, grow]
  obtain ⟨fields, entry, closed, body, labels⟩ := c
  cases body <;> simp [updateCurrent]

theorem emit_eq_grow (i : Instr) : c.emit i = c.grow { code := [i] } :=
  c.emitAll_eq_grow [i]

theorem addLocal_eq_grow (name : String) (ty : Ty) :
    c.addLocal name ty = c.grow { locals := [⟨name, ty, c.current.depth⟩] } := by
  obtain ⟨fields, entry, closed, body, labels⟩ := c
  cases body <;> simp [addLocal, grow, updateCurrent, Method.addLocal, current]

theorem newLabel_eq_grow : c.newLabel = c.grow { labels := [{ method := c.currentIndex }] } := by
  obtain ⟨fields, entry, closed, body, labels⟩ := c
  cases body <;> simp [newLabel, grow, updateCurrent]

/-- A scope that is opened is closed again. -/
theorem closeScope_grow : (c.openScope.grow g).closeScope = c.grow g := by
  obtain ⟨fields, entry, closed, body, labels⟩ := c
  cases body <;>
    simp [openScope, closeScope, grow, updateCurrent, Method.openScope, Method.closeScope]

theorem modify_append_cons (xs : Array LabelState) (s : LabelState) (ss : List LabelState)
    (f : LabelState → LabelState) :
    (xs ++ (s :: ss).toArray).modify xs.size f = xs ++ (f s :: ss).toArray := by
  apply Array.ext'
  simpa [List.modify] using List.modifyTailIdx_add (List.modifyHead f) 0 xs.toList (s :: ss)

/-- A label that has been marked once, in front of the instruction at `pc`. -/
def marked (pc : Nat) : Growth :=
  { labels := [⟨c.currentIndex, some pc, 1⟩] }

/-- A label that is made in front of a growth and marked behind it. -/
theorem markLabel_grow : (c.newLabel.grow g).markLabel c.nextLabel =
    c.grow (c.marked (c.current.code.size + g.code.length) ++ g) := by
  obtain ⟨fields, entry, closed, body, labels⟩ := c
  cases body <;>
    simp [markLabel, newLabel, nextLabel, grow, updateCurrent, current, currentIndex, marked,
      modify_append_cons]

/-- The same with more code between the growth and the mark. -/
theorem markLabel_grow_grow (k : Growth) : ((c.newLabel.grow g).grow k).markLabel c.nextLabel =
    (c.grow (c.marked (c.current.code.size + (g.code.length + k.code.length)) ++ g)).grow k := by
  rw [← grow_append, markLabel_grow, ← grow_append, Growth.append_assoc, Growth.code_append,
    List.length_append]

/-- A further label and a branch stand between the growth and the mark. -/
theorem markLabel_newLabel_emit (i : Instr) :
    ((c.newLabel.grow g).newLabel.emit i).markLabel c.nextLabel =
      (c.grow (c.marked (c.current.code.size + (g.code.length + 1)) ++ g)).newLabel.emit i := by
  have hgrow (d : Code) : d.newLabel.emit i =
      d.grow { code := [i], labels := [{ method := d.currentIndex }] } := by
    rw [newLabel_eq_grow, emit_eq_grow, ← grow_append]
    rfl
  rw [hgrow, hgrow, markLabel_grow_grow, currentIndex_grow, currentIndex_grow]
  rfl

/-- Only a further label stands between the label and its mark. -/
theorem markLabel_newLabel : c.newLabel.newLabel.markLabel c.nextLabel =
    (c.grow (c.marked c.current.code.size)).newLabel := by
  have hgrow := c.markLabel_grow_grow {} { labels := [{ method := c.currentIndex }] }
  rw [grow_nil] at hgrow
  rw [newLabel_eq_grow c.newLabel, newLabel_eq_grow (c.grow _), currentIndex_grow]
  exact hgrow

end Code

/-! Branches inside of a growth -/

namespace Code

/-- Code is not longer than other code, and has no more labels. -/
structure Within (c d : Code) : Prop where
  code : c.current.code.size ≤ d.current.code.size
  labels : c.labels.size ≤ d.labels.size

variable {c d e : Code}

theorem Within.refl (c : Code) : c.Within c :=
  ⟨Nat.le_refl _, Nat.le_refl _⟩

theorem Within.trans (h : c.Within d) (h' : d.Within e) : c.Within e :=
  ⟨Nat.le_trans h.code h'.code, Nat.le_trans h.labels h'.labels⟩

theorem within_grow (c : Code) (g : Growth) : c.Within (c.grow g) :=
  ⟨by simp, by simp⟩

theorem within_newLabel (c : Code) : c.Within c.newLabel :=
  c.newLabel_eq_grow ▸ c.within_grow _

theorem within_emit (c : Code) (i : Instr) : c.Within (c.emit i) :=
  c.emit_eq_grow i ▸ c.within_grow _

theorem within_markLabel (c : Code) (l : Label) : c.Within (c.markLabel l) :=
  ⟨Nat.le_refl _, by simp [markLabel]⟩

/-- A label among those that `d` has more than `c`. -/
def Adds (c d : Code) (l : Label) : Prop :=
  c.labels.size ≤ l.index ∧ l.index < d.labels.size

theorem adds_nextLabel (h : c.newLabel.Within d) : c.Adds d c.nextLabel := by
  have := h.labels
  simp only [newLabel, Array.size_push] at this
  exact ⟨Nat.le_refl _, this⟩

end Code

namespace Growth

/-- The labels of a growth are marked once between the ends of `c` and `d`, and its branches go to
labels that `d` adds to `c` or to `outer` ones. -/
structure Contained (c d : Code) (outer : Label → Prop) (g : Growth) : Prop where
  labels : ∀ s ∈ g.labels, s.marks = 1 ∧
    ∃ pc, s.target = some pc ∧ c.current.code.size ≤ pc ∧ pc ≤ d.current.code.size
  branches : ∀ i ∈ g.code, ∀ l, i.branchTarget? = some l → c.Adds d l ∨ outer l

variable {c c' d d' : Code} {outer outer' : Label → Prop} {g h : Growth}

theorem Contained.append (hg : g.Contained c d outer) (hh : h.Contained c d outer) :
    (g ++ h).Contained c d outer where
  labels s hs := (List.mem_append.mp hs).elim (hg.labels s) (hh.labels s)
  branches i hi := (List.mem_append.mp hi).elim (hg.branches i) (hh.branches i)

theorem Contained.mono (hg : g.Contained c d outer) (hc : c'.Within c) (hd : d.Within d')
    (houter : ∀ l, outer l → c'.Adds d' l ∨ outer' l) : g.Contained c' d' outer' where
  labels s hs := by
    obtain ⟨hmarks, pc, htarget, hstart, hstop⟩ := hg.labels s hs
    exact ⟨hmarks, pc, htarget, Nat.le_trans hc.code hstart, Nat.le_trans hstop hd.code⟩
  branches i hi l hl := by
    obtain ⟨hfirst, hlast⟩ | hl := hg.branches i hi l hl
    · exact .inl ⟨Nat.le_trans hc.labels hfirst, Nat.lt_of_lt_of_le hlast hd.labels⟩
    · exact houter l hl

theorem contained_code {is : List Instr}
    (h : ∀ i ∈ is, ∀ l, i.branchTarget? = some l → c.Adds d l ∨ outer l) :
    Contained c d outer { code := is } :=
  ⟨by simp, h⟩

theorem contained_marked {pc : Nat} (hstart : c.current.code.size ≤ pc)
    (hstop : pc ≤ d.current.code.size) : (c'.marked pc).Contained c d outer :=
  ⟨by simp [Code.marked, hstart, hstop], by simp [Code.marked]⟩

end Growth

namespace Code

/-- The code has grown from `c` to `d`, with branches to labels of its own or to `outer` ones. -/
def Grows (outer : Label → Prop) (c d : Code) : Prop :=
  ∃ g, d = c.grow g ∧ g.Contained c d outer

namespace Grows

open Growth

variable {c d e : Code} {outer : Label → Prop}

theorem within (h : c.Grows outer d) : c.Within d := by
  obtain ⟨g, rfl, -⟩ := h
  exact c.within_grow g

theorem trans (h : c.Grows outer d) (h' : d.Grows outer e) : c.Grows outer e := by
  have hcd := h.within
  have hde := h'.within
  obtain ⟨g, rfl, hg⟩ := h
  obtain ⟨k, rfl, hk⟩ := h'
  refine ⟨g ++ k, (c.grow_append g k).symm, .append ?_ ?_⟩
  · exact hg.mono (.refl c) hde fun _ => .inr
  · exact hk.mono hcd (.refl _) fun _ => .inr

theorem emitAll {is : List Instr} (h : ∀ i ∈ is, ∀ l, i.branchTarget? = some l → outer l) :
    c.Grows outer (c.emitAll is) :=
  ⟨_, c.emitAll_eq_grow is, contained_code fun i hi l hl => .inr (h i hi l hl)⟩

theorem emit {i : Instr} (h : ∀ l, i.branchTarget? = some l → outer l) :
    c.Grows outer (c.emit i) :=
  emitAll (List.forall_mem_singleton.mpr h)

theorem emit_plain {i : Instr} (h : i.branchTarget? = none) : c.Grows outer (c.emit i) :=
  emit fun l hl => absurd (h.symm.trans hl) (Option.some_ne_none l).symm

theorem addLocal (c : Code) (name : String) (ty : Ty) : c.Grows outer (c.addLocal name ty) :=
  ⟨_, c.addLocal_eq_grow name ty, by simp, by simp⟩

theorem block (h : c.openScope.Grows outer d) : c.Grows outer d.closeScope := by
  obtain ⟨g, rfl, hg⟩ := h
  rw [closeScope_grow]
  refine ⟨g, rfl, hg.mono ⟨?_, ?_⟩ ⟨?_, ?_⟩ fun _ => .inr⟩
  all_goals simp [openScope, Method.openScope]

/-- A label that is made in front of code and marked behind it. -/
theorem label {g : Growth} (hg : g.Contained c (c.newLabel.grow g) outer) :
    c.Grows outer ((c.newLabel.grow g).markLabel c.nextLabel) := by
  have hd := (c.newLabel.grow g).within_markLabel c.nextLabel
  refine ⟨_, c.markLabel_grow g, .append (contained_marked ?_ ?_) (hg.mono (.refl c) hd ?_)⟩
  · exact Nat.le_add_right _ _
  · simp [markLabel_grow]
  · exact fun _ => .inr

/-- Code behind a branch to a label that is still to be marked. -/
theorem skipping {i : Instr} (h : (c.newLabel.emit i).Grows outer d)
    (hi : i.branchTarget? = some c.nextLabel) :
    ∃ g, d = c.newLabel.grow g ∧ g.Contained c d outer := by
  obtain ⟨g, rfl, hg⟩ := h
  refine ⟨{ code := [i] } ++ g, by rw [emit_eq_grow, grow_append], .append (contained_code ?_) ?_⟩
  · refine List.forall_mem_singleton.mpr fun l hl => .inl ?_
    obtain rfl := Option.some.inj (hi.symm.trans hl)
    exact adds_nextLabel ((within_emit _ i).trans (within_grow _ g))
  · exact hg.mono (c.within_newLabel.trans (within_emit _ i)) (.refl _) fun _ => .inr

/-- A statement that may be skipped. -/
theorem guarded {i : Instr} (h : (c.newLabel.emit i).Grows outer d)
    (hi : i.branchTarget? = some c.nextLabel) : c.Grows outer (d.markLabel c.nextLabel) := by
  obtain ⟨g, rfl, hg⟩ := h.skipping hi
  exact label hg

/-- Two statements of which one is skipped. -/
theorem alternative (h : (c.newLabel.emit (.branchFalse c.nextLabel)).Grows outer d)
    (h' : ((d.newLabel.emit (.branch d.nextLabel)).markLabel c.nextLabel).Grows outer e) :
    c.Grows outer (e.markLabel d.nextLabel) := by
  obtain ⟨g, rfl, hg⟩ := h.skipping rfl
  -- The mark comes behind the branch around the second statement, so the first statement reaches
  -- one instruction into the growth of the second.
  generalize hpc : c.current.code.size + (g.code.length + 1) = pc
  generalize hd : c.grow (c.marked pc ++ g) = d'
  have hnext : (c.newLabel.grow g).nextLabel = d'.nextLabel := by
    simp [← hd, nextLabel, newLabel, marked]
  rw [markLabel_newLabel_emit, hpc, hd, hnext] at h'
  have hstop : pc = (d'.newLabel.emit (.branch d'.nextLabel)).current.code.size := by
    simp [← hpc, ← hd, emit_eq_grow, newLabel_eq_grow, marked]
  have hwithin := h'.within.trans (e.within_markLabel d'.nextLabel)
  obtain ⟨k, hk, hk'⟩ := h'.guarded rfl
  rw [hnext]
  refine ⟨c.marked pc ++ g ++ k, ?_, .append (.append (contained_marked ?_ ?_) ?_) ?_⟩
  · rw [hk, ← hd, ← grow_append]
  · omega
  · exact hstop ▸ hwithin.code
  · refine hg.mono (.refl c) (Within.trans ?_ hwithin) fun _ => .inr
    refine Within.trans (d := d') ⟨?_, ?_⟩ (d'.within_newLabel.trans (within_emit _ _))
    · simp [← hd, marked, newLabel_eq_grow]
    · simp [← hd, marked, newLabel_eq_grow]
  · exact hk'.mono (hd ▸ within_grow _ _) (.refl _) fun _ => .inr

theorem confine {outer' : Label → Prop} (h : c.Grows outer d)
    (houter : ∀ l, outer l → c.Adds d l ∨ outer' l) : c.Grows outer' d := by
  obtain ⟨g, rfl, hg⟩ := h
  exact ⟨g, rfl, hg.mono (.refl _) (.refl _) houter⟩

theorem of_closed (h : c.Grows (fun _ => False) d) : c.Grows outer d :=
  h.confine fun _ => False.elim

end Grows

/-- A loop has been written from `c` to `d`: all of its branches stay inside, its first label means
its beginning and its second one its end. -/
structure Loops (c d : Code) : Prop where
  grows : c.Grows (fun _ => False) d
  again : d.labels[c.labels.size]?.bind LabelState.target = some c.current.code.size
  exit : d.labels[c.labels.size + 1]?.bind LabelState.target = some d.current.code.size

theorem Grows.loop {c d : Code}
    (h : (c.newLabel.newLabel.markLabel c.nextLabel).Grows
      (fun l => l = c.newLabel.nextLabel ∨ l = c.nextLabel) d) :
    c.Loops (d.markLabel c.newLabel.nextLabel) := by
  rw [markLabel_newLabel] at h
  generalize hb : c.grow (c.marked c.current.code.size) = b at h
  have hexit : c.newLabel.nextLabel = b.nextLabel := by
    simp [← hb, nextLabel, newLabel, marked]
  obtain ⟨g, rfl, hg⟩ := h
  rw [hexit] at hg ⊢
  have hbegin : c.Grows (fun l => l = b.nextLabel ∨ l = c.nextLabel) b :=
    ⟨_, hb.symm, Growth.contained_marked (Nat.le_refl _) (by simp [← hb])⟩
  have hrest := Grows.label (hg.mono b.within_newLabel (.refl _) fun _ => .inr)
  have hcode : (b.newLabel.grow g).markLabel b.nextLabel =
      c.grow (c.marked c.current.code.size ++
        (c.marked (c.current.code.size + g.code.length) ++ g)) := by
    rw [markLabel_grow, c.grow_append, hb]
    simp [← hb, marked]
  rw [hcode] at hrest ⊢
  refine ⟨(hbegin.trans hrest).confine ?_, ?_, ?_⟩
  · rintro l (rfl | rfl) <;> left
    · simp [Adds, ← hb, nextLabel, marked]
    · simp [Adds, nextLabel, marked]
  · simp [marked]
  · simp [marked]

end Code

namespace Pass

open Code (Grows)

variable {p q : Pass} {is : List Instr} {outer : Label → Prop} {part : Part}
  {loop : Option LoopLabels}

theorem grows_writes (h : p.Writes is q) (hbranch : ∀ i ∈ is, i.branchTarget? = none) :
    p.code.Grows outer q.code := by
  rw [h.code]
  refine .emitAll fun i hi l hl => ?_
  rw [hbranch i hi] at hl
  cases hl

theorem grows_expression {out : Except Abandoned Ty} (h : Action.expression p = (out, q)) :
    p.code.Grows outer q.code := by
  obtain ⟨is, hwrites, hallowed⟩ := Action.expression_writes h
  exact grows_writes hwrites fun i hi => (hallowed i hi).branchTarget

theorem grows_tested (h : p.Tested q) : p.code.Grows outer q.code := by
  obtain ⟨is, hwrites, hallowed⟩ := h.writes
  exact grows_writes hwrites fun i hi => (hallowed i hi).branchTarget

theorem grows_abandons (h : p.Abandons q) : p.code.Grows outer q.code := by
  obtain ⟨is, hwrites, hallowed, -⟩ := h
  refine grows_writes hwrites fun i hi => ?_
  obtain hi | rfl := hallowed i hi
  · exact hi.branchTarget
  · rfl

/-- The labels of the loop around a statement. -/
def Targets (loop : Option LoopLabels) (l : Label) : Prop :=
  ∃ labels, loop = some labels ∧ (l = labels.exit ∨ l = labels.again)

theorem targets_some {labels : LoopLabels} {l : Label} :
    Targets (some labels) l ↔ l = labels.exit ∨ l = labels.again := by
  simp [Targets]

/-! Loops -/

theorem loops_endLoop (h : p.beginLoop.code.Grows (Targets (some p.loopLabels)) q.code) :
    p.code.Loops (q.endLoop p.loopLabels).code := by
  refine Grows.loop (h.trans (.emit ?_) |>.confine fun l hl => .inr (targets_some.mp hl))
  rintro l ⟨⟩
  exact targets_some.mpr (.inr rfl)

theorem loops_whileAbandoned (h : p.beginLoop.Abandons q) :
    p.code.Loops (q.perform (.markLabel p.loopLabels.exit)).code :=
  Grows.loop (grows_abandons h)

theorem grows_whileTest {r : Pass} (h : p.beginLoop.Tested q)
    (hr : (q.perform (.emit (.branchFalse p.loopLabels.exit))).code.Grows
      (Targets (some p.loopLabels)) r.code) :
    p.beginLoop.code.Grows (Targets (some p.loopLabels)) r.code := by
  refine (grows_tested h).trans (.trans (.emit ?_) hr)
  rintro l ⟨⟩
  exact targets_some.mpr (.inl rfl)

/-- Statements only add to the code. Their branches go to labels that they add themselves or to
those of the loop around them. -/
theorem Ran.grows (h : Ran part loop p q) : p.code.Grows (Targets loop) q.code := by
  induction h with
  | quiet h => exact grows_writes h (by simp)
  | trans _ _ ih ih' => exact ih.trans ih'
  | item _ ih => exact ih
  | abandoned h => exact grows_abandons h
  | discarded h =>
      split
      · exact grows_expression h
      · exact (grows_expression h).trans (.emit_plain rfl)
  | returned _ => exact .emit_plain rfl
  | returnedValue _ _ h _ h' =>
      refine ((grows_expression h).trans (grows_writes h' fun i hi => ?_)).trans (.emit_plain rfl)
      exact (Action.allows_assignCast (t := p.table) (Option.mem_toList.mp hi)).branchTarget
  | jumped h =>
      refine .emit ?_
      rintro l ⟨⟩
      exact targets_some.mpr h
  | declared l _ _ _ =>
      rw [declareLocal, code_edit]
      exact .addLocal _ _ _
  | block _ ih =>
      rw [openBlock, code_perform, code_edit] at ih
      rw [closeBlock, code_edit]
      exact ih.block
  | ifThen h _ ih => exact (grows_tested h).trans (ih.guarded rfl)
  | ifElse h _ h' _ ih ih' =>
      exact (grows_tested h).trans (.alternative (ih.trans (grows_writes h' (by simp))) ih')
  | whileAbandoned h => exact (loops_whileAbandoned h).grows.of_closed
  | whileLoop h _ ih => exact (loops_endLoop (grows_whileTest h ih)).grows.of_closed
  | infinite _ ih => exact (loops_endLoop ih).grows.of_closed

end Pass
end OnePass
