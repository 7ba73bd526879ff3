import OnePass.Proofs.Growth
import OnePass.Proofs.Progress

/-!
Where the jumps of a statement go. A statement marks each label that it makes once, in its own
code, and branches to no labels but these and those of the loop around it. A loop branches to
labels of its own only: its first one means its beginning and its second one its end. The
statements inside of it repeat it by a branch to the first one and leave it by a branch to the
second one.
-/

namespace OnePass
namespace Code

/-- The labels that `d` has more than `c` are marked once, in code that `d` has more than `c`; the
other labels are as they were. Branches in that code go to labels that were added or to `outer`
ones. -/
structure Confines (outer : Label → Prop) (c d : Code) : Prop where
  added : ∀ index s, c.labels.size ≤ index → d.labels[index]? = some s →
    s.marks = 1 ∧
      ∃ pc, s.target = some pc ∧ c.current.code.size ≤ pc ∧ pc ≤ d.current.code.size
  older : ∀ index < c.labels.size, d.labels[index]? = c.labels[index]?
  branches : ∀ pc i l, c.current.code.size ≤ pc → d.current.code[pc]? = some i →
    i.branchTarget? = some l → c.Adds d l ∨ outer l

variable {c d : Code} {outer : Label → Prop}

theorem Grows.confines (h : c.Grows outer d) : c.Confines outer d := by
  obtain ⟨g, rfl, hg⟩ := h
  constructor
  · intro index s hindex hs
    rw [labels_grow, Array.getElem?_append_right hindex, List.getElem?_toArray] at hs
    exact hg.labels s (List.mem_of_getElem? hs)
  · intro index hindex
    rw [labels_grow, Array.getElem?_append_left hindex]
  · intro pc i l hpc hi hl
    rw [current_grow, Array.getElem?_append_right hpc, List.getElem?_toArray] at hi
    exact hg.branches i (List.mem_of_getElem? hi) l hl

/-- The last instruction that `d` has more than `c` is a branch to the first label that it adds. -/
def Repeats (c d : Code) : Prop :=
  c.current.code.size < d.current.code.size ∧ d.current.code.back? = some (.branch c.nextLabel)

end Code

namespace Pass

variable {p q : Pass} {outer : Label → Prop}

/-- The labels for the jumps of the statements inside: those that a loop makes at its beginning, the
first one to repeat it and the second one to leave it, and else those of the loop around. -/
def innerLabels (p : Pass) (loop : Option LoopLabels) : Option LoopLabels :=
  if p.input.current? = some (.keyword .whileWord) ∨
      p.input.current? = some (.keyword .loopWord) then
    some { exit := ⟨p.code.labels.size + 1⟩, again := ⟨p.code.labels.size⟩ }
  else loop

theorem repeats_endLoop (h : p.beginLoop.code.Grows outer q.code) :
    p.code.Repeats (q.endLoop p.loopLabels).code := by
  have hcode : (q.endLoop p.loopLabels).code.current.code =
      q.code.current.code.push (.branch p.code.nextLabel) :=
    congrArg Method.code (Code.current_updateCurrent _ _)
  have hsize : p.code.current.code.size ≤ q.code.current.code.size := h.within.code
  rw [Code.Repeats, hcode, Array.size_push, Array.back?_push]
  exact ⟨Nat.lt_succ_of_le hsize, rfl⟩

end Pass

namespace Action

open Pass

variable {loop : Option LoopLabels} {p : Pass}

theorem statement_while (h : p.input.current? = some (.keyword .whileWord)) :
    statement loop p = whileStatement statement p := by
  rw [unguarded.statement, statementBody, bind_ok (peek_apply p), h]

theorem statement_loop (h : p.input.current? = some (.keyword .loopWord)) :
    statement loop p = loopStatement statement p := by
  rw [unguarded.statement, statementBody, bind_ok (peek_apply p), h]

/-! Jumps of the statements inside -/

/-- A jump inside of a loop is one branch, whether or not a semicolon follows it. -/
theorem code_jump (word : Keyword) (label : Label) (p : Pass) :
    (jump word (some label) p).2.code = p.code.emit (.branch label) := by
  have hconsume : Writing (p.advance.perform (.emit (.branch label))).table (fun _ => False)
    (consume .semicolon) := .consume _
  have hwrites : (p.advance.perform (.emit (.branch label))).Writes []
      (jump word (some label) p).2 := hconsume.writes_nothing rfl
  rw [hwrites.code, code_perform, code_advance]
  rfl

theorem code_break {labels : LoopLabels} (h : p.input.current? = some (.keyword .breakWord)) :
    (statement (some labels) p).2.code = p.code.emit (.branch labels.exit) := by
  rw [unguarded.statement, statementBody, bind_ok (peek_apply p), h]
  exact code_jump .breakWord labels.exit p

theorem code_continue {labels : LoopLabels} (h : p.input.current? = some (.keyword .continueWord)) :
    (statement (some labels) p).2.code = p.code.emit (.branch labels.again) := by
  rw [unguarded.statement, statementBody, bind_ok (peek_apply p), h]
  exact code_jump .continueWord labels.again p

theorem loopLabels_advance (p : Pass) :
    p.advance.loopLabels = ⟨⟨p.code.labels.size + 1⟩, ⟨p.code.labels.size⟩⟩ := by
  simp [loopLabels, Code.perform, Code.newLabel, Code.nextLabel]

theorem whileStatement_inside (nested : Option LoopLabels → Action Unit) (p : Pass) :
    whileStatement nested p = whileStatement (fun _ => nested (some p.advance.loopLabels)) p :=
  rfl

theorem loopStatement_inside (nested : Option LoopLabels → Action Unit) (p : Pass) :
    loopStatement nested p = loopStatement (fun _ => nested (some p.advance.loopLabels)) p :=
  rfl

/-- The statements inside of a loop jump by its own labels, those inside of another statement by the
labels of the loop around both. -/
theorem statement_inside (loop : Option LoopLabels) (p : Pass) :
    statement loop p = statementBody (fun _ => statement (p.innerLabels loop)) loop p := by
  rw [unguarded.statement, statementBody, statementBody, bind_ok (peek_apply p),
    bind_ok (peek_apply p)]
  by_cases hwhile : p.input.current? = some (.keyword .whileWord)
  · rw [innerLabels, if_pos (.inl hwhile), ← loopLabels_advance, hwhile]
    exact whileStatement_inside statement p
  by_cases hloop : p.input.current? = some (.keyword .loopWord)
  · rw [innerLabels, if_pos (.inr hloop), ← loopLabels_advance, hloop]
    exact loopStatement_inside statement p
  · rw [innerLabels, if_neg (not_or.mpr ⟨hwhile, hloop⟩)]
    refine congrFun ?_ p
    split
    · rfl
    · rfl
    · rename_i hword
      split
      · rfl
      · exact absurd hword hwhile
      · exact absurd hword hloop
      all_goals rfl
    · rfl

theorem loops_while (p : Pass) : p.code.Loops (whileStatement statement p).2.code := by
  rw [← code_advance p]
  obtain ⟨e, q, h, hrun⟩ | ⟨u, q, h, hrun⟩ := whileStatement_cases statement p
  · rw [hrun]
    exact loops_whileAbandoned (abandons_of_error writing_condition h)
  · rw [hrun]
    exact loops_endLoop (grows_whileTest (tested_of_ok h) (ran_statement _ _).grows)

theorem loops_loop (p : Pass) : p.code.Loops (loopStatement statement p).2.code := by
  rw [← code_advance p, (loopStatement_writes statement p).code]
  exact loops_endLoop (ran_statement _ _).grows

theorem repeats_while (h : (condition p.advance.beginLoop).1 = .ok ()) :
    p.code.Repeats (whileStatement statement p).2.code := by
  obtain ⟨e, q, hq, -⟩ | ⟨u, q, hq, hrun⟩ := whileStatement_cases statement p
  · simp [hq] at h
  · rw [hrun, ← code_advance p]
    exact repeats_endLoop (grows_whileTest (tested_of_ok hq) (ran_statement _ _).grows)

theorem repeats_loop (p : Pass) : p.code.Repeats (loopStatement statement p).2.code := by
  rw [(loopStatement_writes statement p).code, ← code_advance p]
  exact repeats_endLoop (ran_statement _ _).grows

end Action

/-- The jumps of a statement, whatever is wrong inside of it, go to labels that the statement makes
and marks itself, or to those of the loop around it: a break is one branch to its exit and a
continue one branch to its beginning. The statements inside of a loop have the labels of that loop
in place of the outer ones, and no branch in it goes to the outer ones. Its first label means its
beginning, its second one its end, and behind a condition that was accepted the last instruction
repeats it. -/
theorem statement_confines_jumps (loop : Option LoopLabels) (p : Pass) :
    let c := p.code
    let d := (Action.statement loop p).2.code
    c.Confines (Pass.Targets loop) d ∧
    (∀ labels, loop = some labels →
      (p.input.current? = some (.keyword .breakWord) → d = c.emit (.branch labels.exit)) ∧
      (p.input.current? = some (.keyword .continueWord) → d = c.emit (.branch labels.again))) ∧
    Action.statement loop p =
      Action.statementBody (fun _ => Action.statement (p.innerLabels loop)) loop p ∧
    (p.input.current? = some (.keyword .whileWord) ∨
        p.input.current? = some (.keyword .loopWord) →
      p.innerLabels loop =
        some { exit := ⟨c.labels.size + 1⟩, again := ⟨c.labels.size⟩ } ∧
      c.Confines (fun _ => False) d ∧
      d.labels[c.labels.size]?.bind LabelState.target = some c.current.code.size ∧
      d.labels[c.labels.size + 1]?.bind LabelState.target = some d.current.code.size ∧
      (p.input.current? = some (.keyword .loopWord) ∨
          (Action.condition p.advance.beginLoop).1 = .ok () →
        c.Repeats d)) := by
  refine ⟨(Action.ran_statement loop p).grows.confines, ?_, Action.statement_inside loop p, ?_⟩
  · rintro labels rfl
    exact ⟨Action.code_break, Action.code_continue⟩
  intro hword
  refine ⟨if_pos hword, ?_⟩
  rcases hword with hword | hword
  · rw [Action.statement_while hword]
    have hloops := Action.loops_while p
    refine ⟨hloops.grows.confines, hloops.again, hloops.exit, ?_⟩
    rintro (hword' | hcondition)
    · simp [hword] at hword'
    · exact Action.repeats_while hcondition
  · rw [Action.statement_loop hword]
    have hloops := Action.loops_loop p
    exact ⟨hloops.grows.confines, hloops.again, hloops.exit, fun _ => Action.repeats_loop p⟩

end OnePass
