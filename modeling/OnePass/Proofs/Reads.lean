import OnePass.Proofs.Action
import OnePass.Proofs.Tree

/-!
What it means that the pass has read some tokens, written some code and given some
warnings, and nothing else. The journal is left open. Both directions between trees and
runs are stated with this relation.
-/

namespace OnePass

namespace Code

def emitAll (c : Code) (is : List Instr) : Code :=
  is.foldl emit c

end Code

namespace Diagnostics

def warnAll (ds : Diagnostics) (ws : List Tree.Warning) : Diagnostics :=
  ws.foldl (fun ds w => ds.report ⟨.warning, w.location, w.caution.message⟩) ds

end Diagnostics

namespace Pass

/-! What the steps of a pass leave as it is -/

@[simp] theorem table_meet (p : Pass) : p.meet.table = p.table := by
  unfold meet
  split <;> rfl

@[simp] theorem code_meet (p : Pass) : p.meet.code = p.code := by
  unfold meet
  split <;> rfl

@[simp] theorem diagnostics_meet (p : Pass) : p.meet.diagnostics = p.diagnostics := by
  unfold meet
  split <;> rfl

@[simp] theorem table_advance (p : Pass) : p.advance.table = p.table := table_meet _

@[simp] theorem code_advance (p : Pass) : p.advance.code = p.code := code_meet _

@[simp] theorem diagnostics_advance (p : Pass) : p.advance.diagnostics = p.diagnostics :=
  diagnostics_meet _

end Pass

namespace Session

theorem recordAll_eq (s : Session) (es : List Event) :
    s.recordAll es = { s with journal := s.journal ++ es.toArray } := by
  unfold recordAll
  induction es generalizing s with
  | nil => simp
  | cons e es ih => simp [ih, record]

theorem table_recordAll (s : Session) (es : List Event) : (s.recordAll es).table = s.table := by
  rw [recordAll_eq]

theorem code_recordAll (s : Session) (es : List Event) : (s.recordAll es).code = s.code := by
  rw [recordAll_eq]

theorem diagnostics_recordAll (s : Session) (es : List Event) :
    (s.recordAll es).diagnostics = s.diagnostics := by
  rw [recordAll_eq]

end Session

namespace Pass

@[simp] theorem table_perform (p : Pass) (r : Code.Request) : (p.perform r).table = p.table :=
  Session.table_recordAll _ _

@[simp] theorem code_perform (p : Pass) (r : Code.Request) :
    (p.perform r).code = p.code.perform r := rfl

@[simp] theorem diagnostics_perform (p : Pass) (r : Code.Request) :
    (p.perform r).diagnostics = p.diagnostics :=
  Session.diagnostics_recordAll _ _

@[simp] theorem input_perform (p : Pass) (r : Code.Request) : (p.perform r).input = p.input := rfl

@[simp] theorem table_edit (p : Pass) (e : Table.Edit) : (p.edit e).table = p.table.edit e := rfl

@[simp] theorem code_edit (p : Pass) (e : Table.Edit) : (p.edit e).code = p.code :=
  Session.code_recordAll _ _

@[simp] theorem diagnostics_edit (p : Pass) (e : Table.Edit) :
    (p.edit e).diagnostics = p.diagnostics :=
  Session.diagnostics_recordAll _ _

@[simp] theorem table_report (p : Pass) (s : Severity) (l : Location) (m : String) :
    (p.report s l m).table = p.table :=
  Session.table_recordAll _ _

@[simp] theorem code_report (p : Pass) (s : Severity) (l : Location) (m : String) :
    (p.report s l m).code = p.code :=
  Session.code_recordAll _ _

@[simp] theorem diagnostics_report (p : Pass) (s : Severity) (l : Location) (m : String) :
    (p.report s l m).diagnostics = p.diagnostics.report ⟨s, l, m⟩ := rfl

@[simp] theorem input_report (p : Pass) (s : Severity) (l : Location) (m : String) :
    (p.report s l m).input = p.input := rfl

/-- The pass after a name has been looked up, which only the journal tells. -/
def resolved (p : Pass) (name : String) : Pass :=
  { p with toSession := p.toSession.recordAll (Session.resolveEvents p.table name) }

@[simp] theorem input_resolved (p : Pass) (name : String) : (p.resolved name).input = p.input := rfl

@[simp] theorem table_resolved (p : Pass) (name : String) : (p.resolved name).table = p.table :=
  Session.table_recordAll _ _

@[simp] theorem code_resolved (p : Pass) (name : String) : (p.resolved name).code = p.code :=
  Session.code_recordAll _ _

@[simp] theorem diagnostics_resolved (p : Pass) (name : String) :
    (p.resolved name).diagnostics = p.diagnostics :=
  Session.diagnostics_recordAll _ _

/-- From `p` to `q` the pass has read `ls`, written `is` and warned of `ws`. -/
structure Reads (p : Pass) (ls : List Lexeme) (is : List Instr) (ws : List Tree.Warning)
    (q : Pass) : Prop where
  lexemes : p.input.lexemes = ls ++ q.input.lexemes
  finish : q.input.finish = p.input.finish
  table : q.table = p.table
  code : q.code = p.code.emitAll is
  diagnostics : q.diagnostics = p.diagnostics.warnAll ws

namespace Reads

variable {p q r : Pass} {ls ls' : List Lexeme} {is is' : List Instr}
  {ws ws' : List Tree.Warning}

theorem refl (p : Pass) : p.Reads [] [] [] p :=
  ⟨rfl, rfl, rfl, rfl, rfl⟩

theorem trans (h : p.Reads ls is ws q) (h' : q.Reads ls' is' ws' r) :
    p.Reads (ls ++ ls') (is ++ is') (ws ++ ws') r where
  lexemes := by rw [h.lexemes, h'.lexemes, List.append_assoc]
  finish := h'.finish.trans h.finish
  table := h'.table.trans h.table
  code := by rw [h'.code, h.code, Code.emitAll, Code.emitAll, Code.emitAll, List.foldl_append]
  diagnostics := by
    rw [h'.diagnostics, h.diagnostics]
    exact List.foldl_append.symm

theorem advance {t : Token} (h : p.input.current? = some t) :
    p.Reads [⟨t, p.input.here⟩] [] [] p.advance where
  lexemes := lexemes_of_current h
  finish := by rw [input_advance]; rfl
  table := table_advance p
  code := code_advance p
  diagnostics := diagnostics_advance p

theorem emit (p : Pass) (i : Instr) : p.Reads [] [i] [] (p.perform (.emit i)) :=
  ⟨rfl, rfl, table_perform p _, rfl, diagnostics_perform p _⟩

theorem warn (p : Pass) (w : Tree.Warning) :
    p.Reads [] [] [w] (p.report .warning w.location w.caution.message) :=
  ⟨rfl, rfl, table_report .., code_report .., rfl⟩

theorem resolved (p : Pass) (name : String) : p.Reads [] [] [] (p.resolved name) :=
  ⟨rfl, rfl, table_resolved p name, code_resolved p name, diagnostics_resolved p name⟩

theorem record (p : Pass) (e : Event) :
    p.Reads [] [] [] { p with toSession := p.toSession.record e } :=
  ⟨rfl, rfl, rfl, rfl, rfl⟩

/-- What follows the tokens that were read is still to be read. -/
theorem rest (h : p.Reads ls is ws q) {rest : List Lexeme} (hp : p.input.lexemes = ls ++ rest) :
    q.input.lexemes = rest :=
  List.append_cancel_left (h.lexemes.symm.trans hp)

theorem remaining (h : p.Reads ls is ws q) : p.remaining = ls.length + q.remaining := by
  simp only [Pass.remaining, Tokens.remaining, h.lexemes, List.length_append]

end Reads
end Pass
end OnePass
