import OnePass.Complaint
import OnePass.Session
import OnePass.Token.Lexer

/-!
The pass over a program. A pass is a session together with the tokens that are still to
be read. A production is an action: it changes the pass and either gives a value or is
abandoned, after its fault has been reported and the rest of the statement skipped.
-/

namespace OnePass

structure Pass extends Session where
  input : Tokens
deriving DecidableEq, Repr

/-- The sign that a production was abandoned after a report. -/
structure Abandoned where
deriving DecidableEq, Repr

namespace Abandoned

def message (_ : Abandoned) : String :=
  "recovered from a reported error"

end Abandoned

namespace Pass

def remaining (p : Pass) : Nat :=
  p.input.remaining

/-- Journals the current token. -/
def meet (p : Pass) : Pass :=
  match p.input.lexemes.head?.bind Event.ofLexeme? with
  | some e => { p with toSession := p.record e }
  | none => p

def start (s : Session) (source : String) : Pass :=
  meet { s with input := tokenize source }

def advance (p : Pass) : Pass :=
  meet { p with input := p.input.tail }

def advanceBy : Nat → Pass → Pass
  | 0, p => p
  | n + 1, p => advanceBy n p.advance

/-- The number of tokens up to and with the next semicolon, or of all if there is none. -/
def lengthThroughSemicolon : List Lexeme → Nat
  | [] => 0
  | l :: rest => if l.token = .punct .semicolon then 1 else lengthThroughSemicolon rest + 1

def resynchronise (p : Pass) : Pass :=
  p.advanceBy (lengthThroughSemicolon p.input.lexemes)

def edit (p : Pass) (e : Table.Edit) : Pass :=
  { p with toSession := p.toSession.edit e }

def perform (p : Pass) (r : Code.Request) : Pass :=
  { p with toSession := p.toSession.perform r }

def report (p : Pass) (severity : Severity) (location : Location) (message : String) : Pass :=
  { p with toSession := p.toSession.report severity location message }

theorem input_meet (p : Pass) : p.meet.input = p.input := by
  unfold meet
  split <;> rfl

theorem input_advance (p : Pass) : p.advance.input = p.input.tail :=
  input_meet _

/-- Moving on reads one token, if there is one. -/
theorem remaining_advance (p : Pass) : p.advance.remaining = p.remaining - 1 := by
  rw [remaining, input_advance]
  exact List.length_tail

theorem remaining_advanceBy (n : Nat) (p : Pass) :
    (p.advanceBy n).remaining = p.remaining - n := by
  induction n generalizing p with
  | zero => rfl
  | succ n ih =>
      rw [advanceBy, ih, remaining_advance]
      omega

end Pass

def Action (α : Type) : Type :=
  Pass → Except Abandoned α × Pass

namespace Action

variable {α : Type}

instance : Monad Action where
  pure a := fun p => (.ok a, p)
  bind m f := fun p => match m p with
    | (.ok a, q) => f a q
    | (.error e, q) => (.error e, q)

def view (f : Pass → α) : Action α :=
  fun p => (.ok (f p), p)

def update (f : Pass → Pass) : Action Unit :=
  fun p => (.ok (), f p)

/-- Runs to the end of an action, whether or not it is abandoned. -/
def attempt (m : Action α) : Action Unit :=
  fun p => (.ok (), (m p).2)

/-- Changes the pass after an action, whether or not it is abandoned. -/
def andFinally (m : Action α) (f : Pass → Pass) : Action α :=
  fun p => ((m p).1, f (m p).2)

/-- Changes the pass after an action that is abandoned. -/
def ifAbandoned (m : Action α) (f : Pass → Pass) : Action α :=
  fun p => match m p with
    | (.ok a, q) => (.ok a, q)
    | (.error e, q) => (.error e, f q)

/-- Reports a complaint at a location, skips the rest of the statement and gives up. -/
def failAt (location : Location) (c : Complaint) : Action α :=
  fun p => (.error {}, (p.report .error location c.message).resynchronise)

/-- Reports a complaint at the current token and gives up. -/
def fail (c : Complaint) : Action α :=
  fun p => failAt p.input.here c p

/-- Gives up with a complaint that tells the current token. -/
def failHere (c : Option Token → Complaint) : Action α :=
  fun p => fail (c p.input.current?) p

def require (condition : Prop) [Decidable condition] (c : Complaint) : Action Unit :=
  if condition then pure () else fail c

def requireAt (condition : Prop) [Decidable condition] (location : Location) (c : Complaint) :
    Action Unit :=
  if condition then pure () else failAt location c

/-- Recursion on the tokens that are still to be read. The body may run itself again only
after it has read a token; a second run at the same token would be abandoned. -/
def recurse {ι : Type} (body : (ι → Action α) → ι → Action α) (i : ι) (p : Pass) :
    Except Abandoned α × Pass :=
  body (fun j q =>
    if _ : q.remaining < p.remaining then recurse body j q else failHere .noProgress q) i p
termination_by p.remaining

theorem pure_apply (a : α) (p : Pass) : (pure a : Action α) p = (.ok a, p) := rfl

theorem bind_apply {β : Type} (m : Action α) (f : α → Action β) (p : Pass) :
    (m >>= f) p = match m p with
      | (.ok a, q) => f a q
      | (.error e, q) => (.error e, q) := rfl

/-- A run of a recursive action is a run of its body with the runs inside guarded. -/
theorem recurse_apply {ι : Type} (body : (ι → Action α) → ι → Action α) (i : ι) (p : Pass) :
    recurse body i p = body (fun j q =>
      if q.remaining < p.remaining then recurse body j q else failHere .noProgress q) i p := by
  rw [recurse]
  simp only [dite_eq_ite]

/-! Tokens -/

def peek : Action (Option Token) :=
  view fun p => p.input.current?

/-- Moves on to the next token and gives the location of the one left behind. -/
def advance : Action Location :=
  fun p => (.ok p.input.here, p.advance)

def skip : Action Unit :=
  update Pass.advance

def atMark (mark : Punct) : Action Bool :=
  view fun p => p.input.current? == some (.punct mark)

/-- Reads a token if it is the current one, and says whether it was. -/
def accept (t : Token) : Action Bool :=
  fun p => if p.input.current? = some t then (.ok true, p.advance) else (.ok false, p)

def acceptMark (mark : Punct) : Action Bool :=
  accept (.punct mark)

def acceptWord (word : Keyword) : Action Bool :=
  accept (.keyword word)

def consume (mark : Punct) : Action Unit := do
  if ← acceptMark mark then return ()
  else failHere (.expected (.mark mark))

def identifier (what : Expectation) : Action (String × Location) := do
  match ← peek with
  | some (.ident name) => return (name, ← advance)
  | _ => failHere (.expected what)

/-! Code and table -/

def perform (r : Code.Request) : Action Unit :=
  update (·.perform r)

def emit (i : Instr) : Action Unit :=
  perform (.emit i)

def emit? : Option Instr → Action Unit
  | some i => emit i
  | none => pure ()

def newLabel : Action Label :=
  fun p => (.ok p.code.nextLabel, p.perform .newLabel)

def markLabel (l : Label) : Action Unit :=
  perform (.markLabel l)

def edit (e : Table.Edit) : Action Unit :=
  update (·.edit e)

/-- What a name means; the journal tells if it is the host's. -/
def resolve (name : String) : Action (Option Symbol) :=
  fun p => (.ok (p.toSession.resolve name).1, { p with toSession := (p.toSession.resolve name).2 })

/-- A type that a token names: the star, or the name of a type. -/
def typeOf? (t : Table) : Option Token → Option Ty
  | some (.punct .star) => some .pointer
  | some (.ident name) => t.resolveType name
  | _ => none

def startsType : Action Bool :=
  view fun p => (typeOf? p.table p.input.current?).isSome

def type : Action Ty := do
  match ← view fun p => typeOf? p.table p.input.current? with
  | some ty => skip; return ty
  | none => failHere (.expected .type)

def warn (location : Location) (c : Caution) : Action Unit :=
  update (·.report .warning location c.message)

def note (location : Location) (r : Remark) : Action Unit :=
  update (·.report .note location r.message)

end Action
end OnePass
