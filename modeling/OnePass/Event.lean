import OnePass.Code.Module
import OnePass.Config
import OnePass.Scope.Table
import OnePass.Token.Basic

/-!
The journal of a compilation: events in the order in which they happen, each with a
level and a message.
-/

namespace OnePass

inductive Level where
  | trace | debug | warn
deriving DecidableEq, Repr

namespace Level

def text : Level → String
  | trace => "TRACE"
  | debug => "DEBUG"
  | warn => "WARN"

end Level

inductive Event where
  /-- The scan met text that no lexical rule accepts. -/
  | unrecognized (text : String) (location : Location)
  /-- No block scope was open to be closed. -/
  | noScopeToLeave
  /-- A block scope of this table is about to be closed. -/
  | leavingScope (table : Table)
  | resolvedExternally (name owner : String)
  | reported (diagnostic : Diagnostic)
  /-- An error was the first one beyond the limit. -/
  | errorLimit (limit : Nat)
  | emitted (method : String) (instr : Instr)
  | scopeUnderflow (method : String)
  | nestedMethod (name outer : String)
  | methodOpened (name : String) (returnType : Ty) (params : Nat)
  | unknownMark (label : Label)
  /-- A call by `name` goes to this overload. -/
  | bound (name : String) (method : Host.Method)
  | programRead (table : Table)
  | passFinished (success : Bool) (errors warnings : Nat)
  | moduleFinished (fields methods labels : Nat)
  | configured (config : Config)
  | compiling (path : String)
deriving DecidableEq, Repr

namespace Event

def level : Event → Level
  | unrecognized .. | leavingScope _ | resolvedExternally .. | emitted .. | bound ..
  | programRead _ => .trace
  | reported d => if d.severity = .note then .trace else .debug
  | methodOpened .. | passFinished .. | moduleFinished .. | configured _ | compiling _ => .debug
  | noScopeToLeave | errorLimit _ | scopeUnderflow _ | nestedMethod .. | unknownMark _ => .warn

def message : Event → String
  | unrecognized text location =>
    s!"unrecognized input {Text.quotedString text} at {location.text}"
  | noScopeToLeave => "end_scope with no open block scope ignored"
  | leavingScope table => s!"leaving scope\n{table.text}"
  | resolvedExternally name owner => s!"{name} resolved externally on {owner}"
  | reported d => d.text
  | errorLimit limit => s!"more than {limit} errors, further errors are not recorded"
  | emitted method instr => s!"{method}: {instr.text}"
  | scopeUnderflow method => s!"end_scope without begin_scope in '{method}'"
  | nestedMethod name outer => s!"method '{name}' opened inside '{outer}'"
  | methodOpened name returnType params =>
    s!"method {returnType.text} {name}({params} params)"
  | unknownMark label => s!"mark of unknown label {label.text}"
  | bound name m =>
    let params := Text.bracketed (m.params.map Ty.detail)
    s!"{name} bound to {m.owner}.{m.name}{params}"
  | programRead table => s!"symbol table at end of program\n{table.text}"
  | passFinished success errors warnings =>
    let outcome := Literal.boolText success
    s!"parse finished: success={outcome}, {errors} error(s), {warnings} warning(s)"
  | moduleFinished fields methods labels =>
    s!"module finished: {fields} fields, {methods} methods, {labels} labels"
  | configured config => s!"configuration: {config.summary}"
  | compiling path => s!"compiling {path}"

/-- What the journal says when a token is met: something only if no lexical rule accepts
it. -/
def ofLexeme? (l : Lexeme) : Option Event :=
  match l.token with
  | .unknown text => some (.unrecognized text l.location)
  | _ => none

end Event
end OnePass
