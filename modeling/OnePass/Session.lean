import OnePass.Event

/-!
A compilation in progress: the table of symbols, the code written so far, the diagnostics
and the journal. The operations here are those of the parts, with their journal entries.
-/

namespace OnePass

structure Session where
  table : Table
  code : Code
  diagnostics : Diagnostics
  journal : Array Event := #[]
deriving DecidableEq, Repr

namespace Session

def start (config : Config) (host : Host.Registry) : Session :=
  { table := config.namespaces.foldl Table.addUsing { host }
    code := .empty config.entryMethod
    diagnostics := { maxErrors := config.maxErrors } }

def record (s : Session) (e : Event) : Session :=
  { s with journal := s.journal.push e }

def recordAll (s : Session) (es : List Event) : Session :=
  es.foldl record s

def reportEvents (ds : Diagnostics) (d : Diagnostic) : List Event :=
  .reported d ::
    if d.severity = .error ∧ ds.reachesLimit then [.errorLimit ds.maxErrors] else []

def report (s : Session) (severity : Severity) (location : Location) (message : String) :
    Session :=
  let d : Diagnostic := ⟨severity, location, message⟩
  { s.recordAll (reportEvents s.diagnostics d) with diagnostics := s.diagnostics.report d }

def editEvents (t : Table) : Table.Edit → List Event
  | .closeScope => if t.blocks.isEmpty then [.noScopeToLeave] else [.leavingScope t]
  | _ => []

def edit (s : Session) (e : Table.Edit) : Session :=
  { s.recordAll (editEvents s.table e) with table := s.table.edit e }

def requestEvents (c : Code) : Code.Request → List Event
  | .emit i => [.emitted c.current.name i]
  | .closeScope => if c.current.depth = 0 then [.scopeUnderflow c.current.name] else []
  | .addMethod name returnType params =>
    (if c.body.isSome then [.nestedMethod name c.current.name] else []) ++
      [.methodOpened name returnType params.length]
  | .markLabel l => if l.index < c.labels.size then [] else [.unknownMark l]
  | _ => []

def perform (s : Session) (r : Code.Request) : Session :=
  { s.recordAll (requestEvents s.code r) with code := s.code.perform r }

/-- What the journal says when a name is resolved: something only if the host has it. -/
def resolveEvents (t : Table) (name : String) : List Event :=
  if (t.lookup name).isSome then []
  else match t.external? name with
    | some (owner, _) => [.resolvedExternally name owner.name]
    | none => []

def resolve (s : Session) (name : String) : Option Symbol × Session :=
  (s.table.resolve name, s.recordAll (resolveEvents s.table name))

/-- The journal entry of code that is finished without a fault. -/
def finishEvents (c : Code) : List Event :=
  match c.finish with
  | .ok m => [.moduleFinished m.fields.size m.methods.size m.labels.size]
  | .error _ => []

end Session
end OnePass
