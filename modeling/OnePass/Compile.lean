import OnePass.Host.Standard
import OnePass.Pass.Program
import OnePass.Text.Utf8

/-!
The compiler: from a program text, or the bytes of a file, to a module.
-/

namespace OnePass

inductive Error where
  | fileNotFound
  | notUtf8 (path : String) (fault : Text.Utf8.Fault)
  /-- The program has errors; these are the diagnostics that were kept. -/
  | rejected (diagnostics : Array Diagnostic)
  | code (fault : CodeFault)
  | config (fault : ConfigFault)
deriving DecidableEq, Repr

namespace Error

def message : Error → String
  | fileNotFound => "IO error: No such file or directory (os error 2)"
  | notUtf8 path fault => s!"Lexical error: {path}: not valid UTF-8 ({fault.message})"
  | rejected diagnostics =>
    let errors := (diagnostics.toList.filter (·.severity == .error)).length
    s!"Compilation failed with {errors} error(s)"
  | code fault => s!"Code generation error: {fault.message}"
  | config fault => s!"Configuration error: {fault.message}"

def diagnostics : Error → Array Diagnostic
  | rejected ds => ds
  | _ => #[]

end Error

structure Report (α : Type) where
  result : α
  journal : Array Event
deriving DecidableEq, Repr

def run (source : String) (config : Config) (host : Host.Registry) : Bool × Session :=
  let (success, s) := (Session.start config host).compile source
  let ds := s.diagnostics
  (success, s.record (.passFinished success ds.errorCount (ds.count .warning)))

def compileWith (host : Host.Registry) (source : String) (config : Config) :
    Report (Except Error Module) :=
  let (success, s) := run source config host
  if success then
    match s.code.finish with
    | .ok m => ⟨.ok m, (s.recordAll (Session.finishEvents s.code)).journal⟩
    | .error fault => ⟨.error (.code fault), s.journal⟩
  else ⟨.error (.rejected s.diagnostics.items), s.journal⟩

def compile (source : String) (config : Config) : Report (Except Error Module) :=
  compileWith Host.standard source config

/-- The diagnostics of a program, cautions and remarks among them. -/
def check (source : String) (config : Config) : Report Diagnostics :=
  let (_, s) := run source config Host.standard
  ⟨s.diagnostics, s.journal⟩

/-- Compiles the bytes of a file, or of none if there is no such file. -/
def compileFile (path : String) (bytes : Option (List UInt8)) (config : Config) :
    Report (Except Error Module) :=
  let opened : Event := .compiling path
  match bytes with
  | none => ⟨.error .fileNotFound, #[opened]⟩
  | some bytes => match Text.Utf8.decode bytes with
    | .error fault => ⟨.error (.notUtf8 path fault), #[opened]⟩
    | .ok text =>
      let r := compile (String.ofList text) config
      { r with journal := #[opened] ++ r.journal }

def configure (e : Environment) : Report (Except Error Config) :=
  match Config.ofEnvironment e with
  | .ok config => ⟨.ok config, #[.configured config]⟩
  | .error fault => ⟨.error (.config fault), #[]⟩

end OnePass
