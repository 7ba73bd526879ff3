import OnePass.Location

/-!
Diagnostics: notes, warnings and errors on places of the source. Errors beyond a limit
are counted and not kept.
-/

namespace OnePass

inductive Severity where
  | note | warning | error
deriving DecidableEq, Repr

namespace Severity

def text : Severity → String
  | note => "note"
  | warning => "warning"
  | error => "error"

end Severity

structure Diagnostic where
  severity : Severity
  location : Location
  message : String
deriving DecidableEq, Repr

namespace Diagnostic

def text (d : Diagnostic) : String :=
  s!"{d.location.text}: {d.severity.text}: {d.message}"

end Diagnostic

structure Diagnostics where
  items : Array Diagnostic := #[]
  /-- The number of all errors, kept or not. -/
  errorCount : Nat := 0
  /-- The number of errors that are kept. -/
  maxErrors : Nat
deriving DecidableEq, Repr

namespace Diagnostics

def defaultMaxErrors : Nat := 100

def report (ds : Diagnostics) (d : Diagnostic) : Diagnostics :=
  if d.severity = .error then
    if ds.errorCount < ds.maxErrors then
      { ds with items := ds.items.push d, errorCount := ds.errorCount + 1 }
    else { ds with errorCount := ds.errorCount + 1 }
  else { ds with items := ds.items.push d }

/-- Whether an error that is reported now is the first one that is not kept. -/
def reachesLimit (ds : Diagnostics) : Bool :=
  ds.errorCount == ds.maxErrors

def ofSeverity (ds : Diagnostics) (s : Severity) : List Diagnostic :=
  ds.items.toList.filter (·.severity == s)

def count (ds : Diagnostics) (s : Severity) : Nat :=
  (ds.ofSeverity s).length

def hasErrors (ds : Diagnostics) : Bool :=
  ds.errorCount != 0

def text (ds : Diagnostics) : String :=
  String.join (ds.items.toList.map (·.text ++ "\n"))

end Diagnostics
end OnePass
