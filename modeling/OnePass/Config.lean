import OnePass.Diagnostic
import OnePass.Text.Blank
import OnePass.Text.Quoted

/-!
How a program is compiled: the namespaces in use, the limit of errors that are kept and
the name of the entry method. The first two can be given as texts by an environment.
-/

namespace OnePass

structure Config where
  namespaces : List String := []
  maxErrors : Nat := Diagnostics.defaultMaxErrors
  entryMethod : String := "<main>"
deriving DecidableEq, Repr

structure Environment where
  namespaces : Option String := none
  maxErrors : Option String := none
deriving DecidableEq, Repr

/-- A limit of errors that is no number. -/
structure ConfigFault where
  value : String
deriving DecidableEq, Repr

namespace ConfigFault

def message (f : ConfigFault) : String :=
  s!"SCSC_MAX_ERRORS must be a number, got '{f.value}'"

end ConfigFault

namespace Config

/-- A namespace that is in use already is not added again. -/
def addUsing (c : Config) (ns : String) : Config :=
  if c.namespaces.contains ns then c else { c with namespaces := c.namespaces ++ [ns] }

def splitAtCommas : List Char → List (List Char)
  | [] => [[]]
  | c :: rest =>
    if c = ',' then [] :: splitAtCommas rest
    else match splitAtCommas rest with
      | part :: parts => (c :: part) :: parts
      | [] => [[c]]

/-- The namespaces that a text lists between commas. Blanks around them are dropped, and
so are empty ones. -/
def listedNamespaces (text : String) : List String :=
  ((splitAtCommas text.toList).map Text.trim).filter (· ≠ []) |>.map String.ofList

def maxLimit : Nat := Nat.pow 2 64 - 1

/-- A number of decimal digits, behind one plus sign or none. -/
def limitOfDigits? (digits : List Char) : Option Nat :=
  if digits ≠ [] ∧ digits.all Char.isDigit then
    let n := digits.foldl (fun n d => 10 * n + (d.toNat - '0'.toNat)) 0
    if n ≤ maxLimit then some n else none
  else none

def limit? (text : String) : Option Nat :=
  match Text.trim text.toList with
  | '+' :: digits => limitOfDigits? digits
  | digits => limitOfDigits? digits

/-- The default settings, as far as the environment says nothing else. -/
def ofEnvironment (e : Environment) : Except ConfigFault Config :=
  let config : Config := match e.namespaces with
    | some text => (listedNamespaces text).foldl addUsing {}
    | none => {}
  match e.maxErrors with
  | none => .ok config
  | some text => match limit? text with
    | some n => .ok { config with maxErrors := n }
    | none => .error ⟨text⟩

def summary (c : Config) : String :=
  let namespaces := Text.bracketed (c.namespaces.map Text.quotedString)
  let entry := Text.quotedString c.entryMethod
  s!"Config \x7b using_namespaces: {namespaces}, max_errors: {c.maxErrors}, entry_method: {entry} \x7d"

end Config
end OnePass
