import OnePass.Code.Basic

/-!
Finished modules. Finishing checks that no method was left open, that scopes are
balanced, that every label was marked exactly once, and that every branch goes to a
label of its own method.
-/

namespace OnePass

structure Module where
  fields : Array Field
  entry : Method
  /-- The methods other than the entry method, in the order of their declarations. -/
  declared : Array Method
  labels : Array LabelState
deriving DecidableEq, Repr

inductive CodeFault where
  | unclosedMethod (method : String)
  | unbalancedScopes (method : String)
  | unmarkedLabel (method : String) (label : Label)
  | labelMarkedTwice (method : String) (label : Label)
  | unknownLabel (method : String) (label : Label)
deriving DecidableEq, Repr

namespace CodeFault

def message : CodeFault → String
  | unclosedMethod method => s!"method '{method}' was never closed"
  | unbalancedScopes method => s!"unbalanced scopes in method '{method}'"
  | unmarkedLabel method label => s!"label {label.text} in method '{method}' was never marked"
  | labelMarkedTwice method label =>
    s!"label {label.text} in method '{method}' was marked more than once"
  | unknownLabel method label =>
    s!"branch in method '{method}' targets unknown label {label.text}"

end CodeFault

namespace Code

def methodName (c : Code) (index : Nat) : String :=
  (c.methods[index]?.map Method.name).getD ""

def unclosedFault? (c : Code) : Option CodeFault :=
  c.body.map fun m => .unclosedMethod m.name

def scopeFault? (c : Code) : Option CodeFault :=
  (c.methods.toList.find? (!·.isBalanced)).map fun m => .unbalancedScopes m.name

/-- The fault of one label, if it was not marked exactly once. -/
def markFault? (c : Code) (index : Nat) (s : LabelState) : Option CodeFault :=
  match s.marks with
  | 0 => some (.unmarkedLabel (c.methodName s.method) ⟨index⟩)
  | 1 => none
  | _ => some (.labelMarkedTwice (c.methodName s.method) ⟨index⟩)

def labelFault? (c : Code) : Option CodeFault :=
  c.labels.toList.zipIdx.findSome? fun (s, index) => c.markFault? index s

def belongsTo (c : Code) (l : Label) (method : Nat) : Bool :=
  c.labels[l.index]?.any (·.method == method)

def branchFault? (c : Code) : Option CodeFault :=
  c.methods.toList.zipIdx.findSome? fun (m, index) =>
    (m.branchTargets.find? (!c.belongsTo · index)).map fun l => .unknownLabel m.name l

def fault? (c : Code) : Option CodeFault :=
  c.unclosedFault?.or (c.scopeFault?.or (c.labelFault?.or c.branchFault?))

def finish (c : Code) : Except CodeFault Module :=
  match c.fault? with
  | some fault => .error fault
  | none => .ok ⟨c.fields, c.entry, c.closed, c.labels⟩

end Code

namespace Module

/-- All methods by index, the entry method first. -/
def methods (m : Module) : Array Method :=
  #[m.entry] ++ m.declared

def method? (m : Module) (name : String) : Option Method :=
  m.methods.find? (·.name == name)

def field? (m : Module) (name : String) : Option Field :=
  m.fields.find? (·.name == name)

/-- The instruction that a label means, in the method that was open when the label was first
marked. -/
def labelTarget? (m : Module) (l : Label) : Option Nat :=
  m.labels[l.index]?.bind LabelState.target

def lines (ls : List String) : String :=
  String.join (ls.map (· ++ "\n"))

def fieldLine (f : Field) : String :=
  match f.arraySize with
  | some size => s!"field {f.ty.text} {f.name}[{size}]"
  | none => s!"field {f.ty.text} {f.name}"

def methodLine (m : Method) : String :=
  let params := ", ".intercalate (m.params.toList.map fun p => s!"{p.ty.text} {p.name}")
  s!"method {m.returnType.text} {m.name}({params})"

def localLine (l : Local) : String :=
  s!"  local {l.ty.text} {l.name} @{l.depth}"

/-- Numbers stand at the right of a column of four characters. -/
def instrLine (pc : Nat) (i : Instr) : String :=
  let number := toString pc
  let blanks := String.ofList (List.replicate (4 - number.length) ' ')
  s!"  {blanks}{number}  {i.text}"

/-- The labels of a method that mean the instruction at `pc`, one on each line. -/
def labelLines (m : Module) (method pc : Nat) : List String :=
  m.labels.toList.zipIdx.filterMap fun (s, index) =>
    if s.method = method ∧ s.target = some pc then some s!"L{index}:" else none

def codeLines (m : Module) (index : Nat) (method : Method) : List String :=
  (method.code.toList.zipIdx.flatMap fun (i, pc) => m.labelLines index pc ++ [instrLine pc i]) ++
    m.labelLines index method.code.size

def listing (m : Module) : String :=
  lines (m.fields.toList.map fieldLine ++
    m.methods.toList.zipIdx.flatMap fun (method, index) =>
      methodLine method :: method.locals.toList.map localLine ++ m.codeLines index method)

end Module
end OnePass
