import OnePass.Pass.Statement

/-!
Programs: fields, methods and statements in any order. Statements outside of methods
belong to the entry method.

    program     = (declaration | statement)*
    declaration = type identifier (";" | "[" integer "]" ";" | "(" parameters ")" body)
    parameters  = [type identifier ("," type identifier)*]
    body        = "{" (variable | statement)* "}"
-/

namespace OnePass
namespace Action

def arraySuffix : Action (Option Nat) := do
  if ← acceptMark .leftBracket then
    match ← peek with
    | some (.literal (.int size)) =>
      require (0 < size) .arraySizeNotPositive
      skip
      consume .rightBracket
      return some size.toInt.toNat
    | _ => failHere (.expected .arraySize)
  else return none

def fieldDeclaration (ty : Ty) (name : String) (location : Location) : Action Unit := do
  let size ← arraySuffix
  requireAt (ty ≠ .void) location (.voidDeclaration .field name)
  requireFresh .field name location
  consume .semicolon
  let ty := if size.isSome then ty.array else ty
  let index ← view fun p => p.code.fields.size
  perform (.addField name ty size)
  edit (.declareField ⟨name, .field (.module index) ty⟩ location)

/-- One parameter of a method, which is declared as soon as it is read, and `more` behind a
comma. -/
def parametersRound (more : List (String × Ty) → Action (List (String × Ty)))
    (params : List (String × Ty)) : Action (List (String × Ty)) := do
  let ty ← type
  let (name, location) ← identifier .paramName
  requireAt (ty ≠ .void) location (.voidDeclaration .param name)
  requireFresh .param name location
  edit (.declare ⟨name, .param none ty (params.length + 1)⟩ location)
  if ← acceptMark .comma then more (params ++ [(name, ty)])
  else return params ++ [(name, ty)]

def moreParameters : List (String × Ty) → Action (List (String × Ty)) :=
  recurse parametersRound

def parameters : Action (List (String × Ty)) := do
  if ← atMark .rightParen then return [] else moreParameters []

def bindParameter (name : String) (ordinal : Nat) (ty : Ty) (p : Pass) : Pass :=
  let index := p.code.current.params.size
  let p := p.perform (.addParam name ordinal ty)
  match p.table.symbolAt? p.table.depth name with
  | some ⟨own, .param _ declaredTy declaredOrdinal⟩ =>
    let symbol : Symbol := ⟨own, .param (some index) declaredTy declaredOrdinal⟩
    { p with table := p.table.overwriteAt p.table.depth name symbol }
  | _ => p

/-- Gives the parameters their indices; their positions begin with `ordinal`. -/
def bindParameters : List (String × Ty) → (ordinal : Nat) → Pass → Pass
  | [], _, p => p
  | (name, ty) :: rest, ordinal, p =>
    bindParameters rest (ordinal + 1) (bindParameter name ordinal ty p)

/-- Completes the symbol of a method, which the scope at `depth` declares. -/
def completeMethod (depth : Nat) (name : String) (params : List Ty) (index : Nat) (p : Pass) :
    Pass :=
  match p.table.symbolAt? depth name with
  | some ⟨own, .method returnType _ _⟩ =>
    let symbol : Symbol := ⟨own, .method returnType params (some index)⟩
    { p with table := p.table.overwriteAt depth name symbol }
  | _ => p

def methodBody : Action Unit := do
  if ← acceptMark .leftBrace then blockItems statement none
  else failHere (.expected .methodBody)

def methodRest (depth : Nat) (name : String) (returnType : Ty) : Action Unit := do
  let params ← parameters
  consume .rightParen
  let types := params.map Prod.snd
  perform (.addMethod name returnType types)
  let index ← view fun p => p.code.currentIndex
  update (bindParameters params 1)
  update (completeMethod depth name types index)
  methodBody.andFinally (·.perform .closeMethod)

/-- A method is declared before its parameters are read, so that it can call itself. -/
def methodDeclaration (returnType : Ty) (name : String) (location : Location) :
    Action Unit := do
  requireFresh .method name location
  skip
  let depth ← view fun p => p.table.depth
  edit (.declare ⟨name, .method returnType [] none⟩ location)
  edit .openScope
  (methodRest depth name returnType).andFinally (·.edit .closeScope)

def declaration : Action Unit := do
  let ty ← type
  let (name, location) ← identifier .memberName
  if ← atMark .leftParen then methodDeclaration ty name location
  else fieldDeclaration ty name location

def startsStatement : Token → Bool
  | .keyword word => word != .elseWord && word != .infiniteWord
  | .punct mark =>
    [Punct.leftBrace, .semicolon, .leftParen, .plus, .minus, .tilde, .bang, .plusPlus,
      .minusMinus].contains mark
  | .ident _ | .literal _ => true
  | .unknown _ => false

/-- One item of a program. A closing brace that an earlier error has left over is only
noted. -/
def programItem : Action Unit := do
  let token ← peek
  if ← startsType then declaration
  else if token.any startsStatement then statement none
  else do
    let hasErrors ← view fun p => p.diagnostics.hasErrors
    if hasErrors ∧ token = some (.punct .rightBrace) then
      let location ← view fun p => p.input.here
      note location (.skipping token)
      skip
    else fail (.unexpected token)

/-- The end of a program, or one item of it and `more` behind the item. -/
def programRound (more : Unit → Action Unit) : Unit → Action Unit := fun () => do
  match ← peek with
  | none => return ()
  | some _ =>
    attempt programItem
    more ()

def programItems : Action Unit :=
  recurse programRound ()

end Action

namespace Table

/-- Declares the names that every program may use. The pointer's mark is no name. -/
def predeclareAll (t : Table) : Table :=
  let types := Ty.primitives.filter (·.1 != "*") |>.map fun (name, ty) => ⟨name, .type ty⟩
  (types ++ Builtin.all.map Symbol.ofBuiltin).foldl predeclare t

end Table

namespace Pass

def succeeded (p : Pass) : Bool :=
  !p.diagnostics.hasErrors && p.input.lexemes.isEmpty

end Pass

namespace Session

/-- Compiles a program text on top of what the session holds already, and says whether it
is free of errors. -/
def compile (s : Session) (source : String) : Bool × Session :=
  let p := Pass.start s source
  let p := { p with table := p.table.predeclareAll }
  let p := (Action.programItems p).2
  (p.succeeded, p.record (.programRead p.table))

end Session
end OnePass
