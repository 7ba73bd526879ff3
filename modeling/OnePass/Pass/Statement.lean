import OnePass.Pass.Expression

/-!
Statements and the declarations of local variables.

    statement  = block | ";" | expression ";" | "if" condition statement ["else" statement]
               | "while" condition statement | "loop" statement "infinite"
               | "return" [expression] ";" | "break" ";" | "continue" ";"
    condition  = "(" expression ")"
    block      = "{" (variable | statement)* "}"
    variable   = type identifier ";"

A statement inside of another one that is abandoned does not abandon the outer one, so
that every label is marked.
-/

namespace OnePass

/-- Where the jumps inside of a loop go. -/
structure LoopLabels where
  exit : Label
  again : Label
deriving DecidableEq, Repr

namespace Action

/-- Abandons a declaration of a name that the innermost scope has already, with a note at
the first declaration if it stands in a source text. -/
def requireFresh (what : Declared) (name : String) (location : Location) : Action Unit :=
  fun p => match p.table.declaredAt? name with
    | none => (.ok (), p)
    | some first =>
      let p := p.report .error location (Complaint.alreadyDeclared what name).message
      let p := if first = .builtin then p
        else p.report .note first (Remark.firstDeclared name).message
      (.error {}, p.resynchronise)

def variableDeclaration : Action Unit := do
  let ty ← type
  let (name, location) ← identifier .variableName
  requireAt (ty ≠ .void) location (.voidDeclaration .localVar name)
  requireFresh .localVar name location
  consume .semicolon
  let index ← view fun p => p.code.current.locals.size
  perform (.addLocal name ty)
  edit (.declare ⟨name, .localVar index ty⟩ location)

def condition : Action Unit := do
  consume .leftParen
  let ty ← expression
  require (ty = .bool) (.conditionNotBool ty)
  consume .rightParen

/-- The closing brace of a block, or one item of it and `more` behind the item. -/
def blockRound (nested : Option LoopLabels → Action Unit) (loop : Option LoopLabels)
    (more : Unit → Action Unit) : Unit → Action Unit := fun () => do
  match ← peek with
  | none | some (.punct .rightBrace) => consume .rightBrace
  | some _ =>
    if ← startsType then attempt variableDeclaration else attempt (nested loop)
    more ()

def blockItems (nested : Option LoopLabels → Action Unit) (loop : Option LoopLabels) :
    Action Unit :=
  recurse (blockRound nested loop) ()

def block (nested : Option LoopLabels → Action Unit) (loop : Option LoopLabels) :
    Action Unit := do
  consume .leftBrace
  edit .openScope
  perform .openScope
  (blockItems nested loop).andFinally fun p => (p.perform .closeScope).edit .closeScope

def ifStatement (nested : Option LoopLabels → Action Unit) (loop : Option LoopLabels) :
    Action Unit := do
  skip
  condition
  let otherwise ← newLabel
  emit (.branchFalse otherwise)
  attempt (nested loop)
  if ← acceptWord .elseWord then
    let done ← newLabel
    emit (.branch done)
    markLabel otherwise
    attempt (nested loop)
    markLabel done
  else markLabel otherwise

def whileStatement (nested : Option LoopLabels → Action Unit) : Action Unit := do
  skip
  let again ← newLabel
  let exit ← newLabel
  markLabel again
  condition.ifAbandoned fun p => p.perform (.markLabel exit)
  emit (.branchFalse exit)
  attempt (nested (some ⟨exit, again⟩))
  emit (.branch again)
  markLabel exit

def loopStatement (nested : Option LoopLabels → Action Unit) : Action Unit := do
  skip
  let again ← newLabel
  let exit ← newLabel
  markLabel again
  attempt (nested (some ⟨exit, again⟩))
  emit (.branch again)
  markLabel exit
  if ← acceptWord .infiniteWord then return ()
  else failHere (.expected .loopEnd)

def returnNothing (location : Location) (returnType : Ty) : Action Unit := do
  emit .ret
  requireAt (returnType = .void) location (.missingReturnValue returnType)
  skip

/-- A return of a value. The code returns on every path, whatever is wrong with it. -/
def returnValue (location : Location) (returnType : Ty) : Action Unit := do
  let ty ← expression.ifAbandoned fun p => p.perform (.emit .ret)
  if returnType = .void then
    emit .ret
    failAt location .returnFromVoid
  else if returnType.assignable ty then
    emit? (Instr.assignCast? returnType ty)
    emit .ret
    consume .semicolon
  else
    emit .ret
    fail (.cannotReturn ty returnType)

def returnStatement : Action Unit := do
  let location ← advance
  let returnType ← view fun p => p.code.current.returnType
  if ← atMark .semicolon then returnNothing location returnType
  else returnValue location returnType

/-- A jump to one of the labels of the innermost loop. -/
def jump (word : Keyword) (target : Option Label) : Action Unit := do
  let location ← advance
  match target with
  | none => failAt location (.jumpOutsideLoop word)
  | some label =>
    emit (.branch label)
    consume .semicolon

def expressionStatement : Action Unit := do
  let ty ← expression
  if ty = .void then pure () else emit .pop
  consume .semicolon

def statementBody (nested : Option LoopLabels → Action Unit) (loop : Option LoopLabels) :
    Action Unit := do
  match ← peek with
  | some (.punct .leftBrace) => block nested loop
  | some (.punct .semicolon) => skip
  | some (.keyword word) => match word with
    | .ifWord => ifStatement nested loop
    | .whileWord => whileStatement nested
    | .loopWord => loopStatement nested
    | .returnWord => returnStatement
    | .breakWord => jump .breakWord (loop.map LoopLabels.exit)
    | .continueWord => jump .continueWord (loop.map LoopLabels.again)
    | .elseWord | .infiniteWord => fail (.unmatchedKeyword word)
  | _ => expressionStatement

def statement : Option LoopLabels → Action Unit :=
  recurse statementBody

end Action
end OnePass
