import OnePass.Pass.Basic

/-!
Expressions. A production reads an expression, writes the code that leaves its value on
the stack, and gives the type of the value. An assignment leaves nothing; its type is
void.

    expression      = additive [relation additive]
    additive        = ["+" | "-"] multiplicative (additiveOp multiplicative)*
    multiplicative  = simple (multiplicativeOp simple)*
    simple          = literal | ("-" | "~" | "!") simple | "(" type ")" simple
                    | "(" expression ")" | ["++" | "--"] place ["++" | "--"]
                    | place "=" expression | identifier arguments
    place           = identifier ["[" expression "]"]
    arguments       = "(" [expression ("," expression)*] ")"
-/

namespace OnePass

inductive OperandRule where
  /-- Integers or doubles; an integer beside a double is converted. -/
  | arithmetic
  | integral
  | logical
deriving DecidableEq, Repr

namespace OperandRule

structure Result where
  ty : Ty
  converted : Option Side := none
deriving DecidableEq, Repr

def result? : OperandRule → (left right : Ty) → Option Result
  | arithmetic, .int, .int => some { ty := .int }
  | arithmetic, .double, .double => some { ty := .double }
  | arithmetic, .int, .double => some { ty := .double, converted := some .left }
  | arithmetic, .double, .int => some { ty := .double, converted := some .right }
  | integral, .int, .int => some { ty := .int }
  | logical, .bool, .bool => some { ty := .bool }
  | _, _, _ => none

end OperandRule

namespace AdditiveOp

def rule : AdditiveOp → OperandRule
  | add | sub => .arithmetic
  | bitOr | xor => .integral
  | or => .logical

def ofToken? : Option Token → Option AdditiveOp
  | some (.punct .plus) => some add
  | some (.punct .minus) => some sub
  | some (.punct .bar) => some bitOr
  | some (.punct .barBar) => some or
  | some (.punct .caret) => some xor
  | _ => none

/-- Whether the operation joins texts: the sum of a string and any value. -/
def concatenates (op : AdditiveOp) (left right : Ty) : Bool :=
  op == add && left != .void && right != .void && (left == .string || right == .string)

end AdditiveOp

namespace MultiplicativeOp

def rule : MultiplicativeOp → OperandRule
  | mul | div => .arithmetic
  | rem | bitAnd => .integral
  | and => .logical

def ofToken? : Option Token → Option MultiplicativeOp
  | some (.punct .star) => some mul
  | some (.punct .slash) => some div
  | some (.punct .percent) => some rem
  | some (.punct .amp) => some bitAnd
  | some (.punct .ampAmp) => some and
  | _ => none

end MultiplicativeOp

namespace Relation

def ofToken? : Option Token → Option Relation
  | some (.punct .less) => some lt
  | some (.punct .lessEq) => some le
  | some (.punct .eqEq) => some eq
  | some (.punct .bangEq) => some ne
  | some (.punct .greaterEq) => some ge
  | some (.punct .greater) => some gt
  | _ => none

end Relation

namespace UnaryOp

def accepts : UnaryOp → Ty → Bool
  | neg, ty => ty == .int || ty == .double
  | bitNot, ty => ty == .int
  | not, ty => ty == .bool

end UnaryOp

namespace Action

inductive Nonterminal where
  | expression
  | simple
deriving DecidableEq, Repr

/-- Checks the operands of a binary operator that stands at `location`, and warns of a
conversion. -/
def operate (rule : OperandRule) (location : Location) (left right : Ty) : Action Ty := do
  require (left ≠ .void ∧ right ≠ .void) (.voidOperand left right)
  match rule.result? left right with
  | none => fail (.incompatibleOperands left right)
  | some { ty, converted := none } => return ty
  | some { ty, converted := some side } =>
    warn location (.converted side)
    return ty

/-- Gives an argument to a parameter; arguments beyond the parameters are left as they
are. -/
def passArgument (callee : String) (params : List Ty) (index : Nat) (found : Ty) :
    Action Unit :=
  match params[index]? with
  | none => pure ()
  | some ty => do
    require (ty.assignable found) (.argumentType (index + 1) callee ty found)
    emit? (Instr.assignCast? ty found)

/-- One argument of a call, and `more` behind a comma. The argument is given to `each` with its
position as soon as its value has been computed. -/
def argumentsRound (nested : Nonterminal → Action Ty) (each : Nat → Ty → Action Unit)
    (more : List Ty → Action (List Ty)) (args : List Ty) : Action (List Ty) := do
  let ty ← nested .expression
  each args.length ty
  if ← acceptMark .comma then more (args ++ [ty]) else return args ++ [ty]

def moreArguments (nested : Nonterminal → Action Ty) (each : Nat → Ty → Action Unit) :
    List Ty → Action (List Ty) :=
  recurse (argumentsRound nested each)

def arguments (nested : Nonterminal → Action Ty) (each : Nat → Ty → Action Unit) :
    Action (List Ty) := do
  consume .leftParen
  let args ← if ← atMark .rightParen then pure [] else moreArguments nested each []
  consume .rightParen
  return args

/-- A call of a method of the module, whose name at `location` has just been read. -/
def callMethod (nested : Nonterminal → Action Ty) (name : String) (location : Location)
    (returnType : Ty) (params : List Ty) (index : Option Nat) : Action Ty := do
  let args ← arguments nested (passArgument name params)
  match index with
  | none => failAt location (.incompleteSignature name)
  | some i =>
    emit (.call (.method i))
    require (args.length = params.length) (.arity name false params.length args.length)
    return returnType

def callBuiltin (nested : Nonterminal → Action Ty) (name : String) (builtin : Builtin)
    (returnType : Ty) (params : List Ty) (variadic : Bool) : Action Ty := do
  let args ← arguments nested (passArgument name params)
  emit (.call (.intrinsic builtin args.length))
  require (args.length = params.length ∨ (variadic ∧ params.length < args.length))
    (.arity name variadic params.length args.length)
  return returnType

def callExternal (nested : Nonterminal → Action Ty) (name : String)
    (overloads : List Host.Method) : Action Ty := do
  let args ← arguments nested fun _ _ => pure ()
  match Host.selectOverload overloads args with
  | none => fail (.noOverload name args)
  | some m =>
    update fun p => { p with toSession := p.record (.bound name m) }
    emit (.call (.external m))
    return m.returnType

def countAfter : Option Token → Option Count
  | some (.punct .plusPlus) => some .postInc
  | some (.punct .minusMinus) => some .postDec
  | _ => none

/-- How a place is counted, from what stands before and behind it. -/
def countMode (before : Option Count) : Action (Option Count) := do
  match countAfter (← peek), before with
  | none, _ => return before
  | some _, some _ => fail .countedTwice
  | some after, none => skip; return some after

/-- Leaves the value of a place on the stack and counts it. An element is read and
counted by one instruction. -/
def load (storage : Storage) (mode : Option Count) : Action Unit :=
  match storage, mode with
  | .element ref, none => emit (.loadElement ref)
  | .element ref, some m => emit (.count (.element ref) m)
  | _, _ => do
    emit (.read storage)
    emit? (Instr.count? storage mode)

def assign (nested : Nonterminal → Action Ty) (name : String) (storage : Storage) (ty : Ty) :
    Action Ty := do
  let found ← nested .expression
  require (ty.assignable found) (.cannotAssign found name ty)
  emit? (Instr.assignCast? ty found)
  emit (.store storage)
  return .void

def placeValue (before : Option Count) (name : String) (storage : Storage) (ty : Ty) :
    Action Ty := do
  let mode ← countMode before
  require (mode.isNone ∨ ty.isNumeric) (.cannotCount name ty)
  load storage mode
  return ty

/-- An assignment to a place or its value. A place that is counted is not assigned to. -/
def access (nested : Nonterminal → Action Ty) (before : Option Count) (name : String)
    (storage : Storage) (ty : Ty) : Action Ty := do
  if ← atMark .leftBracket then fail (.onlyArrayFields name ty)
  else match before with
    | some _ => placeValue before name storage ty
    | none => do
      if ← acceptMark .assign then assign nested name storage ty
      else placeValue none name storage ty

/-- A field, or an element of it when a bracket follows. -/
def fieldAccess (nested : Nonterminal → Action Ty) (before : Option Count) (name : String)
    (ref : FieldRef) (ty : Ty) : Action Ty := do
  if ← atMark .leftBracket then
    match ty.element? with
    | none => fail (.notAnArray name)
    | some element =>
      skip
      emit (.loadBase ref)
      let index ← nested .expression
      require (index = .int) (.indexNotInt index)
      consume .rightBracket
      access nested before name (.element ref) element
  else access nested before name (.field ref) ty

/-- An expression that begins with a name, behind the counting in front of it. -/
def named (nested : Nonterminal → Action Ty) (before : Option Count) : Action Ty := do
  let (name, location) ← identifier .identifier
  match ← resolve name with
  | none => failAt location (.undeclared name)
  | some symbol => match symbol.meaning with
    | .method returnType params index =>
      requireAt before.isNone location (.countedMethod name)
      callMethod nested symbol.name location returnType params index
    | .function builtin returnType params variadic =>
      requireAt before.isNone location (.countedMethod name)
      callBuiltin nested symbol.name builtin returnType params variadic
    | .external overloads =>
      requireAt before.isNone location (.countedMethod name)
      callExternal nested symbol.name overloads
    | .type _ => failAt location (.typeAsValue name)
    | .field ref ty => fieldAccess nested before name ref ty
    | .localVar index ty => access nested before name (.localVar index) ty
    | .param none _ _ => failAt location (.paramNotAvailable name)
    | .param (some index) ty _ => access nested before name (.param index) ty

def counted (nested : Nonterminal → Action Ty) (mode : Count) : Action Ty := do
  skip
  match ← peek with
  | some (.ident _) => named nested (some mode)
  | _ => failHere (.expected .place)

def unary (nested : Nonterminal → Action Ty) (op : UnaryOp) : Action Ty := do
  skip
  let ty ← nested .simple
  require (op.accepts ty) (.unaryOperand op ty)
  emit (.unary op ty)
  return ty

def castTo (nested : Nonterminal → Action Ty) : Action Ty := do
  let target ← type
  consume .rightParen
  let source ← nested .simple
  require (target.castable source) (.cannotCast source target)
  emit (.cast target source)
  return target

def parenthesised (nested : Nonterminal → Action Ty) : Action Ty := do
  skip
  if ← startsType then castTo nested
  else
    let ty ← nested .expression
    consume .rightParen
    return ty

def simpleBody (nested : Nonterminal → Action Ty) : Action Ty := do
  match ← peek with
  | some (.literal value) =>
    skip
    emit (.const value)
    return value.ty
  | some (.ident _) => named nested none
  | some (.punct .plusPlus) => counted nested .preInc
  | some (.punct .minusMinus) => counted nested .preDec
  | some (.punct .leftParen) => parenthesised nested
  | some (.punct .minus) => unary nested .neg
  | some (.punct .tilde) => unary nested .bitNot
  | some (.punct .bang) => unary nested .not
  | _ => failHere (.expected .expression)

/-- One factor behind a value that has been computed, and `more` behind it. -/
def factorsRound (nested : Nonterminal → Action Ty) (more : Ty → Action Ty) (left : Ty) :
    Action Ty := do
  match MultiplicativeOp.ofToken? (← peek) with
  | none => return left
  | some op =>
    let location ← advance
    let right ← simpleBody nested
    let ty ← operate op.rule location left right
    emit (.multiplicative op left right)
    more ty

def factors (nested : Nonterminal → Action Ty) : Ty → Action Ty :=
  recurse (factorsRound nested)

def multiplicative (nested : Nonterminal → Action Ty) : Action Ty := do
  factors nested (← simpleBody nested)

/-- A sum of a string is a text; other operations follow their operator's rule. -/
def combine (op : AdditiveOp) (location : Location) (left right : Ty) : Action Ty := do
  if op.concatenates left right then
    emit .concat
    return .string
  else
    let ty ← operate op.rule location left right
    emit (.additive op left right)
    return ty

/-- Applies the sign in front of a sum: plus only checks its operand. -/
def applySign (negative : Bool) (ty : Ty) : Action Unit := do
  require (ty = .int ∨ ty = .double) (.signOperand ty)
  if negative then emit (.unary .neg ty) else pure ()

def signed (nested : Nonterminal → Action Ty) : Action Ty := do
  match ← peek with
  | some (.punct .plus) =>
    skip
    let ty ← multiplicative nested
    applySign false ty
    return ty
  | some (.punct .minus) =>
    skip
    let ty ← multiplicative nested
    applySign true ty
    return ty
  | _ => multiplicative nested

/-- One summand behind a value that has been computed, and `more` behind it. -/
def summandsRound (nested : Nonterminal → Action Ty) (more : Ty → Action Ty) (left : Ty) :
    Action Ty := do
  match AdditiveOp.ofToken? (← peek) with
  | none => return left
  | some op =>
    let location ← advance
    let right ← multiplicative nested
    more (← combine op location left right)

def summands (nested : Nonterminal → Action Ty) : Ty → Action Ty :=
  recurse (summandsRound nested)

def additive (nested : Nonterminal → Action Ty) : Action Ty := do
  summands nested (← signed nested)

def expressionBody (nested : Nonterminal → Action Ty) : Action Ty := do
  let left ← additive nested
  match Relation.ofToken? (← peek) with
  | none => return left
  | some relation =>
    skip
    let right ← additive nested
    require (left ≠ .void ∧ left = right) (.cannotCompare left right)
    emit (.compare relation left)
    return .bool

/-- The production of a nonterminal, from the productions of those inside of it. -/
def production (nested : Nonterminal → Action Ty) : Nonterminal → Action Ty
  | .expression => expressionBody nested
  | .simple => simpleBody nested

def expression : Action Ty :=
  recurse production .expression

end Action
end OnePass
