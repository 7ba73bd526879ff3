import OnePass.Instr
import OnePass.Token.Basic

/-!
What is said to the author of a program: complaints, which are errors, cautions, which
are warnings, and remarks, which are notes. Each has one wording.
-/

namespace OnePass

inductive Expectation where
  | mark (p : Punct)
  | type
  | variableName
  | memberName
  | paramName
  | identifier
  /-- Something that can be counted up or down. -/
  | place
  | expression
  | arraySize
  | methodBody
  | loopEnd
deriving DecidableEq, Repr

namespace Expectation

def text : Expectation → String
  | mark p => s!"'{p.text}'"
  | type => "a type"
  | variableName => "a variable name"
  | memberName => "a field or method name"
  | paramName => "a parameter name"
  | identifier => "an identifier"
  | place => "a variable, parameter or field"
  | expression => "an expression"
  | arraySize => "array size"
  | methodBody => "method body"
  | loopEnd => "'infinite' to close 'loop'"

end Expectation

inductive Declared where
  | localVar | field | method | param
deriving DecidableEq, Repr

inductive Complaint where
  | unexpected (found : Option Token)
  | expected (what : Expectation) (found : Option Token)
  /-- A production was entered again where it had read nothing. -/
  | noProgress (found : Option Token)
  | unmatchedKeyword (word : Keyword)
  | conditionNotBool (found : Ty)
  | missingReturnValue (ty : Ty)
  | returnFromVoid
  | cannotReturn (found ty : Ty)
  | jumpOutsideLoop (word : Keyword)
  | voidDeclaration (what : Declared) (name : String)
  | alreadyDeclared (what : Declared) (name : String)
  | arraySizeNotPositive
  | cannotCompare (left right : Ty)
  | signOperand (found : Ty)
  | voidOperand (left right : Ty)
  | incompatibleOperands (left right : Ty)
  | cannotCast (source target : Ty)
  | unaryOperand (op : UnaryOp) (found : Ty)
  | undeclared (name : String)
  | countedMethod (name : String)
  | typeAsValue (name : String)
  | paramNotAvailable (name : String)
  | notAnArray (name : String)
  | indexNotInt (found : Ty)
  | onlyArrayFields (name : String) (ty : Ty)
  | cannotAssign (found : Ty) (name : String) (ty : Ty)
  | countedTwice
  | cannotCount (name : String) (ty : Ty)
  | incompleteSignature (name : String)
  | argumentType (position : Nat) (callee : String) (ty found : Ty)
  | arity (callee : String) (variadic : Bool) (params args : Nat)
  | noOverload (callee : String) (args : List Ty)
deriving DecidableEq, Repr

namespace Complaint

def voidText : Declared → String
  | .localVar => "variable"
  | .field => "field"
  | .method => "method"
  | .param => "parameter"

def declaredText : Declared → String
  | .localVar => "local variable"
  | .field => "field"
  | .method => "method"
  | .param => "parameter"

def message : Complaint → String
  | unexpected found => s!"unexpected {Token.describe? found}"
  | expected what found => s!"expected {what.text}, found {Token.describe? found}"
  | noProgress found => s!"no progress at {Token.describe? found}"
  | unmatchedKeyword word => s!"'{word.text}' without a matching statement"
  | conditionNotBool found => s!"condition must be bool, found {found.text}"
  | missingReturnValue ty => s!"missing return value of type {ty.text}"
  | returnFromVoid => "a void method cannot return a value"
  | cannotReturn found ty =>
    s!"cannot return {found.text} from a method returning {ty.text}"
  | jumpOutsideLoop word => s!"'{word.text}' outside of a loop"
  | voidDeclaration what name => s!"{voidText what} '{name}' cannot be void"
  | alreadyDeclared what name =>
    s!"{declaredText what} '{name}' is already declared in this scope"
  | arraySizeNotPositive => "array size must be positive"
  | cannotCompare left right => s!"cannot compare {left.text} with {right.text}"
  | signOperand found => s!"unary sign needs an int or double operand, found {found.text}"
  | voidOperand left right =>
    s!"a void value cannot be an operand, found {left.text} and {right.text}"
  | incompatibleOperands left right =>
    s!"incompatible operand types {left.text} and {right.text}"
  | cannotCast source target => s!"cannot cast {source.text} to {target.text}"
  | unaryOperand op found => s!"operator '{op.text}' cannot be applied to {found.text}"
  | undeclared name => s!"undeclared identifier '{name}'"
  | countedMethod name => s!"cannot increment method '{name}'"
  | typeAsValue name => s!"type '{name}' used as a value"
  | paramNotAvailable name => s!"parameter '{name}' is not available yet"
  | notAnArray name => s!"'{name}' is not an array"
  | indexNotInt found => s!"array index must be int, found {found.text}"
  | onlyArrayFields name ty => s!"only array fields can be indexed, '{name}' is a {ty.text}"
  | cannotAssign found name ty => s!"cannot assign {found.text} to '{name}' of type {ty.text}"
  | countedTwice => "prefix and postfix increment cannot be combined"
  | cannotCount name ty => s!"'{name}' of type {ty.text} cannot be incremented"
  | incompleteSignature name => s!"method '{name}' has no complete signature"
  | argumentType position callee ty found =>
    s!"argument {position} of '{callee}' must be {ty.text}, found {found.text}"
  | arity callee variadic params args =>
    let atLeast := if variadic then "at least " else ""
    s!"'{callee}' expects {atLeast}{params} arguments, found {args}"
  | noOverload callee args => s!"no overload of '{callee}' accepts ({Ty.listText args})"

end Complaint

inductive Side where
  | left | right
deriving DecidableEq, Repr

namespace Side

def text : Side → String
  | left => "left"
  | right => "right"

end Side

inductive Caution where
  /-- An operand is converted to a double without a cast. -/
  | converted (side : Side)
deriving DecidableEq, Repr

namespace Caution

def message : Caution → String
  | converted side =>
    s!"{side.text} operand is implicitly converted to double; use an explicit cast"

end Caution

inductive Remark where
  | skipping (found : Option Token)
  | firstDeclared (name : String)
deriving DecidableEq, Repr

namespace Remark

def message : Remark → String
  | skipping found => s!"skipping {Token.describe? found} after earlier errors"
  | firstDeclared name => s!"'{name}' was first declared here"

end Remark
end OnePass
