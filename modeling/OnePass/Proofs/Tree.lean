import OnePass.Pass.Expression

/-!
Syntax trees of expressions, and what they mean. The pass builds no tree; the trees here
say what it should do. A tree gives back its tokens, and its translation is defined by
recursion: the type of the value, the code that computes it, and the warnings on operands
that are converted. Nothing here reads tokens or changes a state.
-/

namespace OnePass

namespace MultiplicativeOp

def mark : MultiplicativeOp → Punct
  | mul => .star
  | div => .slash
  | rem => .percent
  | bitAnd => .amp
  | and => .ampAmp

end MultiplicativeOp

namespace AdditiveOp

def mark : AdditiveOp → Punct
  | add => .plus
  | sub => .minus
  | bitOr => .bar
  | or => .barBar
  | xor => .caret

end AdditiveOp

namespace Relation

def mark : Relation → Punct
  | lt => .less
  | le => .lessEq
  | eq => .eqEq
  | ne => .bangEq
  | ge => .greaterEq
  | gt => .greater

end Relation

namespace UnaryOp

def mark : UnaryOp → Punct
  | neg => .minus
  | bitNot => .tilde
  | not => .bang

end UnaryOp

namespace Tree

/-- Counting up or down. -/
inductive Direction where
  | up | down
deriving DecidableEq, Repr

namespace Direction

def mark : Direction → Punct
  | up => .plusPlus
  | down => .minusMinus

def before : Direction → Count
  | up => .preInc
  | down => .preDec

def after : Direction → Count
  | up => .postInc
  | down => .postDec

end Direction

/-- The sign in front of a sum. -/
inductive Sign where
  | none
  | plus (location : Location)
  | minus (location : Location)
deriving DecidableEq, Repr

mutual

/-- A simple expression. Every token of it has its location. -/
inductive Simple where
  | literal (location : Location) (value : Literal)
  | value (place : Place)
  | countBefore (location : Location) (direction : Direction) (place : Place)
  | countAfter (place : Place) (location : Location) (direction : Direction)
  | assign (place : Place) (location : Location) (value : Expr)
  | call (location : Location) (name : String) (opening : Location) (args : Arguments)
      (closing : Location)
  | cast (opening : Location) (type : Lexeme) (closing : Location) (operand : Simple)
  | paren (opening : Location) (inner : Expr) (closing : Location)
  | unary (location : Location) (op : UnaryOp) (operand : Simple)

/-- A variable, parameter or field, or an element of an array field. -/
inductive Place where
  | name (location : Location) (name : String)
  | element (location : Location) (name : String) (opening : Location) (index : Expr)
      (closing : Location)

inductive Arguments where
  | none
  | some (list : ArgumentList)

inductive ArgumentList where
  | last (arg : Expr)
  | more (arg : Expr) (comma : Location) (rest : ArgumentList)

/-- Simple expressions that are multiplied, from the left. -/
inductive Product where
  | simple (first : Simple)
  | times (left : Product) (location : Location) (op : MultiplicativeOp) (right : Simple)

/-- Products that are added, from the left. A sign belongs to the whole first product. -/
inductive Sum where
  | product (sign : Sign) (first : Product)
  | plus (left : Sum) (location : Location) (op : AdditiveOp) (right : Product)

inductive Expr where
  | sum (value : Sum)
  | compare (left : Sum) (location : Location) (relation : Relation) (right : Sum)

end

namespace Sign

def lexemes : Sign → List Lexeme
  | none => []
  | plus l => [⟨.punct .plus, l⟩]
  | minus l => [⟨.punct .minus, l⟩]

end Sign

/-! The tokens of a tree -/

mutual

def Simple.lexemes : Simple → List Lexeme
  | .literal l v => [⟨.literal v, l⟩]
  | .value place => place.lexemes
  | .countBefore l d place => ⟨.punct d.mark, l⟩ :: place.lexemes
  | .countAfter place l d => place.lexemes ++ [⟨.punct d.mark, l⟩]
  | .assign place l e => place.lexemes ++ ⟨.punct .assign, l⟩ :: e.lexemes
  | .call l name o args c =>
    ⟨.ident name, l⟩ :: ⟨.punct .leftParen, o⟩ :: (args.lexemes ++ [⟨.punct .rightParen, c⟩])
  | .cast o type c s => ⟨.punct .leftParen, o⟩ :: type :: ⟨.punct .rightParen, c⟩ :: s.lexemes
  | .paren o e c => ⟨.punct .leftParen, o⟩ :: (e.lexemes ++ [⟨.punct .rightParen, c⟩])
  | .unary l op s => ⟨.punct op.mark, l⟩ :: s.lexemes

def Place.lexemes : Place → List Lexeme
  | .name l name => [⟨.ident name, l⟩]
  | .element l name o e c =>
    ⟨.ident name, l⟩ :: ⟨.punct .leftBracket, o⟩ :: (e.lexemes ++ [⟨.punct .rightBracket, c⟩])

def Arguments.lexemes : Arguments → List Lexeme
  | .none => []
  | .some list => list.lexemes

def ArgumentList.lexemes : ArgumentList → List Lexeme
  | .last e => e.lexemes
  | .more e l rest => e.lexemes ++ ⟨.punct .comma, l⟩ :: rest.lexemes

def Product.lexemes : Product → List Lexeme
  | .simple s => s.lexemes
  | .times a l op b => a.lexemes ++ ⟨.punct op.mark, l⟩ :: b.lexemes

def Sum.lexemes : Sum → List Lexeme
  | .product sign a => sign.lexemes ++ a.lexemes
  | .plus a l op b => a.lexemes ++ ⟨.punct op.mark, l⟩ :: b.lexemes

def Expr.lexemes : Expr → List Lexeme
  | .sum a => a.lexemes
  | .compare a l relation b => a.lexemes ++ ⟨.punct relation.mark, l⟩ :: b.lexemes

end

/-! The translation of a tree -/

/-- A warning that an operand is converted by the operator at a location. -/
structure Warning where
  location : Location
  caution : Caution
deriving DecidableEq, Repr

/-- What an expression comes to. -/
structure Translation where
  ty : Ty
  code : List Instr
  warnings : List Warning
deriving DecidableEq, Repr

/-- A place, and the code that leaves an array and an index on the stack for an element. -/
structure Target where
  storage : Storage
  ty : Ty
  code : List Instr
  warnings : List Warning
deriving DecidableEq, Repr

/-- The arguments of a call: their own types and the code that passes them. -/
structure Passed where
  types : List Ty
  code : List Instr
  warnings : List Warning
deriving DecidableEq, Repr

namespace Target

/-- The code that takes the value of a place and counts it. -/
def loadCode : Storage → Option Count → List Instr
  | .element ref, none => [.loadElement ref]
  | .element ref, some mode => [.count (.element ref) mode]
  | storage, mode => .read storage :: (Instr.count? storage mode).toList

/-- The value of a place, which only a number can be counted for. -/
def load (x : Target) (mode : Option Count) : Option Translation :=
  if mode.isNone ∨ x.ty.isNumeric then
    some ⟨x.ty, x.code ++ loadCode x.storage mode, x.warnings⟩
  else none

/-- A place that a value is stored to; no value is left. -/
def store (x : Target) (value : Translation) : Option Translation :=
  if x.ty.assignable value.ty then
    some ⟨.void, x.code ++ value.code ++ (Instr.assignCast? x.ty value.ty).toList ++
      [.store x.storage], x.warnings ++ value.warnings⟩
  else none

end Target

namespace Passed

/-- One more argument in front of others. Without a parameter it is passed as it is. -/
def cons (param : Option Ty) (arg : Translation) (rest : Passed) : Option Passed :=
  match param with
  | none => some ⟨arg.ty :: rest.types, arg.code ++ rest.code, arg.warnings ++ rest.warnings⟩
  | some ty =>
    if ty.assignable arg.ty then
      some ⟨arg.ty :: rest.types, arg.code ++ (Instr.assignCast? ty arg.ty).toList ++ rest.code,
        arg.warnings ++ rest.warnings⟩
    else none

def nil : Passed := ⟨[], [], []⟩

/-- The parameters that the arguments of a call are given to; the host converts nothing. -/
def params : Meaning → List Ty
  | .method _ params _ | .function _ _ params _ => params
  | _ => []

/-- A call with passed arguments. -/
def call (args : Passed) : Meaning → Option Translation
  | .method returnType params (some index) =>
    if args.types.length = params.length then
      some ⟨returnType, args.code ++ [.call (.method index)], args.warnings⟩
    else none
  | .function builtin returnType params variadic =>
    if args.types.length = params.length ∨ (variadic ∧ params.length < args.types.length) then
      some ⟨returnType, args.code ++ [.call (.intrinsic builtin args.types.length)],
        args.warnings⟩
    else none
  | .external overloads => match Host.selectOverload overloads args.types with
    | some m => some ⟨m.returnType, args.code ++ [.call (.external m)], args.warnings⟩
    | none => none
  | _ => none

end Passed

namespace Translation

/-- Two operands and the operator at a location. -/
def operate (rule : OperandRule) (instr : Ty → Ty → Instr) (l : Location) (a b : Translation) :
    Option Translation :=
  (rule.result? a.ty b.ty).map fun r =>
    ⟨r.ty, a.code ++ b.code ++ [instr a.ty b.ty],
      a.warnings ++ b.warnings ++ (r.converted.map fun side => ⟨l, .converted side⟩).toList⟩

def multiply (op : MultiplicativeOp) (l : Location) (a b : Translation) : Option Translation :=
  operate op.rule (.multiplicative op) l a b

def add (op : AdditiveOp) (l : Location) (a b : Translation) : Option Translation :=
  if op.concatenates a.ty b.ty then
    some ⟨.string, a.code ++ b.code ++ [.concat], a.warnings ++ b.warnings⟩
  else operate op.rule (.additive op) l a b

def sign (a : Translation) : Sign → Option Translation
  | .none => some a
  | .plus _ => if a.ty = .int ∨ a.ty = .double then some a else none
  | .minus _ =>
    if a.ty = .int ∨ a.ty = .double then
      some { a with code := a.code ++ [.unary .neg a.ty] }
    else none

def negate (a : Translation) (op : UnaryOp) : Option Translation :=
  if op.accepts a.ty then some { a with code := a.code ++ [.unary op a.ty] } else none

def cast (a : Translation) (target : Ty) : Option Translation :=
  if target.castable a.ty then some ⟨target, a.code ++ [.cast target a.ty], a.warnings⟩ else none

def compare (relation : Relation) (a b : Translation) : Option Translation :=
  if a.ty ≠ .void ∧ a.ty = b.ty then
    some ⟨.bool, a.code ++ b.code ++ [.compare relation a.ty], a.warnings ++ b.warnings⟩
  else none

end Translation

/-- A variable, parameter or field as a place. -/
def scalar? : Meaning → Option Target
  | .field ref ty => some ⟨.field ref, ty, [], []⟩
  | .localVar index ty => some ⟨.localVar index, ty, [], []⟩
  | .param (some index) ty _ => some ⟨.param index, ty, [], []⟩
  | _ => none

/-- An element of an array field as a place. -/
def element? (index : Translation) : Meaning → Option Target
  | .field ref ty => match ty.element? with
    | some element =>
      if index.ty = .int then
        some ⟨.element ref, element, .loadBase ref :: index.code, index.warnings⟩
      else none
    | none => none
  | _ => none

mutual

/-- The translation of a tree, from the translations of its parts. -/
def Simple.translate (t : Table) : Simple → Option Translation
  | .literal _ v => some ⟨v.ty, [.const v], []⟩
  | .value place => do (← place.translate t).load none
  | .countBefore _ d place => do (← place.translate t).load (some d.before)
  | .countAfter place _ d => do (← place.translate t).load (some d.after)
  | .assign place _ e => do (← place.translate t).store (← e.translate t)
  | .call _ name _ args _ => do
    let symbol ← t.resolve name
    (← args.translate t (Passed.params symbol.meaning)).call symbol.meaning
  | .cast _ type _ s => do
    let target ← Action.typeOf? t (some type.token)
    (← s.translate t).cast target
  | .paren _ e _ => e.translate t
  | .unary _ op s => do (← s.translate t).negate op

def Place.translate (t : Table) : Place → Option Target
  | .name _ name => do scalar? (← t.resolve name).meaning
  | .element _ name _ e _ => do
    let symbol ← t.resolve name
    element? (← e.translate t) symbol.meaning

def Arguments.translate (t : Table) (params : List Ty) : Arguments → Option Passed
  | .none => some .nil
  | .some list => list.translate t params

def ArgumentList.translate (t : Table) (params : List Ty) : ArgumentList → Option Passed
  | .last e => do Passed.cons params.head? (← e.translate t) .nil
  | .more e _ rest => do
    Passed.cons params.head? (← e.translate t) (← rest.translate t params.tail)

def Product.translate (t : Table) : Product → Option Translation
  | .simple s => s.translate t
  | .times a l op b => do Translation.multiply op l (← a.translate t) (← b.translate t)

def Sum.translate (t : Table) : Sum → Option Translation
  | .product sign a => do (← a.translate t).sign sign
  | .plus a l op b => do Translation.add op l (← a.translate t) (← b.translate t)

def Expr.translate (t : Table) : Expr → Option Translation
  | .sum a => a.translate t
  | .compare a _ relation b => do Translation.compare relation (← a.translate t) (← b.translate t)

end

/-! Reading a tree back

Two trees can have the same tokens. A sum without a sign that begins with a minus is read
as one with a sign, and what stands in parentheses is read as a cast if it begins with a
type. -/

def Place.lead : Place → Token
  | .name _ x | .element _ x _ _ _ => .ident x

/-- The first token of a tree. -/
def Simple.lead : Simple → Token
  | .literal _ v => .literal v
  | .value place | .countAfter place _ _ | .assign place _ _ => place.lead
  | .countBefore _ d _ => .punct d.mark
  | .call _ name _ _ _ => .ident name
  | .cast .. | .paren .. => .punct .leftParen
  | .unary _ op _ => .punct op.mark

def Product.lead : Product → Token
  | .simple s => s.lead
  | .times a _ _ _ => a.lead

def Sum.lead : Sum → Token
  | .product .none a => a.lead
  | .product (.plus _) _ => .punct .plus
  | .product (.minus _) _ => .punct .minus
  | .plus a _ _ _ => a.lead

def Expr.lead : Expr → Token
  | .sum a | .compare a _ _ _ => a.lead

def ArgumentList.lead : ArgumentList → Token
  | .last e | .more e _ _ => e.lead

mutual

/-- No sum without a sign begins with a minus. -/
def Simple.Plain : Simple → Prop
  | .literal .. => True
  | .value place | .countBefore _ _ place | .countAfter place _ _ => place.Plain
  | .assign place _ e => place.Plain ∧ e.Plain
  | .call _ _ _ args _ => args.Plain
  | .cast _ _ _ s | .unary _ _ s => s.Plain
  | .paren _ e _ => e.Plain

def Place.Plain : Place → Prop
  | .name .. => True
  | .element _ _ _ e _ => e.Plain

def Arguments.Plain : Arguments → Prop
  | .none => True
  | .some list => list.Plain

def ArgumentList.Plain : ArgumentList → Prop
  | .last e => e.Plain
  | .more e _ rest => e.Plain ∧ rest.Plain

def Product.Plain : Product → Prop
  | .simple s => s.Plain
  | .times a _ _ b => a.Plain ∧ b.Plain

def Sum.Plain : Sum → Prop
  | .product sign a => (sign = .none → a.lead ≠ .punct .minus) ∧ a.Plain
  | .plus a _ _ b => a.Plain ∧ b.Plain

def Expr.Plain : Expr → Prop
  | .sum a => a.Plain
  | .compare a _ _ b => a.Plain ∧ b.Plain

end

mutual

/-- Nothing in parentheses begins with a type. -/
def Simple.Clear (t : Table) : Simple → Prop
  | .literal .. => True
  | .value place | .countBefore _ _ place | .countAfter place _ _ => place.Clear t
  | .assign place _ e => place.Clear t ∧ e.Clear t
  | .call _ _ _ args _ => args.Clear t
  | .cast _ _ _ s | .unary _ _ s => s.Clear t
  | .paren _ e _ => Action.typeOf? t (some e.lead) = none ∧ e.Clear t

def Place.Clear (t : Table) : Place → Prop
  | .name .. => True
  | .element _ _ _ e _ => e.Clear t

def Arguments.Clear (t : Table) : Arguments → Prop
  | .none => True
  | .some list => list.Clear t

def ArgumentList.Clear (t : Table) : ArgumentList → Prop
  | .last e => e.Clear t
  | .more e _ rest => e.Clear t ∧ rest.Clear t

def Product.Clear (t : Table) : Product → Prop
  | .simple s => s.Clear t
  | .times a _ _ b => a.Clear t ∧ b.Clear t

def Sum.Clear (t : Table) : Sum → Prop
  | .product _ a => a.Clear t
  | .plus a _ _ b => a.Clear t ∧ b.Clear t

def Expr.Clear (t : Table) : Expr → Prop
  | .sum a => a.Clear t
  | .compare a _ _ b => a.Clear t ∧ b.Clear t

end

mutual

/-- The identifiers that a tree uses as values. -/
def Simple.names : Simple → List String
  | .literal .. => []
  | .value place | .countBefore _ _ place | .countAfter place _ _ => place.names
  | .assign place _ e => place.names ++ e.names
  | .call _ name _ args _ => name :: args.names
  | .cast _ _ _ s | .unary _ _ s => s.names
  | .paren _ e _ => e.names

def Place.names : Place → List String
  | .name _ name => [name]
  | .element _ name _ e _ => name :: e.names

def Arguments.names : Arguments → List String
  | .none => []
  | .some list => list.names

def ArgumentList.names : ArgumentList → List String
  | .last e => e.names
  | .more e _ rest => e.names ++ rest.names

def Product.names : Product → List String
  | .simple s => s.names
  | .times a _ _ b => a.names ++ b.names

def Sum.names : Sum → List String
  | .product _ a => a.names
  | .plus a _ _ b => a.names ++ b.names

def Expr.names : Expr → List String
  | .sum a => a.names
  | .compare a _ _ b => a.names ++ b.names

end

/-- The translation of a tree in which no name of a type is used as a value. -/
def Expr.reference (t : Table) (e : Expr) : Option Translation :=
  if e.names.all fun name => (t.resolveType name).isNone then e.translate t else none

/-! A tree in which no type is used as a value cannot be mistaken for a cast. -/

theorem Place.typeOf_lead {t : Table} (place : Place)
    (h : ∀ x ∈ place.names, t.resolveType x = none) :
    Action.typeOf? t (some place.lead) = none := by
  cases place with
  | name _ x | element _ x _ _ _ => exact h x (by simp [Place.names])

theorem Simple.typeOf_lead {t : Table} (s : Simple)
    (h : ∀ x ∈ s.names, t.resolveType x = none) : Action.typeOf? t (some s.lead) = none := by
  cases s with
  | value place | countAfter place _ _ => exact place.typeOf_lead h
  | assign place _ e => exact place.typeOf_lead fun x hx => h x (by simp [Simple.names, hx])
  | call _ x _ _ _ => exact h x (by simp [Simple.names])
  | countBefore _ d _ => cases d <;> rfl
  | unary _ op _ => cases op <;> rfl
  | literal _ _ | cast _ _ _ _ | paren _ _ _ => rfl

theorem Product.typeOf_lead {t : Table} (a : Product)
    (h : ∀ x ∈ a.names, t.resolveType x = none) : Action.typeOf? t (some a.lead) = none := by
  match a with
  | .simple s => exact s.typeOf_lead h
  | .times a _ _ _ => exact a.typeOf_lead fun x hx => h x (by simp [Product.names, hx])

theorem Sum.typeOf_lead {t : Table} (a : Sum)
    (h : ∀ x ∈ a.names, t.resolveType x = none) : Action.typeOf? t (some a.lead) = none := by
  match a with
  | .product .none a => exact a.typeOf_lead h
  | .product (.plus _) _ | .product (.minus _) _ => rfl
  | .plus a _ _ _ => exact a.typeOf_lead fun x hx => h x (by simp [Sum.names, hx])

theorem Expr.typeOf_lead {t : Table} (e : Expr)
    (h : ∀ x ∈ e.names, t.resolveType x = none) : Action.typeOf? t (some e.lead) = none := by
  cases e with
  | sum a => exact a.typeOf_lead h
  | compare a _ _ _ => exact a.typeOf_lead fun x hx => h x (by simp [Expr.names, hx])

mutual

theorem Simple.clear_of_names {t : Table} (s : Simple)
    (h : ∀ x ∈ s.names, t.resolveType x = none) : s.Clear t := by
  cases s with
  | literal _ _ => trivial
  | value place | countBefore _ _ place | countAfter place _ _ => exact place.clear_of_names h
  | assign place _ e =>
      exact ⟨place.clear_of_names fun x hx => h x (by simp [Simple.names, hx]),
        e.clear_of_names fun x hx => h x (by simp [Simple.names, hx])⟩
  | call _ _ _ args _ =>
      exact args.clear_of_names fun x hx => h x (by simp [Simple.names, hx])
  | cast _ _ _ s | unary _ _ s => exact s.clear_of_names h
  | paren _ e _ => exact ⟨e.typeOf_lead h, e.clear_of_names h⟩

theorem Place.clear_of_names {t : Table} (place : Place)
    (h : ∀ x ∈ place.names, t.resolveType x = none) : place.Clear t := by
  cases place with
  | name _ _ => trivial
  | element _ _ _ e _ => exact e.clear_of_names fun x hx => h x (by simp [Place.names, hx])

theorem Arguments.clear_of_names {t : Table} (args : Arguments)
    (h : ∀ x ∈ args.names, t.resolveType x = Option.none) : args.Clear t := by
  cases args with
  | none => trivial
  | some list => exact list.clear_of_names h

theorem ArgumentList.clear_of_names {t : Table} (list : ArgumentList)
    (h : ∀ x ∈ list.names, t.resolveType x = none) : list.Clear t := by
  cases list with
  | last e => exact e.clear_of_names h
  | more e _ list =>
      exact ⟨e.clear_of_names fun x hx => h x (by simp [ArgumentList.names, hx]),
        list.clear_of_names fun x hx => h x (by simp [ArgumentList.names, hx])⟩

theorem Product.clear_of_names {t : Table} (a : Product)
    (h : ∀ x ∈ a.names, t.resolveType x = none) : a.Clear t := by
  match a with
  | .simple s => exact s.clear_of_names h
  | .times a _ _ b =>
      exact ⟨a.clear_of_names fun x hx => h x (by simp [Product.names, hx]),
        b.clear_of_names fun x hx => h x (by simp [Product.names, hx])⟩

theorem Sum.clear_of_names {t : Table} (a : Sum)
    (h : ∀ x ∈ a.names, t.resolveType x = none) : a.Clear t := by
  match a with
  | .product _ a => exact a.clear_of_names h
  | .plus a _ _ b =>
      exact ⟨a.clear_of_names fun x hx => h x (by simp [Sum.names, hx]),
        b.clear_of_names fun x hx => h x (by simp [Sum.names, hx])⟩

theorem Expr.clear_of_names {t : Table} (e : Expr)
    (h : ∀ x ∈ e.names, t.resolveType x = none) : e.Clear t := by
  cases e with
  | sum a => exact a.clear_of_names h
  | compare a _ _ b =>
      exact ⟨a.clear_of_names fun x hx => h x (by simp [Expr.names, hx]),
        b.clear_of_names fun x hx => h x (by simp [Expr.names, hx])⟩

end

end Tree
end OnePass
