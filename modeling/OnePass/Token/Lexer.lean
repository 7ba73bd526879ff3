import OnePass.Binary64.Reading
import OnePass.Token.Basic

/-!
Scanning. A text is cut into pieces from its front; every piece takes at least one
character, so the pieces are a partition of the text. A piece is either layout, that
is blanks and comments, or a token. Tokens then get their locations by walking over
the pieces.
-/

namespace OnePass
namespace Lexer

def isLayout (c : Char) : Bool :=
  c == ' ' || c == '\t' || c == '\r' || c == '\n' || c == '\x0c'

def isNameStart (c : Char) : Bool :=
  c.isAlpha || c == '_'

def isNamePart (c : Char) : Bool :=
  isNameStart c || c.isDigit

inductive Piece where
  | layout
  | token (t : Token)
deriving DecidableEq, Repr

/-- A rule's verdict on a text whose first character is given: what its first piece
is, and how many characters behind the first one belong to it. -/
structure Cut where
  piece : Piece
  extra : Nat
deriving DecidableEq, Repr

def refuse (c : Char) (rest : List Char) (extra : Nat) : Cut :=
  ⟨.token (.unknown (String.ofList (c :: rest.take extra))), extra⟩

def commentLength : List Char → Option Nat
  | '*' :: '/' :: _ => some 2
  | _ :: rest => (commentLength rest).map (· + 1)
  | [] => none

/-- A slash begins a comment up to the end of the line, a comment between marks, or
is an operator. A comment between marks that is not closed is refused. -/
def cutSlash (rest : List Char) : Cut :=
  match rest with
  | '/' :: line => ⟨.layout, 1 + (line.takeWhile (· != '\n')).length⟩
  | '*' :: body => match commentLength body with
    | some n => ⟨.layout, 1 + n⟩
    | none => refuse '/' rest rest.length
  | _ => ⟨.token (.punct .slash), 0⟩

/-- The characters that continue a name. A dot continues it only before the start of
another name. -/
def nameLength : List Char → Nat
  | '.' :: c :: rest => if isNameStart c then nameLength rest + 2 else 0
  | c :: rest => if isNamePart c then nameLength rest + 1 else 0
  | [] => 0

def wordToken (text : String) : Token :=
  if text == "true" then .literal (.bool true)
  else if text == "false" then .literal (.bool false)
  else match Keyword.ofText? text with
    | some word => .keyword word
    | none => .ident text

/-- A word before a dot is a name, even where the dot does not continue it. -/
def cutName (c : Char) (rest : List Char) : Cut :=
  let n := nameLength rest
  let text := String.ofList (c :: rest.take n)
  ⟨.token (if (rest.drop n).head? = some '.' then .ident text else wordToken text), n⟩

def digitsLength (cs : List Char) : Nat :=
  (cs.takeWhile Char.isDigit).length

def digitsValue (ds : List Char) : Nat :=
  ds.foldl (fun n d => 10 * n + (d.toNat - '0'.toNat)) 0

def exponentSign : List Char → Int × Nat
  | '+' :: _ => (1, 1)
  | '-' :: _ => (-1, 1)
  | _ => (1, 0)

/-- The exponent that a text begins with and the number of its characters; without a
digit it is no exponent and takes none. -/
def exponentPart (cs : List Char) : Int × Nat :=
  match cs with
  | c :: rest =>
    let (sign, width) := exponentSign rest
    let n := digitsLength (rest.drop width)
    if (c == 'e' || c == 'E') && n != 0 then
      (sign * digitsValue ((rest.drop width).take n), 1 + width + n)
    else (0, 0)
  | [] => (0, 0)

def maxInt : Nat := 2147483647

/-- A number with a point and digits on both sides of it is a double; otherwise the
digits are an integer, unless it is too large. -/
def cutNumber (c : Char) (rest : List Char) : Cut :=
  let n := digitsLength rest
  let whole := c :: rest.take n
  let fractionAt := rest.drop (n + 1)
  let m := digitsLength fractionAt
  if (rest.drop n).head? = some '.' ∧ m ≠ 0 then
    let (exponent, width) := exponentPart (fractionAt.drop m)
    let value := Binary64.ofDecimal (digitsValue (whole ++ fractionAt.take m)) (exponent - m)
    ⟨.token (.literal (.double value)), n + 1 + m + width⟩
  else if digitsValue whole ≤ maxInt then
    ⟨.token (.literal (.int (Int32.ofNat (digitsValue whole)))), n⟩
  else refuse c rest n

def escapeValue (c : Char) : Option Char :=
  if c = 'n' then some '\n'
  else if c = 't' then some '\t'
  else if c = 'r' then some '\r'
  else if c = '0' then some '\x00'
  else if c = '\\' || c = '\'' || c = '"' then some c
  else none

def cutChar (rest : List Char) : Cut :=
  match rest with
  | '\\' :: c :: '\'' :: _ =>
    if c = '\n' then refuse '\'' rest 0
    else match escapeValue c with
      | some v => ⟨.token (.literal (.char v)), 3⟩
      | none => refuse '\'' rest 3
  | c :: '\'' :: _ =>
    if c = '\'' || c = '\\' || c = '\n' then refuse '\'' rest 0
    else ⟨.token (.literal (.char c)), 2⟩
  | _ => refuse '\'' rest 0

/-- The characters of a string before its closing quote, the end of the line, or a
backslash that escapes nothing. -/
def stringLength : List Char → Nat
  | '\\' :: c :: rest => if c = '\n' then 0 else stringLength rest + 2
  | c :: rest => if c = '"' || c = '\\' || c = '\n' then 0 else stringLength rest + 1
  | [] => 0

def unescape : List Char → Option (List Char)
  | '\\' :: c :: rest =>
    match escapeValue c, unescape rest with
    | some v, some vs => some (v :: vs)
    | _, _ => none
  | c :: rest => (unescape rest).map (c :: ·)
  | [] => some []

def cutString (rest : List Char) : Cut :=
  let n := stringLength rest
  if (rest.drop n).head? = some '"' then
    match unescape (rest.take n) with
    | some v => ⟨.token (.literal (.str (String.ofList v))), n + 1⟩
    | none => refuse '"' rest (n + 1)
  else refuse '"' rest n

def doublePunct : Char → Char → Option Punct
  | '&', '&' => some .ampAmp
  | '|', '|' => some .barBar
  | '+', '+' => some .plusPlus
  | '-', '-' => some .minusMinus
  | '<', '=' => some .lessEq
  | '=', '=' => some .eqEq
  | '!', '=' => some .bangEq
  | '>', '=' => some .greaterEq
  | _, _ => none

/-- Separators and operators of one character; the slash has its own rule. -/
def singlePunct : Char → Option Punct
  | '\x7b' => some .leftBrace
  | '\x7d' => some .rightBrace
  | '(' => some .leftParen
  | ')' => some .rightParen
  | '[' => some .leftBracket
  | ']' => some .rightBracket
  | ';' => some .semicolon
  | ',' => some .comma
  | '=' => some .assign
  | '+' => some .plus
  | '-' => some .minus
  | '*' => some .star
  | '%' => some .percent
  | '&' => some .amp
  | '|' => some .bar
  | '^' => some .caret
  | '~' => some .tilde
  | '!' => some .bang
  | '<' => some .less
  | '>' => some .greater
  | _ => none

def cutPunct (c : Char) (rest : List Char) : Cut :=
  match rest.head?.bind (doublePunct c) with
  | some p => ⟨.token (.punct p), 1⟩
  | none => match singlePunct c with
    | some p => ⟨.token (.punct p), 0⟩
    | none => refuse c rest 0

def cut (c : Char) (rest : List Char) : Cut :=
  if isLayout c then ⟨.layout, (rest.takeWhile isLayout).length⟩
  else if c = '/' then cutSlash rest
  else if isNameStart c then cutName c rest
  else if c.isDigit then cutNumber c rest
  else if c = '\'' then cutChar rest
  else if c = '"' then cutString rest
  else cutPunct c rest

def pieces : List Char → List (Piece × List Char)
  | [] => []
  | c :: rest =>
    let first := cut c rest
    (first.piece, c :: rest.take first.extra) :: pieces (rest.drop first.extra)
termination_by cs => cs.length
decreasing_by simp only [List.length_cons, List.length_drop]; omega

/-- The tokens among some pieces, of which the first stands at `l`. -/
def locate (l : Location) : List (Piece × List Char) → Tokens
  | [] => ⟨[], l⟩
  | (piece, text) :: more =>
    let later := locate (l.advanceOver text) more
    match piece with
    | .layout => later
    | .token t => { later with lexemes := ⟨t, l⟩ :: later.lexemes }

end Lexer

def tokenize (source : String) : Tokens :=
  Lexer.locate .start (Lexer.pieces source.toList)

end OnePass
