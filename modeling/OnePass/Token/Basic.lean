import OnePass.Literal
import OnePass.Location

/-!
Tokens, located tokens, and the finite stream of them that a source text gives.
-/

namespace OnePass

inductive Keyword where
  | ifWord | elseWord | whileWord | loopWord | infiniteWord | returnWord | breakWord | continueWord
deriving DecidableEq, Repr

namespace Keyword

def text : Keyword → String
  | ifWord => "if"
  | elseWord => "else"
  | whileWord => "while"
  | loopWord => "loop"
  | infiniteWord => "infinite"
  | returnWord => "return"
  | breakWord => "break"
  | continueWord => "continue"

def all : List Keyword :=
  [ifWord, elseWord, whileWord, loopWord, infiniteWord, returnWord, breakWord, continueWord]

def ofText? (s : String) : Option Keyword :=
  all.find? (·.text == s)

end Keyword

inductive Punct where
  | leftBrace | rightBrace | leftParen | rightParen | leftBracket | rightBracket
  | semicolon | comma | assign
  | plus | minus | star | slash | percent
  | amp | ampAmp | bar | barBar | caret | tilde | bang
  | plusPlus | minusMinus
  | less | lessEq | eqEq | bangEq | greaterEq | greater
deriving DecidableEq, Repr

namespace Punct

def text : Punct → String
  | leftBrace => "\x7b"
  | rightBrace => "\x7d"
  | leftParen => "("
  | rightParen => ")"
  | leftBracket => "["
  | rightBracket => "]"
  | semicolon => ";"
  | comma => ","
  | assign => "="
  | plus => "+"
  | minus => "-"
  | star => "*"
  | slash => "/"
  | percent => "%"
  | amp => "&"
  | ampAmp => "&&"
  | bar => "|"
  | barBar => "||"
  | caret => "^"
  | tilde => "~"
  | bang => "!"
  | plusPlus => "++"
  | minusMinus => "--"
  | less => "<"
  | lessEq => "<="
  | eqEq => "=="
  | bangEq => "!="
  | greaterEq => ">="
  | greater => ">"

end Punct

inductive Token where
  | ident (name : String)
  | keyword (word : Keyword)
  | punct (mark : Punct)
  | literal (value : Literal)
  /-- Source text that no lexical rule accepts. -/
  | unknown (text : String)
deriving DecidableEq, Repr

namespace Token

def isLiteral : Token → Bool
  | literal _ => true
  | _ => false

def describe : Token → String
  | ident name => s!"identifier '{name}'"
  | keyword word => s!"'{word.text}'"
  | punct mark => s!"'{mark.text}'"
  | literal (.int v) => s!"integer {v.toInt}"
  | literal (.double v) => s!"double {v.write .plain}"
  | literal (.bool v) => s!"boolean {Literal.boolText v}"
  | literal (.char c) => s!"character {Text.quotedChar c}"
  | literal (.str s) => s!"string {Text.quotedString s}"
  | unknown text => s!"unrecognized input '{text}'"

def describe? : Option Token → String
  | some t => t.describe
  | none => "end of file"

end Token

structure Lexeme where
  token : Token
  location : Location
deriving DecidableEq, Repr

/-- The tokens of a text from some point on, and the location where the text ends. -/
structure Tokens where
  lexemes : List Lexeme
  finish : Location
deriving DecidableEq, Repr

namespace Tokens

def current? (s : Tokens) : Option Token :=
  s.lexemes.head?.map Lexeme.token

/-- The location of the current token, or of the end of the text. -/
def here (s : Tokens) : Location :=
  match s.lexemes with
  | l :: _ => l.location
  | [] => s.finish

/-- The stream behind its current token; the end of a stream stays its end. -/
def tail (s : Tokens) : Tokens :=
  { s with lexemes := s.lexemes.tail }

def remaining (s : Tokens) : Nat :=
  s.lexemes.length

end Tokens
end OnePass
