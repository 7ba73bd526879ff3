import OnePass.Text.Glyph

/-!
Quoted texts. Between the quotes, the quote itself and the backslash stand behind
a backslash, four control characters have a letter, and every other character
without a glyph is written by its code point.
-/

namespace OnePass
namespace Text

def codePoint (c : Char) : List Char :=
  '\\' :: 'u' :: '\x7b' :: Nat.toDigits 16 c.toNat ++ ['\x7d']

/-- A character as it stands between two `quote` characters. -/
def escape (quote c : Char) : List Char :=
  if c = '\x00' then ['\\', '0']
  else if c = '\t' then ['\\', 't']
  else if c = '\r' then ['\\', 'r']
  else if c = '\n' then ['\\', 'n']
  else if c = '\\' || c = quote then ['\\', c]
  else if hasGlyph c then [c]
  else codePoint c

def quoted (quote : Char) (cs : List Char) : List Char :=
  quote :: cs.flatMap (escape quote) ++ [quote]

def quotedChar (c : Char) : String :=
  String.ofList (quoted '\'' [c])

def quotedString (s : String) : String :=
  String.ofList (quoted '"' s.toList)

def bracketed (items : List String) : String :=
  "[" ++ ", ".intercalate items ++ "]"

end Text
end OnePass
