import Stacklet.Text.Hidden

/-!
Quoted text. Quotes, backslashes and the common control characters are escaped by a letter; any
other character that would not show on its own is written as its code point.
-/

namespace Stacklet.Text

def hexadecimal (n : Nat) : String := String.ofList (Nat.toDigits 16 n)

def escape (c : Char) : String :=
  if c = '"' then "\\\""
  else if c = '\\' then "\\\\"
  else if c = '\x00' then "\\0"
  else if c = '\t' then "\\t"
  else if c = '\n' then "\\n"
  else if c = '\r' then "\\r"
  else if isHidden c then "\\u\x7b" ++ hexadecimal c.toNat ++ "\x7d"
  else c.toString

def quoted (text : String) : String := "\"" ++ String.join (text.toList.map escape) ++ "\""

/-- Texts of the members of a list, in brackets. -/
def bracketed (members : List String) : String := "[" ++ ", ".intercalate members ++ "]"

end Stacklet.Text
