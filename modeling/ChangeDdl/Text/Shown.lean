import ChangeDdl.Text.Graphic

/-!
Text as messages show it: between double quotes, with every character that would be lost or
misread written as an escape.
-/

set_option autoImplicit false
set_option relaxedAutoImplicit false

namespace ChangeDdl.Text

/-- The code point of a character in lower-case hexadecimal, without leading zeros. -/
def codePoint (c : Char) : String :=
  String.ofList (Nat.toDigits 16 c.toNat)

def showChar (c : Char) : String :=
  if c = '"' then "\\\""
  else if c = '\\' then "\\\\"
  else if c = '\n' then "\\n"
  else if c = '\r' then "\\r"
  else if c = '\t' then "\\t"
  else if c = '\x00' then "\\0"
  else if isGraphic c then c.toString
  else "\\u\x7b" ++ codePoint c ++ "\x7d"

/-- The text between double quotes, each character shown. -/
def shown (s : String) : String :=
  "\"" ++ String.join (s.toList.map showChar) ++ "\""

end ChangeDdl.Text
