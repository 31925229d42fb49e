import Lamcode.Text.Printable

/-!
# Lamcode.Text.Quoted — text between double quotes

How a message shows text that it was given: in double quotes, with the quote, the backslash and the
four common control characters written as two-character escapes and every other character that
cannot be shown written by its code.
-/

namespace Lamcode.Text

/-- A backslash, `u` and the code in lower-case hexadecimal digits between braces. -/
def codeEscape (c : Char) : String :=
  "\\u\x7b" ++ String.ofList (Nat.toDigits 16 c.toNat) ++ "\x7d"

/-- One character as it stands between double quotes. -/
def quoteChar (c : Char) : String :=
  if c == '\x22' then "\\\""
  else if c == '\\' then "\\\\"
  else if c == '\n' then "\\n"
  else if c == '\r' then "\\r"
  else if c == '\t' then "\\t"
  else if c.toNat == 0 then "\\0"
  else if isPrintable c then c.toString
  else codeEscape c

/-- The text in double quotes. -/
def quote (s : String) : String :=
  "\"" ++ String.join (s.toList.map quoteChar) ++ "\""

end Lamcode.Text
