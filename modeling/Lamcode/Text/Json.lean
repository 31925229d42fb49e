import Lamcode.Text.Numeral

/-!
# Lamcode.Text.Json — JSON as text

Two layouts of the same values: `Json.compact` without any space, and `Json.indented` with one element
or field per line, two spaces deeper than the brackets around it. Strings escape the quote, the
backslash and the control characters below U+0020, and nothing else.
-/

namespace Lamcode

/-- A JSON value. The fields of an object keep their order. -/
inductive Json where
  | bool (b : Bool)
  | num (n : Int)
  | str (s : String)
  | arr (items : List Json)
  | obj (fields : List (String × Json))

namespace Json

/-- A hexadecimal digit in lower case. -/
def hexDigit (n : Nat) : Char :=
  if n < 10 then Char.ofNat ('0'.toNat + n) else Char.ofNat ('a'.toNat + (n - 10))

/-- One character as it stands in a JSON string. -/
def escapeChar (c : Char) : String :=
  if c == '\x22' then "\\\""
  else if c == '\\' then "\\\\"
  else if c == '\x08' then "\\b"
  else if c == '\x0c' then "\\f"
  else if c == '\n' then "\\n"
  else if c == '\r' then "\\r"
  else if c == '\t' then "\\t"
  else if c.toNat < 0x20 then
    "\\u00" ++ String.ofList [hexDigit (c.toNat / 16), hexDigit (c.toNat % 16)]
  else c.toString

/-- The text as a JSON string. -/
def quoted (s : String) : String :=
  "\"" ++ String.join (s.toList.map escapeChar) ++ "\""

/-- The text of a truth value. -/
def boolText (b : Bool) : String :=
  if b then "true" else "false"

mutual
/-- The value without any space. -/
def compact : Json → String
  | .bool b => boolText b
  | .num n => Text.Numeral.write n
  | .str s => quoted s
  | .arr items => "[" ++ ",".intercalate (compactItems items) ++ "]"
  | .obj fields => "\x7b" ++ ",".intercalate (compactFields fields) ++ "\x7d"

/-- The items of an array without any space. -/
def compactItems : List Json → List String
  | [] => []
  | v :: rest => v.compact :: compactItems rest

/-- The fields of an object without any space. -/
def compactFields : List (String × Json) → List String
  | [] => []
  | (key, v) :: rest => (quoted key ++ ":" ++ v.compact) :: compactFields rest
end

/-- A line break and two spaces for each level of depth. -/
def newline (depth : Nat) : String :=
  "\n" ++ String.ofList (List.replicate (2 * depth) ' ')

/-- Elements between brackets, each one on a line of its own; brackets alone if there are none. -/
def block (opening closing : String) (depth : Nat) (elements : List String) : String :=
  if elements.isEmpty then opening ++ closing
  else
    opening ++ newline (depth + 1) ++ ("," ++ newline (depth + 1)).intercalate elements ++
      newline depth ++ closing

mutual
/-- The value with a line for each element and each field. -/
def indented (depth : Nat) : Json → String
  | .bool b => boolText b
  | .num n => Text.Numeral.write n
  | .str s => quoted s
  | .arr items => block "[" "]" depth (indentedItems (depth + 1) items)
  | .obj fields => block "\x7b" "\x7d" depth (indentedFields (depth + 1) fields)

/-- The items of an array, each one in several lines. -/
def indentedItems (depth : Nat) : List Json → List String
  | [] => []
  | v :: rest => v.indented depth :: indentedItems depth rest

/-- The fields of an object, each one in several lines. -/
def indentedFields (depth : Nat) : List (String × Json) → List String
  | [] => []
  | (key, v) :: rest => (quoted key ++ ": " ++ v.indented depth) :: indentedFields depth rest
end

end Json

end Lamcode
