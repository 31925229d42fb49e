/-!
# Lamcode.Text.Blank — white space, as Unicode defines it

`Char.isWhitespace` knows four ASCII characters only; image text and console lines are cut at every
character with the Unicode property White_Space, which also covers the vertical tab, the form feed,
the no-break spaces and the two separators U+2028 and U+2029. The zero-width space U+200B and the
byte order mark U+FEFF do not have the property.
-/

namespace Lamcode.Text

/-- The characters with the Unicode property White_Space. -/
def isBlank (c : Char) : Bool :=
  let n := c.toNat
  (0x09 ≤ n && n ≤ 0x0D) || n == 0x20 || n == 0x85 || n == 0xA0 || n == 0x1680 ||
    (0x2000 ≤ n && n ≤ 0x200A) || n == 0x2028 || n == 0x2029 || n == 0x202F || n == 0x205F ||
    n == 0x3000

/-- The characters with the blanks at both ends dropped. -/
def trimChars (cs : List Char) : List Char :=
  ((cs.dropWhile isBlank).reverse.dropWhile isBlank).reverse

/-- The text with the blanks at both ends dropped. -/
def trim (s : String) : String :=
  String.ofList (trimChars s.toList)

end Lamcode.Text
