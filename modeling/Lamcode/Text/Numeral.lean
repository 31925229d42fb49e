/-!
# Lamcode.Text.Numeral — decimal integers as text

Two directions. `Numeral.write` is the one decimal form of an integer: a minus sign if it is negative,
then its digits without leading zeros. `Numeral.read?` accepts more than that form: one leading `+`
in place of the minus sign, leading zeros, and an underscore anywhere behind the first digit.
-/

namespace Lamcode.Text.Numeral

/-- The one decimal form of an integer. -/
def write : Int → String
  | .ofNat n => Nat.repr n
  | .negSucc n => "-" ++ Nat.repr (n + 1)

/-- Reads the digits of a magnitude on top of the value read so far; underscores are passed over. -/
def readDigits? : List Char → Nat → Option Nat
  | [], value => some value
  | c :: rest, value =>
    if c == '_' then readDigits? rest value
    else if c.isDigit then readDigits? rest (value * 10 + (c.toNat - '0'.toNat))
    else none

/-- Reads an unsigned magnitude: not empty and not starting with an underscore. -/
def readMagnitude? : List Char → Option Nat
  | [] => none
  | c :: rest => if c == '_' then none else readDigits? (c :: rest) 0

/-- Reads a numeral: a sign, at most one, and a magnitude. -/
def readChars? : List Char → Option Int
  | '-' :: rest => (readMagnitude? rest).map fun n => -(n : Int)
  | '+' :: rest => (readMagnitude? rest).map Int.ofNat
  | cs => (readMagnitude? cs).map Int.ofNat

/-- Reads a numeral from text. -/
def read? (s : String) : Option Int :=
  readChars? s.toList

end Lamcode.Text.Numeral
