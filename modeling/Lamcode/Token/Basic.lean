import Lamcode.Source.Position
import Lamcode.Text.Numeral

/-!
# Lamcode.Token.Basic — the tokens of the language
-/

namespace Lamcode

/-- A token: a mark, an integer or a name. -/
inductive Token where
  | whereMark
  | openParen
  | closeParen
  | openBracket
  | closeBracket
  | arrow
  | equals
  | semicolon
  | comma
  | dollar
  | number (value : Int)
  | name (text : String)
  deriving DecidableEq

namespace Token

/-- How a message refers to the token. -/
def describe : Token → String
  | .whereMark => "'where'"
  | .openParen => "'('"
  | .closeParen => "')'"
  | .openBracket => "'['"
  | .closeBracket => "']'"
  | .arrow => "'=>'"
  | .equals => "'='"
  | .semicolon => "';'"
  | .comma => "','"
  | .dollar => "'$'"
  | .number value => "number " ++ Text.Numeral.write value
  | .name text => "name '" ++ text ++ "'"

end Token

/-- A token with the position at which it starts. -/
structure Lexeme where
  token : Token
  pos : Position
  deriving DecidableEq

end Lamcode
