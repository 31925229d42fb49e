import Lamcode.Token.Basic

/-!
# Lamcode.Tree.Read — what a reader finds and where it stops

Layout decides where a value ends: a token that opens a line at or left of the indent of the assignment's
own line belongs to the next statement, and an argument may not stand left of the function it is applied
to. What is read comes with the tokens that are left and the proof that they are fewer than there were.
-/

namespace Lamcode

/-- What a reader wanted to find. -/
inductive Expected where
  | name
  | equals
  | value
  | closeParen
  | tupleSeparator
  deriving DecidableEq

namespace Expected

/-- The code of the error for something else. -/
def code : Expected → String
  | .name => "FNT-P001"
  | .equals => "FNT-P002"
  | .value => "FNT-P003"
  | .closeParen => "FNT-P004"
  | .tupleSeparator => "FNT-P005"

/-- How a message refers to it. -/
def describe : Expected → String
  | .name => "a name"
  | .equals => Token.equals.describe
  | .value => "a value"
  | .closeParen => Token.closeParen.describe
  | .tupleSeparator => "',' or ']' in tuple"

end Expected

/-- Something other than what was wanted, or nothing at all. -/
structure ReadError where
  pos : Position
  expected : Expected
  found : Option Token
  deriving DecidableEq

namespace ReadError

/-- What was expected and what was found. -/
def detail (e : ReadError) : String :=
  "expected " ++ e.expected.describe ++ ", found " ++
    (e.found.map Token.describe).getD "end of input"

/-- The text of the error. -/
def message (e : ReadError) : String :=
  "Parse error at " ++ e.pos.text ++ ": " ++ e.detail

end ReadError

namespace Read

/-- What was read from `ts`, and the tokens behind it. -/
structure Parsed (ts : List Lexeme) (β : Type) where
  value : β
  rest : List Lexeme
  shorter : rest.length < ts.length

namespace Parsed

variable {ts : List Lexeme} {β γ : Type}

/-- The value that the next token alone stands for. -/
def one {t : Lexeme} (value : β) : Parsed (t :: ts) β :=
  ⟨value, ts, Nat.lt_succ_self _⟩

/-- What is read behind a token. -/
def behind {t : Lexeme} (p : Parsed ts β) : Parsed (t :: ts) β :=
  ⟨p.value, p.rest, Nat.lt_succ_of_lt p.shorter⟩

/-- Leaves out the token that follows. -/
def past {t : Lexeme} {rest : List Lexeme} (p : Parsed ts β) (h : p.rest = t :: rest) :
    Parsed ts β :=
  ⟨p.value, rest, Nat.lt_trans (h ▸ Nat.lt_succ_self rest.length) p.shorter⟩

/-- What is read after `p`. -/
def after (p : Parsed ts β) (q : Parsed p.rest γ) : Parsed ts γ :=
  ⟨q.value, q.rest, Nat.lt_trans q.shorter p.shorter⟩

/-- Changes the value. -/
def map (f : β → γ) (p : Parsed ts β) : Parsed ts γ :=
  ⟨f p.value, p.rest, p.shorter⟩

end Parsed

/-- The error at the next token. At the end of the input it is reported at `last`, the position of
the last token. -/
def fail {β : Type} (last : Position) (expected : Expected) (ts : List Lexeme) :
    Except ReadError β :=
  match ts with
  | [] => .error ⟨last, expected, none⟩
  | t :: _ => .error ⟨t.pos, expected, some t.token⟩

/-- Whether the statement whose line has indent `margin` ends in front of these tokens. -/
def statementEnds (margin : Nat) : List Lexeme → Bool
  | [] => true
  | t :: _ => t.pos.opensLine && t.pos.indent ≤ margin

/-- Whether a value can start with the token. -/
def startsValue : Token → Bool
  | .name _ | .number _ | .openParen | .openBracket | .dollar => true
  | _ => false

/-- Whether an argument of a function on a line with indent `column` comes next. -/
def argumentFollows (margin column : Nat) : List Lexeme → Bool
  | [] => false
  | t :: ts => startsValue t.token && column ≤ t.pos.indent && !statementEnds margin (t :: ts)

/-- Whether another clause of the same `where` block comes next: the block's owner is not on the
clause's line, and the next token is on a line with the clause's indent. -/
def clauseFollows (owner clause : Position) : List Lexeme → Bool
  | [] => false
  | t :: _ => clause.line != owner.line && t.pos.indent == clause.indent

end Read

end Lamcode
