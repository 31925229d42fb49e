import Lamcode.Source.LineMap
import Lamcode.Token.Basic

/-!
# Lamcode.Token.Scan — from source text to tokens

A source is a sequence of gaps and lexemes. A gap is a run of blanks or a comment, which goes from `#`
to the end of the line; a lexeme is the longest text at its place that forms a token. `Scan.chunk`
takes the next gap or lexeme off, and `Scan.tokens` repeats it to the end of the source or to the
first character at which neither starts.
-/

namespace Lamcode

/-- A character at which neither a gap nor a token starts. -/
structure ScanError where
  pos : Position
  found : Char
  deriving DecidableEq

namespace ScanError

/-- What the reader may have meant. -/
def suggestion (e : ScanError) : String :=
  match e.found with
  | '-' => "Functions are written 'x => body'; subtraction is 'sub a b'."
  | '\\' => "Functions are written 'x => body'."
  | '\x7b' | '\x7d' => "Blocks are written with 'where' and indentation."
  | '\x22' | '\x27' => "There are no strings; values are integers, tuples and functions."
  | '+' | '*' | '/' | '<' | '>' =>
    "Arithmetic is done with built-ins such as 'add', 'mult', 'div' and 'lt'."
  | c =>
    "Unexpected character(s): '" ++ c.toString ++
      "'. Names are letters, digits and underscores."

/-- The text of the error. -/
def message (e : ScanError) : String :=
  "Lex error at " ++ e.pos.text ++ ": '" ++ e.found.toString ++ "'. " ++ e.suggestion

end ScanError

namespace Scan

/-- The characters that may stand between two tokens. -/
def isSpace (c : Char) : Bool :=
  c == ' ' || c == '\t' || c == '\r' || c == '\n' || c == '\x0c'

/-- The characters that a name may start with. -/
def isNameStart (c : Char) : Bool :=
  c == '_' || c.isAlpha

/-- The characters that a name may hold. -/
def isNameChar (c : Char) : Bool :=
  c == '_' || c.isAlphanum

/-- The token of a mark that is one character long and starts no longer one. -/
def mark? : Char → Option Token
  | '(' => some .openParen
  | ')' => some .closeParen
  | '[' => some .openBracket
  | ']' => some .closeBracket
  | ';' => some .semicolon
  | ',' => some .comma
  | '$' => some .dollar
  | _ => none

/-- The token of a name: `where` is a mark. -/
def ofName (text : String) : Token :=
  if text == "where" then .whereMark else .name text

/-- The value of a run of decimal digits. -/
def digitsValue (ds : List Char) : Nat :=
  ds.foldl (fun n c => n * 10 + (c.toNat - '0'.toNat)) 0

/-- What stands at a place of the source. -/
inductive Kind where
  | gap
  | token (t : Token)
  | neither

/-- The next piece of a source: its kind, its characters and the characters behind it. -/
structure Chunk where
  kind : Kind
  text : List Char
  rest : List Char

/-- A piece that starts with `c` and goes on while `p` holds. -/
def Chunk.span (c : Char) (cs : List Char) (p : Char → Bool) (kind : List Char → Kind) : Chunk :=
  let more := cs.takeWhile p
  ⟨kind (c :: more), c :: more, cs.dropWhile p⟩

/-- The piece at the start of a source that begins with `c`. -/
def chunk (c : Char) (cs : List Char) : Chunk :=
  if isSpace c then .span c cs isSpace fun _ => .gap
  else if c == '#' then .span c cs (· != '\n') fun _ => .gap
  else if c.isDigit then .span c cs Char.isDigit fun ds => .token (.number (digitsValue ds))
  else if isNameStart c then .span c cs isNameChar fun ds => .token (ofName (String.ofList ds))
  else
    match mark? c with
    | some t => ⟨.token t, [c], cs⟩
    | none =>
      match c, cs with
      | '=', '>' :: rest => ⟨.token .arrow, ['=', '>'], rest⟩
      | '=', _ => ⟨.token .equals, ['='], cs⟩
      | '-', d :: rest =>
        if d.isDigit then
          let digits := d :: rest.takeWhile Char.isDigit
          ⟨.token (.number (-(digitsValue digits))), '-' :: digits, rest.dropWhile Char.isDigit⟩
        else ⟨.neither, [c], cs⟩
      | _, _ => ⟨.neither, [c], cs⟩

/-- A piece and what is behind it make up the source. -/
theorem chunk_text_append_rest (c : Char) (cs : List Char) :
    (chunk c cs).text ++ (chunk c cs).rest = c :: cs := by
  unfold chunk
  split
  · simp [Chunk.span]
  split
  · simp [Chunk.span]
  split
  · simp [Chunk.span]
  split
  · simp [Chunk.span]
  split
  · rfl
  split
  · rfl
  · rfl
  · split <;> simp
  · rfl

/-- A piece is not empty. -/
theorem chunk_text_ne_nil (c : Char) (cs : List Char) : (chunk c cs).text ≠ [] := by
  unfold chunk
  repeat' split
  all_goals simp [Chunk.span]

/-- What is behind a piece is shorter than the source. -/
theorem chunk_rest_length (c : Char) (cs : List Char) :
    (chunk c cs).rest.length < (c :: cs).length := by
  rw [← chunk_text_append_rest c cs, List.length_append]
  have := List.length_pos_iff.2 (chunk_text_ne_nil c cs)
  omega

/-- The tokens of the characters from `offset` on, each with the offset at which it starts, or the
offset and the character at which no piece starts. -/
def tokensFrom (offset : Nat) (source : List Char) : Except (Nat × Char) (List (Token × Nat)) :=
  match source with
  | [] => .ok []
  | c :: cs =>
    let piece := chunk c cs
    match piece.kind with
    | .gap => tokensFrom (offset + byteWidth piece.text) piece.rest
    | .token t =>
      (tokensFrom (offset + byteWidth piece.text) piece.rest).map ((t, offset) :: ·)
    | .neither => .error (offset, c)
termination_by source.length
decreasing_by all_goals exact chunk_rest_length c cs

/-- Gives each token its position; `above` is the line of the token before. -/
def place (lines : LineMap) (above : Nat) : List (Token × Nat) → List Lexeme
  | [] => []
  | (t, offset) :: rest =>
    let number := (lines.lineOf offset).1
    ⟨t, lines.position offset (number != above)⟩ :: place lines number rest

/-- The tokens of a source. -/
def tokens (source : String) : Except ScanError (List Lexeme) :=
  let lines := LineMap.ofString source
  match tokensFrom 0 source.toList with
  | .error (offset, c) => .error ⟨lines.position offset false, c⟩
  | .ok ts => .ok (place lines 0 ts)

end Scan

end Lamcode
