import Lamcode.Text.Blank
import Lamcode.Text.Numeral
import Lamcode.Text.Quoted

/-!
# Lamcode.Image — program images as text

An image is a list of words. Its text holds one numeral per word, with commas, blanks or both in
between; `Image.render` puts one comma between two words and nothing else.
-/

namespace Lamcode.Image

/-- Why a text is no image. -/
inductive Error where
  /-- The piece with `index` pieces in front of it is no numeral. -/
  | badWord (index : Nat) (text : String)
  | empty
  deriving DecidableEq

/-- The text of an error. -/
def Error.message : Error → String
  | .badWord index text =>
    "word " ++ Nat.repr index ++ " is not a decimal integer: " ++ Text.quote text
  | .empty => "image has no words"

/-- Whether the character separates two words. -/
def isSeparator (c : Char) : Bool :=
  c == ',' || Text.isBlank c

/-- The longest pieces of the text without a separator, in order. -/
def pieces (cs : List Char) : List (List Char) :=
  match cs with
  | [] => []
  | c :: rest =>
    if isSeparator c then pieces rest
    else (c :: rest.takeWhile (!isSeparator ·)) :: pieces (rest.dropWhile (!isSeparator ·))
termination_by cs.length
decreasing_by
  · simp
  · have := (List.dropWhile_suffix (fun x => !isSeparator x) (l := rest)).length_le
    simp only [List.length_cons]
    omega

/-- Reads each piece as a word; `index` pieces came before. -/
def readPieces (index : Nat) : List (List Char) → Except Error (List Int)
  | [] => .ok []
  | piece :: rest =>
    match Text.Numeral.readChars? piece with
    | none => .error (.badWord index (String.ofList piece))
    | some w => (readPieces (index + 1) rest).map (w :: ·)

/-- The words of an image text. -/
def parse (text : String) : Except Error (List Int) :=
  match pieces text.toList with
  | [] => .error .empty
  | ps => readPieces 0 ps

/-- The words in decimal with a comma between two of them. -/
def render (words : List Int) : String :=
  ",".intercalate (words.map Text.Numeral.write)

end Lamcode.Image
