/-!
# Lamcode.Command.Path — paths and what stands in their way

A path is read as the names on it. It is absolute when it starts with a slash, and it has to lead to a
directory when it ends with one.
-/

namespace Lamcode

/-- Why a path does not lead to a file that can be read or written. -/
inductive Obstacle where
  | missing
  | notDirectory
  | isDirectory
  | nameTooLong
  deriving DecidableEq

/-- The words of the operating system for an obstacle. -/
def Obstacle.message : Obstacle → String
  | .missing => "No such file or directory (os error 2)"
  | .notDirectory => "Not a directory (os error 20)"
  | .isDirectory => "Is a directory (os error 21)"
  | .nameTooLong => "File name too long (os error 36)"

/-- The names on the way to a file or directory, and what the slashes around them say. -/
structure Path where
  absolute : Bool
  names : List String
  slashed : Bool
  deriving DecidableEq

namespace Path

/-- The bytes of the longest path. -/
def maxLength : Nat := 4095

/-- The bytes of the longest name on a path. -/
def maxNameLength : Nat := 255

/-- Reads a path. Several slashes count as one. -/
def ofText (text : String) : Path :=
  ⟨text.toList.head? == some '/',
    (text.splitOn "/").filter (!·.isEmpty),
    text.toList.getLast? == some '/'⟩

/-- Reads a path that is not too long. -/
def ofText? (text : String) : Except Obstacle Path :=
  if maxLength < text.utf8ByteSize then .error .nameTooLong else .ok (ofText text)

/-- Whether the last name on the path stands for something that may still have to be made, and not for a
directory that the walk has come from or is in. -/
def endsInName (p : Path) : Bool :=
  match p.names.getLast? with
  | none => false
  | some name => name != "." && name != ".."

/-- The names to follow in order to write a file. Nothing is written under a name with a slash behind
it, so the walk then ends in the directory that would hold it. -/
def target (p : Path) : List String :=
  if p.slashed && p.endsInName then p.names.dropLast ++ ["."] else p.names

end Path

end Lamcode
