/-!
# Lamcode.Source.Position — places in a source text
-/

namespace Lamcode

/-- Where a token or a node starts in the source. Lines and columns count from 1, columns in bytes. -/
structure Position where
  line : Nat
  column : Nat
  /-- How many spaces and tabs the line starts with. -/
  indent : Nat
  /-- Whether no token stands in front of it on its line. -/
  opensLine : Bool
  deriving DecidableEq

namespace Position

/-- The place of code that no source stands behind. -/
def generated : Position :=
  ⟨0, 0, 0, true⟩

/-- Line and column with a colon in between. -/
def text (p : Position) : String :=
  Nat.repr p.line ++ ":" ++ Nat.repr p.column

end Position

end Lamcode
