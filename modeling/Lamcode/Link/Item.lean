import Lamcode.Link.Label

/-!
# Lamcode.Link.Item — the words of a program before they are linked
-/

namespace Lamcode

/-- The content of one memory word before linking. -/
inductive Word where
  | num (n : Int)
  /-- The address of the word that carries the label. -/
  | addr (l : Label)
  | sum (parts : List Word)

/-- A word with the labels that stand for its address. -/
structure Cell where
  word : Word
  labels : List Label

namespace Cell

/-- A word without labels. -/
def plain (w : Word) : Cell :=
  ⟨w, []⟩

/-- A word that one label stands for. -/
def labeled (w : Word) (l : Label) : Cell :=
  ⟨w, [l]⟩

/-- Whether some label stands for the word. -/
def isLabeled (c : Cell) : Bool :=
  !c.labels.isEmpty

end Cell

/-- One element of a program under construction. -/
inductive Item where
  | cell (c : Cell)
  /-- The label stands for the next cell. -/
  | hanging (l : Label)

namespace Item

/-- A word without labels. -/
def word (w : Word) : Item :=
  .cell (.plain w)

/-- A word that one label stands for. -/
def labeled (w : Word) (l : Label) : Item :=
  .cell (.labeled w l)

/-- Whether the item takes up a word. -/
def isCell : Item → Bool
  | .cell _ => true
  | .hanging _ => false

end Item

end Lamcode
