/-!
Colours, as a terminal is told of them.
-/

namespace ConceptForest

/-- A colour of text. -/
inductive Colour where
  | red
  | yellow
  | blue
  deriving DecidableEq, Repr

namespace Colour

/-- What makes a terminal go back to its own colour. -/
def reset : String := "\x1b[0m"

/-- What makes a terminal write in a colour. -/
def start : Colour → String
  | red => "\x1b[31m"
  | yellow => "\x1b[33m"
  | blue => "\x1b[34m"

/-- A text in a colour. Where the text itself goes back to the terminal's colour, the colour begins
anew. -/
def paint (colour : Colour) (text : String) : String :=
  colour.start ++ text.replace reset (reset ++ colour.start) ++ reset

end Colour

end ConceptForest
