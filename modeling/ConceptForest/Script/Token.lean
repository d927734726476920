import ConceptForest.Text.Position

/-!
Tokens of a snippet.

A snippet is read as logical lines. Besides what is written, there are tokens for the layout: the
end of a logical line, and the opening and closing of an indented block. Of a string only the
replacement fields of a formatted one matter to the analysis.
-/

namespace ConceptForest.Script

open ConceptForest.Text (Position)

/-- The smallest meaningful pieces of a snippet. -/
inductive Lexeme where
  /-- A name or a keyword. -/
  | name (text : String)
  | number
  /-- A string, with the sources of its replacement fields. -/
  | string (fields : List String)
  /-- An operator, a bracket or a punctuation mark. -/
  | op (text : String)
  | newline
  | indent
  | dedent
  | endOfInput
  deriving DecidableEq, Repr

/-- How an error speaks of what it met. -/
def Lexeme.describe : Lexeme → String
  | name text => s!"'{text}'"
  | number => "number"
  | string _ => "string"
  | op text => s!"'{text}'"
  | newline => "end of line"
  | indent => "indent"
  | dedent => "dedent"
  | endOfInput => "end of input"

/-- A lexeme and where it begins. -/
structure Token where
  lexeme : Lexeme
  position : Position
  deriving DecidableEq, Repr

end ConceptForest.Script
