import ConceptForest.Text.Position

/-!
Why a line of input is refused.
-/

namespace ConceptForest.Grammar

open ConceptForest.Text (Position)

/-- What a closing mark was missing for. -/
inductive Enclosure where
  | phrase
  | quotation
  | snippet
  | block
  deriving DecidableEq, Repr

/-- What a reader calls the enclosure. -/
def Enclosure.name : Enclosure → String
  | phrase => "[[phrase]]"
  | quotation => "string literal"
  | snippet => "context block"
  | block => "[block]"

/-- Why a line of input is refused. -/
inductive GrammarError where
  /-- Another token was needed at this place. -/
  | unexpectedToken (expected found : String) (position : Position)
  /-- The input stops where a token was needed. -/
  | unexpectedEnd (expected : String)
  /-- A bracket opens one level more than a line may use. -/
  | nestingTooDeep (limit : Nat) (position : Position)
  /-- An enclosure opens at this place and is never closed. -/
  | unterminated (enclosure : Enclosure) (position : Position)
  deriving DecidableEq, Repr

/-- The text of an error. -/
def GrammarError.message : GrammarError → String
  | unexpectedToken expected found p =>
    s!"Unexpected token at line {p.line}, column {p.column}: expected {expected}, found '{found}'"
  | unexpectedEnd expected => s!"Unexpected end of input: expected {expected}"
  | nestingTooDeep limit p =>
    s!"Blocks nested deeper than {limit} levels at line {p.line}, column {p.column}"
  | unterminated enclosure p =>
    s!"Unterminated {enclosure.name} starting at line {p.line}, column {p.column}"

end ConceptForest.Grammar
