import ConceptForest.Text.Position

/-!
Why a snippet cannot be analyzed.
-/

namespace ConceptForest.Script

open ConceptForest.Text (Position)

/-- What is wrong with a snippet. -/
inductive Fault where
  /-- The snippet ends inside of brackets. -/
  | openBrackets
  /-- A line goes back to an indentation that no open block has. -/
  | unindentMismatch
  | unterminatedString
  | invalidCharacter (c : Char)
  /-- A closing bracket without an opening one. -/
  | unmatchedBracket (c : Char)
  | unexpectedIndent
  /-- A decorator without a function or class behind it. -/
  | undecorated
  | indentationTooDeep
  | missingBlock
  /-- A `try` without a handler and without a `finally`. -/
  | missingHandler
  | expressionTooDeep
  | parenthesesTooDeep
  /-- Nothing can begin, or go on, with what stands here. -/
  | invalidSyntax (near : String)
  | missing (expected found : String)
  | missingName (found : String)
  | notAssignable
  | notAugmentable
  | notDeletable
  /-- A replacement field of a formatted string is wrong in this way. -/
  | inField (fault : Fault)
  /-- A replacement field goes on behind its expression. -/
  | excessInField (field : String)
  deriving DecidableEq, Repr

/-- The text of a fault. -/
def Fault.message : Fault → String
  | openBrackets => "unexpected end of input inside brackets"
  | unindentMismatch => "unindent does not match any outer indentation level"
  | unterminatedString => "unterminated string literal"
  | invalidCharacter c => s!"invalid character '{c}'"
  | unmatchedBracket c => s!"unmatched '{c}'"
  | unexpectedIndent => "unexpected indent"
  | undecorated => "expected function or class definition after decorator"
  | indentationTooDeep => "too many levels of indentation"
  | missingBlock => "expected an indented block"
  | missingHandler => "expected 'except' or 'finally' block"
  | expressionTooDeep => "expression nested too deeply"
  | parenthesesTooDeep => "too many nested parentheses"
  | invalidSyntax near => s!"invalid syntax near {near}"
  | missing expected found => s!"expected '{expected}' but found {found}"
  | missingName found => s!"expected a name but found {found}"
  | notAssignable => "cannot assign to expression"
  | notAugmentable => "illegal expression for augmented assignment"
  | notDeletable => "cannot delete expression"
  | inField fault => s!"in f-string field: {fault.message}"
  | excessInField field => s!"invalid f-string field '{field}'"

/-- A fault and the place where it shows. -/
structure SyntaxError where
  fault : Fault
  position : Position
  deriving DecidableEq, Repr

/-- The text of an error: its place and its fault. -/
def SyntaxError.message (e : SyntaxError) : String :=
  s!"syntax error at line {e.position.line}, column {e.position.column}: {e.fault.message}"

end ConceptForest.Script
