import ConceptForest.Text.Position

/-!
Tokens of the input language.

A token is a lexeme and the place where it begins. Which lexemes can stand where is the business of
the program reader; here is only what each of them carries.
-/

namespace ConceptForest.Grammar

open ConceptForest.Text (Position)

/-- The smallest meaningful pieces of the input. -/
inductive Lexeme where
  /-- A run of characters without blanks, brackets and quotation marks. -/
  | word (text : String)
  /-- A double-bracketed phrase, kept whole. -/
  | phrase (text : String)
  /-- A text between quotation marks. -/
  | quotation (text : String)
  /-- A colon and a name at the start of an expression. -/
  | command (name : String)
  /-- A fenced snippet, with the language it declares if it declares one. -/
  | snippet (tag : Option String) (body : String)
  | openBlock
  | closeBlock
  /-- A semicolon, or a line break outside of brackets. -/
  | separator (mark : Char)
  | endOfInput
  deriving DecidableEq, Repr

namespace Lexeme

/-- What a reader calls this kind of lexeme. -/
def kindName : Lexeme → String
  | word _ => "word"
  | phrase _ => "[[phrase]]"
  | quotation _ => "string literal"
  | command _ => "command"
  | snippet _ _ => "context block"
  | openBlock => "["
  | closeBlock => "]"
  | separator _ => "separator"
  | endOfInput => "end of input"

/-- The text that a lexeme stands for. -/
def text : Lexeme → String
  | word text | phrase text | quotation text | command text | snippet _ text => text
  | openBlock => "["
  | closeBlock => "]"
  | separator mark => mark.toString
  | endOfInput => ""

/-- The language that a lexeme declares; only snippets do. -/
def tag : Lexeme → Option String
  | snippet tag _ => tag
  | _ => none

/-- Does an expression begin after this lexeme? -/
def endsExpression : Lexeme → Bool
  | separator _ => true
  | _ => false

/-- The number of open brackets after this lexeme when `depth` were open before it. A closing
bracket too many leaves none. -/
def depthAfter (depth : Nat) : Lexeme → Nat
  | openBlock => depth + 1
  | closeBlock => depth - 1
  | _ => depth

end Lexeme

/-- A lexeme and where it begins. -/
structure Token where
  lexeme : Lexeme
  position : Position
  deriving DecidableEq, Repr

end ConceptForest.Grammar
