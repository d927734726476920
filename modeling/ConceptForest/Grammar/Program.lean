import ConceptForest.Text.Position

/-!
Programs: what a line of input says.

A program is a sequence of expressions. An expression is a statement, a command with arguments, or
a snippet on its own; statements and arguments are made of symbols, and a block is a symbol made of
symbols.
-/

namespace ConceptForest.Grammar

open ConceptForest.Text (Position)

/-- A snippet in a scripting language, the language it declares, and where it begins. -/
structure Snippet where
  tag : Option String
  body : String
  position : Position
  deriving DecidableEq, Repr

/-- The pieces of statements. -/
inductive Symbol where
  /-- A word, a phrase or a quotation. -/
  | token (text : String)
  /-- A statement between brackets. -/
  | block (symbols : List Symbol)
  | snippet (snippet : Snippet)
  deriving Repr

/-- One expression of a program. -/
inductive Expression where
  | statement (symbols : List Symbol)
  | command (name : String) (args : List Symbol)
  | snippet (snippet : Snippet)
  deriving Repr

/-- The expressions of one input, in order. -/
structure Program where
  expressions : List Expression
  deriving Repr

mutual

/-- The snippets of a symbol, from left to right. -/
def Symbol.snippets : Symbol → List Snippet
  | .token _ => []
  | .block symbols => snippetsOfSymbols symbols
  | .snippet s => [s]

/-- The snippets of a run of symbols, from left to right. -/
def snippetsOfSymbols : List Symbol → List Snippet
  | [] => []
  | s :: rest => s.snippets ++ snippetsOfSymbols rest

end

/-- The snippets of an expression, from left to right. -/
def Expression.snippets : Expression → List Snippet
  | .statement symbols => snippetsOfSymbols symbols
  | .command _ args => snippetsOfSymbols args
  | .snippet s => [s]

/-- The snippets of a program, from left to right. -/
def Program.snippets (program : Program) : List Snippet :=
  program.expressions.flatMap Expression.snippets

end ConceptForest.Grammar
