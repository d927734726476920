import ConceptForest.Grammar.Program
import ConceptForest.Grammar.Token.Lexer

/-!
From tokens to programs.

A run of symbols is read in one walk over the tokens. Blocks that are open at some token form a
stack of frames, the innermost first; a frame remembers its bracket and the symbols read before it.
The walk ends at the first token that cannot continue the outermost run. The program reader cuts
the tokens into such runs at the separators.
-/

namespace ConceptForest.Grammar

open ConceptForest.Text (Position)

/-- The greatest number of brackets that may be open at once. -/
def maxBlockDepth : Nat := 100

/-- A block whose closing bracket has not been read: the place of its bracket, and the symbols in
front of it, the last one first. -/
structure OpenBlock where
  position : Position
  before : List Symbol

/-- What is wrong when a run of symbols stops at `token` inside of the block opened at `p`, whose
own symbols so far are `symbols`. -/
def unclosedBlock (p : Position) (symbols : List Symbol) (token : Token) : GrammarError :=
  match symbols, token.lexeme with
  | [], .endOfInput => .unexpectedEnd "symbol"
  | [], lexeme => .unexpectedToken "symbol" lexeme.text token.position
  | _ :: _, _ => .unterminated .block p

/-- Reads symbols while there are any. `blocks` are the open blocks, the innermost first, and
`before` the symbols read in the innermost one, the last one first. -/
def symbolsFrom (blocks : List OpenBlock) (before : List Symbol) :
    List Token → Except GrammarError (List Symbol × List Token)
  | [] =>
    match blocks with
    | [] => .ok (before.reverse, [])
    | b :: _ => .error (unclosedBlock b.position before ⟨.endOfInput, b.position⟩)
  | t :: rest =>
    match t.lexeme with
    | .word text | .phrase text | .quotation text =>
      symbolsFrom blocks (.token text :: before) rest
    | .snippet tag body => symbolsFrom blocks (.snippet ⟨tag, body, t.position⟩ :: before) rest
    | .openBlock =>
      if maxBlockDepth ≤ blocks.length then .error (.nestingTooDeep maxBlockDepth t.position)
      else symbolsFrom (⟨t.position, before⟩ :: blocks) [] rest
    | .closeBlock =>
      match blocks, before with
      | [], _ => .ok (before.reverse, t :: rest)
      | b :: _, [] => .error (unclosedBlock b.position [] t)
      | b :: outer, _ :: _ => symbolsFrom outer (.block before.reverse :: b.before) rest
    | .command _ | .separator _ | .endOfInput =>
      match blocks with
      | [] => .ok (before.reverse, t :: rest)
      | b :: _ => .error (unclosedBlock b.position before t)

/-- Does the token end an expression? -/
def Token.isEnd (t : Token) : Bool :=
  t.lexeme matches .separator _ | .endOfInput

/-- The error at the head of `tokens`, where something else was expected. -/
def unexpected (expected : String) : List Token → GrammarError
  | [] | ⟨.endOfInput, _⟩ :: _ => .unexpectedEnd expected
  | t :: _ => .unexpectedToken expected t.lexeme.text t.position

/-- The leading expression of `run` and what follows it. A snippet with nothing beside it is an
expression of its own; any other run of symbols is a statement. -/
def leadingExpression (run : List Token) : Except GrammarError (Expression × List Token) :=
  match run with
  | ⟨.command name, _⟩ :: rest => do
    let (args, rest) ← symbolsFrom [] [] rest
    return (.command name args, rest)
  | _ => do
    let (symbols, rest) ← symbolsFrom [] [] run
    match symbols with
    | [] => throw (unexpected "symbol" run)
    | [.snippet s] => return (.snippet s, rest)
    | _ => return (.statement symbols, rest)

/-- The expression that takes up all of `run` but the token that ends it. -/
def expressionOfRun (run : List Token) : Except GrammarError Expression := do
  let (expression, rest) ← leadingExpression run
  match rest with
  | [] => return expression
  | t :: _ =>
    if t.isEnd then return expression
    else throw (unexpected "separator or end of input" rest)

/-- The tokens cut behind each one that ends an expression. -/
def runs : List Token → List (List Token)
  | [] => []
  | t :: rest =>
    if t.isEnd then [t] :: runs rest
    else
      match runs rest with
      | [] => [[t]]
      | run :: others => (t :: run) :: others

/-- Is there nothing in the run but the token that ends it? -/
def isEmptyRun : List Token → Bool
  | [] => true
  | t :: _ => t.isEnd

/-- The program that the tokens spell. -/
def Program.ofTokens (tokens : List Token) : Except GrammarError Program := do
  let expressions ← ((runs tokens).filter (!isEmptyRun ·)).mapM expressionOfRun
  return ⟨expressions⟩

/-- The program written in a text. -/
def Program.parse (input : String) : Except GrammarError Program := do
  Program.ofTokens (← tokens input)

end ConceptForest.Grammar
