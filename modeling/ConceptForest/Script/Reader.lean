import ConceptForest.Script.Token.Scanner

/-!
Readers: what the grammar of snippets is written in.

A reader takes the tokens that are left and hands back a result and the tokens left then. Two
combinators carry all repetition: `many` runs a reader until it declines, and `recursive` ties a
rule to itself. Both go on only when something has been read in between, which is why they end.
-/

namespace ConceptForest.Script

open ConceptForest.Text (Position)

/-- Reads something from the front of the tokens. -/
abbrev Reader := StateT (List Token) (Except SyntaxError)

/-! ### Keywords -/

/-- The words that are no names. -/
def keywords : List String :=
  ["False", "None", "True", "and", "as", "assert", "async", "await", "break", "class",
    "continue", "def", "del", "elif", "else", "except", "finally", "for", "from", "global", "if",
    "import", "in", "is", "lambda", "nonlocal", "not", "or", "pass", "raise", "return", "try",
    "while", "with", "yield"]

/-- Is the word a keyword? -/
def isKeyword (word : String) : Bool :=
  keywords.contains word

/-! ### Looking at the tokens -/

/-- The lexeme at the front. -/
def headLexeme : List Token → Lexeme
  | [] => .endOfInput
  | t :: _ => t.lexeme

/-- The place of the token at the front. -/
def headPosition : List Token → Position
  | [] => .start
  | t :: _ => t.position

namespace Reader

/-- The lexeme at the front. -/
def peek : Reader Lexeme :=
  return headLexeme (← get)

/-- The lexeme behind the one at the front; at the end of input, that. -/
def peekSecond : Reader Lexeme :=
  return headLexeme ((← get).drop 1)

/-- The place of the token at the front. -/
def position : Reader Position :=
  return headPosition (← get)

/-- Fails at the given place. -/
def failAt {α : Type} (fault : Fault) (p : Position) : Reader α :=
  throw ⟨fault, p⟩

/-- Fails at the token at the front. -/
def fail {α : Type} (fault : Fault) : Reader α := do
  failAt fault (← position)

/-- Fails because nothing can go on with the token at the front. -/
def unexpected {α : Type} : Reader α := do
  fail (.invalidSyntax (← peek).describe)

/-- Passes over the token at the front. -/
def advance : Reader Unit :=
  modify (·.drop 1)

/-- Is the operator at the front? -/
def isOp (op : String) : Reader Bool :=
  return (← peek) == .op op

/-- Is one of the operators at the front? -/
def isOneOf (ops : List String) : Reader Bool := do
  match ← peek with
  | .op text => return ops.contains text
  | _ => return false

/-- Is the word at the front? -/
def isWord (word : String) : Reader Bool :=
  return (← peek) == .name word

/-- Passes over the token at the front if `here` says so, and tells whether it did. -/
def eatIf (here : Reader Bool) : Reader Bool := do
  if ← here then
    advance
    return true
  else
    return false

/-- Passes over the operator if it is at the front, and tells whether it was. -/
def eatOp (op : String) : Reader Bool := eatIf (isOp op)

/-- Passes over the word if it is at the front, and tells whether it was. -/
def eatWord (word : String) : Reader Bool := eatIf (isWord word)

/-- Passes over the operator, which must be at the front. -/
def expectOp (op : String) : Reader Unit := do
  unless ← eatOp op do
    fail (.missing op (← peek).describe)

/-- Passes over the word, which must be at the front. -/
def expectWord (word : String) : Reader Unit := do
  unless ← eatWord word do
    fail (.missing word (← peek).describe)

/-- Reads a name that is no keyword. -/
def expectName : Reader String := do
  match ← peek with
  | .name text =>
    if isKeyword text then fail (.missingName (Lexeme.name text).describe)
    else
      advance
      return text
  | other => fail (.missingName other.describe)

/-- The keyword at the front; the empty text if there is none. -/
def keyword : Reader String := do
  match ← peek with
  | .name text => return if isKeyword text then text else ""
  | _ => return ""

/-- Is the logical line, or the snippet, at its end? -/
def atLineEnd : Reader Bool :=
  return (← peek) matches .newline | .endOfInput

/-- Passes over the end of the logical line, which must be at the front. -/
def expectLineEnd : Reader Unit := do
  match ← peek with
  | .newline => advance
  | .endOfInput => return
  | _ => unexpected

/-- Can an expression begin with the token at the front? -/
def startsExpression : Reader Bool := do
  match ← peek with
  | .name text =>
    return !isKeyword text || ["None", "True", "False", "lambda", "not", "await"].contains text
  | .number | .string _ => return true
  | .op text => return ["(", "[", "\x7b", "-", "+", "~", "*", "..."].contains text
  | _ => return false

/-! ### Repetition -/

/-- Runs `round` until it declines, and collects what it read. A round that reads no token is the
last one. -/
def many {α : Type} (round : Reader (Option α)) : Reader (List α) := fun tokens =>
  match round tokens with
  | .error e => .error e
  | .ok (none, rest) => .ok ([], rest)
  | .ok (some a, rest) =>
    if rest.length < tokens.length then
      match many round rest with
      | .error e => .error e
      | .ok (as, rest') => .ok (a :: as, rest')
    else .ok ([a], rest)
termination_by tokens => tokens.length

/-- Reads items as long as `more` finds that another one follows. -/
def manyWhile {α : Type} (more : Reader Bool) (item : Reader α) : Reader (List α) :=
  many do
    if ← more then return some (← item) else return none

/-- A first item, and further ones as long as `more` finds that another one follows. -/
def oneAndMore {α : Type} (more : Reader Bool) (item : Reader α) : Reader (List α) := do
  let first ← item
  return first :: (← manyWhile more item)

/-- Reads items between commas until `stop` holds, also behind the last comma. -/
def commaSeparated {α : Type} (stop : Reader Bool) (item : Reader α) : Reader (List α) :=
  oneAndMore (do if ← eatOp "," then return !(← stop) else return false) item

/-- The rules that `rules` describes in terms of themselves: each may call any of them again once it
has read something. -/
def recursive {ι α : Type} (rules : (ι → Reader α) → ι → Reader α) (rule : ι) : Reader α :=
  fun tokens =>
    rules (fun again rest =>
      if rest.length < tokens.length then recursive rules again rest
      else .error ⟨.invalidSyntax (headLexeme rest).describe, headPosition rest⟩) rule tokens
termination_by tokens => tokens.length

end Reader

end ConceptForest.Script
