import ConceptForest.Script.Expr.Parser
import ConceptForest.Script.Scopes

/-!
A parser with a state: the tokens it reads from, how far it has come, how deep it stands and the
scopes it has met.

Readers hand on what is left of the tokens, and what they are made of says how deep they stand. The
parser here has all of that in its state, as a program that works in place has: a rule looks at the
tokens by number, a rule that opens a nesting level raises the depth and lowers it again, and names
are bound while they are read. It reads the same snippets in the same way.
-/

namespace ConceptForest.Script

open ConceptForest.Text (Position)

/-- A parser in the middle of a snippet. -/
structure Parser where
  tokens : List Token
  /-- The number of the token at the front. -/
  place : Nat
  /-- The number of nesting levels that are open. -/
  depth : Nat
  scopes : Scopes

namespace Parser

/-- What can be run on a parser. If it fails, what it has done to the parser before stays. -/
abbrev Rule := EStateM SyntaxError Parser

/-- How many more nesting levels may be opened. -/
def room (p : Parser) : Nat :=
  maxNesting - p.depth

/-- How many tokens are left. -/
def left (p : Parser) : Nat :=
  p.tokens.length - p.place

/-! ### Looking at the tokens -/

/-- The token with the number, or the last one if there are fewer. -/
def token? (p : Parser) (number : Nat) : Option Token :=
  p.tokens[number]?.or p.tokens.getLast?

/-- The lexeme so many tokens behind the front. -/
def peekAt (offset : Nat) : Rule Lexeme := do
  let p ← get
  return ((p.token? (p.place + offset)).map Token.lexeme).getD .endOfInput

/-- The lexeme at the front. -/
def peek : Rule Lexeme :=
  peekAt 0

/-- The lexeme behind the one at the front. -/
def peekSecond : Rule Lexeme :=
  peekAt 1

/-- The place of the token at the front. -/
def position : Rule Position := do
  let p ← get
  return ((p.token? p.place).map Token.position).getD .start

/-- Fails at the given place. -/
def failAt {α : Type} (fault : Fault) (p : Position) : Rule α :=
  throw ⟨fault, p⟩

/-- Fails at the token at the front. -/
def fail {α : Type} (fault : Fault) : Rule α := do
  failAt fault (← position)

/-- Fails because nothing can go on with the token at the front. -/
def unexpected {α : Type} : Rule α := do
  fail (.invalidSyntax (← peek).describe)

/-- Passes over the token at the front. -/
def advance : Rule Unit :=
  modify fun p => if p.place < p.tokens.length then { p with place := p.place + 1 } else p

/-- Is the operator at the front? -/
def isOp (op : String) : Rule Bool :=
  return (← peek) == .op op

/-- Is one of the operators at the front? -/
def isOneOf (ops : List String) : Rule Bool := do
  match ← peek with
  | .op text => return ops.contains text
  | _ => return false

/-- Is the word at the front? -/
def isWord (word : String) : Rule Bool :=
  return (← peek) == .name word

/-- Passes over the token at the front if `here` says so, and tells whether it did. -/
def eatIf (here : Rule Bool) : Rule Bool := do
  if ← here then
    advance
    return true
  else
    return false

/-- Passes over the operator if it is at the front, and tells whether it was. -/
def eatOp (op : String) : Rule Bool := eatIf (isOp op)

/-- Passes over the word if it is at the front, and tells whether it was. -/
def eatWord (word : String) : Rule Bool := eatIf (isWord word)

/-- Passes over the operator, which must be at the front. -/
def expectOp (op : String) : Rule Unit := do
  unless ← eatOp op do
    fail (.missing op (← peek).describe)

/-- Passes over the word, which must be at the front. -/
def expectWord (word : String) : Rule Unit := do
  unless ← eatWord word do
    fail (.missing word (← peek).describe)

/-- Reads a name that is no keyword. -/
def expectName : Rule String := do
  match ← peek with
  | .name text =>
    if isKeyword text then fail (.missingName (Lexeme.name text).describe)
    else
      advance
      return text
  | other => fail (.missingName other.describe)

/-- The keyword at the front; the empty text if there is none. -/
def keyword : Rule String := do
  match ← peek with
  | .name text => return if isKeyword text then text else ""
  | _ => return ""

/-- Is the logical line, or the snippet, at its end? -/
def atLineEnd : Rule Bool :=
  return (← peek) matches .newline | .endOfInput

/-- Passes over the end of the logical line, which must be at the front. -/
def expectLineEnd : Rule Unit := do
  match ← peek with
  | .newline => advance
  | .endOfInput => return
  | _ => unexpected

/-- Can an expression begin with the token at the front? -/
def startsExpression : Rule Bool := do
  match ← peek with
  | .name text =>
    return !isKeyword text || ["None", "True", "False", "lambda", "not", "await"].contains text
  | .number | .string _ => return true
  | .op text => return ["(", "[", "\x7b", "-", "+", "~", "*", "..."].contains text
  | _ => return false

/-! ### Repetition -/

/-- Runs `round` until it declines, and collects what it read. A round that reads no token is the
last one. -/
def many {α : Type} (round : Rule (Option α)) : Rule (List α) := fun p =>
  match round p with
  | .error e q => .error e q
  | .ok none q => .ok [] q
  | .ok (some a) q =>
    if q.left < p.left then
      match many round q with
      | .error e q' => .error e q'
      | .ok as q' => .ok (a :: as) q'
    else .ok [a] q
termination_by p => p.left

/-- Reads items as long as `more` finds that another one follows. -/
def manyWhile {α : Type} (more : Rule Bool) (item : Rule α) : Rule (List α) :=
  many do
    if ← more then return some (← item) else return none

/-- A first item, and further ones as long as `more` finds that another one follows. -/
def oneAndMore {α : Type} (more : Rule Bool) (item : Rule α) : Rule (List α) := do
  let first ← item
  return first :: (← manyWhile more item)

/-- Reads items between commas until `stop` holds, also behind the last comma. -/
def commaSeparated {α : Type} (stop : Rule Bool) (item : Rule α) : Rule (List α) :=
  oneAndMore (do if ← eatOp "," then return !(← stop) else return false) item

/-- May a rule of rank `m` be called on `q`, while one of rank `n` is run on `p`? There must be less
room, or as much room and a lower rank, or as much of both and fewer tokens. -/
def Descends (q : Parser) (m : Nat) (p : Parser) (n : Nat) : Prop :=
  q.room < p.room ∨ q.room = p.room ∧ (m < n ∨ m = n ∧ q.left < p.left)
  deriving Decidable

/-- The rules that `rules` describes in terms of themselves: each may call any of them again once it
has come deeper or to a rule of lower rank, or has read something. -/
def recursive {ι α : Type} (rank : ι → Nat) (rules : (ι → Rule α) → ι → Rule α) (rule : ι) :
    Rule α := fun p =>
  rules (fun again q =>
    if Descends q (rank again) p (rank rule) then recursive rank rules again q
    else unexpected q) rule p
termination_by p => (p.room, rank rule, p.left)
decreasing_by
  rename_i descends
  simpa [Prod.lex_def, Descends] using descends

/-! ### Nesting -/

/-- What comes of a rule, also if it fails. -/
def attempt {α : Type} (rule : Rule α) : Rule (Except SyntaxError α) := fun p =>
  match rule p with
  | .ok a q => .ok (.ok a) q
  | .error e q => .ok (.error e) q

/-- Runs a rule one nesting level deeper; with too many levels open it fails. -/
def deeper {α : Type} (fault : Fault) (rule : Rule α) : Rule α := do
  if maxNesting ≤ (← get).depth then fail fault
  else
    modify fun p => { p with depth := p.depth + 1 }
    let result ← attempt rule
    modify fun p => { p with depth := p.depth - 1 }
    match result with
    | .ok a => return a
    | .error e => throw e

/-- Runs a rule on other tokens and tells whether it came to the end of their first line. -/
def elsewhere {α : Type} (tokens : List Token) (rule : Rule α) :
    Rule (Except SyntaxError α × Bool) := do
  let saved ← get
  set { saved with tokens, place := 0 }
  let result ← attempt rule
  let complete ← atLineEnd
  modify fun p => { p with tokens := saved.tokens, place := saved.place }
  return (result, complete)

/-! ### Uses of expressions -/

/-- Does something to the scopes; if that fails, the fault is at the token at the front. -/
def walk (steps : Scopes.Walk) : Rule Unit := do
  let here ← position
  let p ← get
  match steps p.scopes with
  | .ok _ scopes => set { p with scopes }
  | .error fault scopes =>
    set { p with scopes }
    throw ⟨fault, here⟩

end Parser

end ConceptForest.Script
