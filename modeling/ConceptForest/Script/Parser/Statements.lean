import ConceptForest.Script.Parser.Expressions
import ConceptForest.Script.Stmt.Parser

/-!
The grammar of statements, run on a parser.

The rules are the readers of the same names, but a statement is not kept: what it does to names is
done to the scopes of the parser as soon as it has been read. A block opens a nesting level, and a
function or a class a scope around its block.
-/

namespace ConceptForest.Script.Parser

/-! ### Uses of expressions -/

/-- Reads the value of `e`, which has just been passed over. -/
def load (e : Expr) : Rule Unit := walk (Scopes.load e)

/-- Assigns to `e`. -/
def store (e : Expr) : Rule Unit := walk (Scopes.store e)

/-- Assigns to `e` and the result of an operator. -/
def augment (e : Expr) : Rule Unit := walk (Scopes.augment e)

/-- Deletes `e`. -/
def delete (e : Expr) : Rule Unit := walk (Scopes.delete e)

/-- Changes the scopes. -/
def change (f : Scopes → Scopes) : Rule Unit :=
  modify fun p => { p with scopes := f p.scopes }

/-- Passes over an expression that the statement evaluates. -/
def evaluated (rule : Rule Expr) : Rule Unit := do
  load (← rule)

/-! ### Simple statements -/

/-- A dotted name; its first part. -/
def dottedName : Rule String := do
  let first ← expectName
  let _ ← manyWhile (eatOp ".") expectName
  return first

/-- One module of an import. -/
def importedModule : Rule Unit := do
  let first ← dottedName
  if ← eatWord "as" then change (.bind (← expectName)) else change (.bind first)

/-- One name of an import from a module. -/
def importedName : Rule Unit := do
  let name ← expectName
  if ← eatWord "as" then change (.bind (← expectName)) else change (.bind name)

/-- An import of modules, the word included. -/
def importModules : Rule Unit := do
  advance
  let _ ← oneAndMore (eatOp ",") importedModule

/-- The names of an import from a module, the word in front of them included. -/
def importedNames : Rule Unit := do
  expectWord "import"
  if ← eatOp "*" then return
  else if ← eatOp "(" then
    let _ ← if ← isOp ")" then pure [] else commaSeparated (isOp ")") importedName
    expectOp ")"
  else
    let _ ← oneAndMore (eatOp ",") importedName

/-- An import from a module, the word included. -/
def importNames : Rule Unit := do
  advance
  let _ ← manyWhile (eatIf (isOneOf [".", "..."])) (pure ())
  unless ← isWord "import" do
    let _ ← dottedName
  importedNames

/-- A statement that begins with an expression. -/
def expressionStatement : Rule Unit := do
  let first ← yieldOrTestList body
  if ← eatOp ":" then
    evaluated (test body)
    if ← eatOp "=" then evaluated (yieldOrTestList body)
    store first
  else if ← eatIf (isOneOf augmentedOperators) then
    evaluated (yieldOrTestList body)
    augment first
  else if ← isOp "=" then
    let chain := first :: (← manyWhile (eatOp "=") (yieldOrTestList body))
    chain.getLast?.toList.forM load
    chain.dropLast.forM store
  else load first

/-- Is a simple statement at its end? -/
def atStatementEnd : Rule Bool := do
  if ← atLineEnd then return true else isOp ";"

/-- A statement without a block. -/
def simpleStatement : Rule Unit := do
  match ← keyword with
  | "pass" | "break" | "continue" => advance
  | "return" =>
    advance
    unless ← atStatementEnd do evaluated (testList body)
  | "raise" =>
    advance
    unless ← atStatementEnd do
      evaluated (test body)
      if ← eatWord "from" then evaluated (test body)
  | "global" =>
    advance
    let _ ← oneAndMore (eatOp ",") do change (.declareGlobal (← expectName))
  | "nonlocal" =>
    advance
    let _ ← oneAndMore (eatOp ",") do change (.declareNonlocal (← expectName))
  | "del" =>
    advance
    delete (← targetList body)
  | "assert" =>
    advance
    evaluated (test body)
    if ← eatOp "," then evaluated (test body)
  | "import" => importModules
  | "from" => importNames
  | _ => expressionStatement

/-- Simple statements between semicolons, up to the end of the line. -/
def simpleLine : Rule Unit := do
  let _ ← oneAndMore (do if ← eatOp ";" then return !(← atLineEnd) else return false)
    simpleStatement
  expectLineEnd

/-! ### Compound statements -/

section

variable (block : Rule Unit)

/-- A condition and the block under it. -/
def conditionAndBlock : Rule Unit := do
  evaluated (namedTest body)
  block

/-- The block behind the word, if the word is there. -/
def blockBehind (word : String) : Rule Unit := do
  if ← eatWord word then block

/-- The block of a function or a class, in a scope of its own where the names are bound. -/
def scopeBlock (kind : ScopeKind) (names : List String) : Rule Unit := do
  change (.push kind)
  names.forM fun name => change (.bind name)
  block
  change .pop

/-- A function. -/
def functionDefinition : Rule Unit := do
  advance
  let name ← expectName
  expectOp "("
  let ps ← parameters body ")" true
  expectOp ")"
  (parameterReads ps).forM load
  if ← eatOp "->" then evaluated (test body)
  change (.bind name)
  scopeBlock block .function (parameterNames ps)

/-- A class. -/
def classDefinition : Rule Unit := do
  advance
  let name ← expectName
  if ← eatOp "(" then (← arguments body).forM load
  change (.bind name)
  scopeBlock block .classBody []

/-- A conditional statement. -/
def ifStatement : Rule Unit := do
  advance
  let _ ← oneAndMore (eatWord "elif") (conditionAndBlock block)
  blockBehind block "else"

/-- A loop over a condition. -/
def whileStatement : Rule Unit := do
  advance
  conditionAndBlock block
  blockBehind block "else"

/-- A loop over a source. -/
def forStatement : Rule Unit := do
  advance
  let target ← targetList body
  expectWord "in"
  evaluated (testList body)
  store target
  block
  blockBehind block "else"

/-- A handler, behind its word. -/
def handler : Rule Unit := do
  let _ ← eatOp "*"
  unless ← isOp ":" do
    evaluated (test body)
    if ← eatWord "as" then change (.bind (← expectName))
  block

/-- A block with handlers. -/
def tryStatement : Rule Unit := do
  advance
  block
  let handlers ← manyWhile (eatWord "except") (handler block)
  blockBehind block "else"
  let hasFinally ← isWord "finally"
  blockBehind block "finally"
  if handlers.isEmpty && !hasFinally then fail .missingHandler

/-- One manager of a `with` statement. -/
def manager : Rule Unit := do
  evaluated (test body)
  if ← eatWord "as" then store (← starTarget body)

/-- A block under managers. -/
def withStatement : Rule Unit := do
  advance
  let _ ← oneAndMore (eatOp ",") manager
  block

/-- A function or class with decorators. -/
def decorated : Rule Unit := do
  let _ ← manyWhile (eatOp "@") do
    evaluated (namedTest body)
    expectLineEnd
  let _ ← eatWord "async"
  match ← keyword with
  | "def" => functionDefinition block
  | "class" => classDefinition block
  | _ => fail .undecorated

/-- One statement. -/
def statementOver : Rule Unit := do
  match ← peek with
  | .op "@" => decorated block
  | .indent | .dedent => fail .unexpectedIndent
  | _ =>
    match ← keyword with
    | "def" => functionDefinition block
    | "class" => classDefinition block
    | "if" => ifStatement block
    | "while" => whileStatement block
    | "for" => forStatement block
    | "try" => tryStatement block
    | "with" => withStatement block
    | "async" =>
      advance
      match ← keyword with
      | "def" => functionDefinition block
      | "for" => forStatement block
      | "with" => withStatement block
      | _ => unexpected
    | _ => simpleLine

/-! ### Blocks -/

/-- A statement or an empty line; nothing at the end of a block, which is passed over. -/
def blockItem? : Rule (Option Unit) := do
  match ← peek with
  | .dedent =>
    advance
    return none
  | .endOfInput => return none
  | .newline =>
    advance
    return some ()
  | _ => return some (← statementOver block)

/-- A colon and the statements under it, on the same line or indented on lines of their own. -/
def indentedBlock : Rule Unit := do
  expectOp ":"
  match ← peek with
  | .newline =>
    advance
    match ← peek with
    | .indent =>
      advance
      let _ ← many (blockItem? block)
    | _ => fail .missingBlock
  | _ => simpleLine

end

/-! ### The grammar tied to itself -/

/-- A block whose nesting level is open. -/
def openBlock : Rule Unit :=
  recursive (fun _ => 0) (fun again _ => indentedBlock (deeper .indentationTooDeep (again ()))) ()

/-- A block, one nesting level deeper than the statement it belongs to. -/
def block : Rule Unit :=
  deeper .indentationTooDeep openBlock

/-- One statement. -/
def statement : Rule Unit :=
  statementOver block

/-- A statement or an empty line; nothing at the end of the module. -/
def moduleItem? : Rule (Option Unit) := do
  match ← peek with
  | .endOfInput => return none
  | .newline =>
    advance
    return some ()
  | _ => return some (← statement)

/-- The statements of a whole snippet. -/
def module : Rule Unit := do
  let _ ← many moduleItem?

/-- The parser in front of the tokens of a snippet. -/
def start (tokens : List Token) : Parser where
  tokens
  place := 0
  depth := 0
  scopes := .new

/-- The scopes of a whole snippet. -/
def run (source : String) : Except SyntaxError Scopes := do
  match module (start (← Script.tokens source)) with
  | .ok _ p => return p.scopes
  | .error e _ => throw e

end ConceptForest.Script.Parser
