import ConceptForest.Script.Expr.Parser
import ConceptForest.Script.Stmt

/-!
The grammar of statements.

What a statement does with an expression is checked as soon as the expression has been read, so that
the first fault in the source is the one reported. A block opens a nesting level like the rules of
`Nested`; the rules for statements are made level by level as well (`Suite`).
-/

namespace ConceptForest.Script

open Reader

/-- What the rules for statements of a level are written in terms of. -/
structure Suite where
  /-- The rules for expressions. -/
  level : Level
  /-- A block, the colon in front of it included. -/
  block : Reader (List Stmt)

/-! ### Uses of expressions -/

/-- The statement that reads `value`, which has just been read. -/
def reading (value : Expr) : Reader Stmt := do
  if value.isReadable then return .read value else fail .notAssignable

/-- The statement that assigns to `target`. -/
def assigning (target : Expr) : Reader Stmt := do
  if target.isAssignable then return .assign target else fail .notAssignable

/-- The statement that assigns to `target` and an operator's result. -/
def augmenting (target : Expr) : Reader Stmt := do
  match target.augmentFault? with
  | none => return .augment target
  | some fault => fail fault

/-- The statement that deletes `target`. -/
def deleting (target : Expr) : Reader Stmt := do
  match target.deleteFault? with
  | none => return .assign target
  | some fault => fail fault

/-- Reads an expression that the statement evaluates. -/
def evaluated (rule : Reader Expr) : Reader Stmt := do
  reading (← rule)

/-! ### Simple statements -/

/-- The operators that assign the result of an operation. -/
def augmentedOperators : List String :=
  ["+=", "-=", "*=", "/=", "//=", "%=", "@=", "&=", "|=", "^=", ">>=", "<<=", "**="]

/-- A dotted name; its first part. -/
def dottedName : Reader String := do
  let first ← expectName
  let _ ← manyWhile (eatOp ".") expectName
  return first

/-- One module of an import. -/
def importedModule : Reader Stmt := do
  let first ← dottedName
  if ← eatWord "as" then return .bind (← expectName) else return .bind first

/-- One name of an import from a module. -/
def importedName : Reader Stmt := do
  let name ← expectName
  if ← eatWord "as" then return .bind (← expectName) else return .bind name

/-- An import of modules, the word included. -/
def importModules : Reader (List Stmt) := do
  advance
  oneAndMore (eatOp ",") importedModule

/-- An import from a module, the word included. -/
def importNames : Reader (List Stmt) := do
  advance
  let _ ← manyWhile (eatIf (isOneOf [".", "..."])) (pure ())
  unless ← isWord "import" do
    let _ ← dottedName
  expectWord "import"
  if ← eatOp "*" then return []
  else if ← eatOp "(" then
    let names ← if ← isOp ")" then pure [] else commaSeparated (isOp ")") importedName
    expectOp ")"
    return names
  else oneAndMore (eatOp ",") importedName

/-- A statement that begins with an expression. -/
def expressionStatement (level : Level) : Reader (List Stmt) := do
  let first ← yieldOrTestList level
  if ← eatOp ":" then
    let note ← evaluated level.test
    let value ← if ← eatOp "=" then pure [← evaluated (yieldOrTestList level)] else pure []
    return note :: value ++ [← assigning first]
  else if ← eatIf (isOneOf augmentedOperators) then
    let value ← evaluated (yieldOrTestList level)
    return [value, ← augmenting first]
  else if ← isOp "=" then
    let chain := first :: (← manyWhile (eatOp "=") (yieldOrTestList level))
    let value ← chain.getLast?.toList.mapM reading
    return value ++ (← chain.dropLast.mapM assigning)
  else return [← reading first]

/-- Is a simple statement at its end? -/
def atStatementEnd : Reader Bool := do
  if ← atLineEnd then return true else isOp ";"

/-- A statement without a block. -/
def simpleStatement (level : Level) : Reader (List Stmt) := do
  match ← keyword with
  | "pass" | "break" | "continue" =>
    advance
    return []
  | "return" =>
    advance
    if ← atStatementEnd then return [] else return [← evaluated (testList level)]
  | "raise" =>
    advance
    if ← atStatementEnd then return []
    else
      let exception ← evaluated level.test
      if ← eatWord "from" then return [exception, ← evaluated level.test] else return [exception]
  | "global" =>
    advance
    return (← oneAndMore (eatOp ",") expectName).map .declareGlobal
  | "nonlocal" =>
    advance
    return (← oneAndMore (eatOp ",") expectName).map .declareNonlocal
  | "del" =>
    advance
    return [← deleting (← targetList level)]
  | "assert" =>
    advance
    let check ← evaluated level.test
    if ← eatOp "," then return [check, ← evaluated level.test] else return [check]
  | "import" => importModules
  | "from" => importNames
  | _ => expressionStatement level

/-- Simple statements between semicolons, up to the end of the line. -/
def simpleLine (level : Level) : Reader (List Stmt) := do
  let statements ← oneAndMore (do if ← eatOp ";" then return !(← atLineEnd) else return false)
    (simpleStatement level)
  expectLineEnd
  return statements.flatten

/-! ### Compound statements -/

/-- A condition and the block under it. -/
def conditionAndBlock (suite : Suite) : Reader (List Stmt) := do
  let condition ← evaluated (namedTest suite.level)
  return condition :: (← suite.block)

/-- The block behind the word, if the word is there. -/
def blockBehind (suite : Suite) (word : String) : Reader (List Stmt) := do
  if ← eatWord word then suite.block else return []

/-- A function. -/
def functionDefinition (suite : Suite) : Reader (List Stmt) := do
  advance
  let name ← expectName
  expectOp "("
  let ps ← parameters suite.level ")" true
  expectOp ")"
  let reads ← (parameterReads ps).mapM reading
  let result ← if ← eatOp "->" then pure [← evaluated suite.level.test] else pure []
  let body ← suite.block
  return reads ++ result ++ [.bind name, .scope .function (parameterNames ps) body]

/-- A class. -/
def classDefinition (suite : Suite) : Reader (List Stmt) := do
  advance
  let name ← expectName
  let bases ← if ← eatOp "(" then (← arguments suite.level).mapM reading else pure []
  let body ← suite.block
  return bases ++ [.bind name, .scope .classBody [] body]

/-- A conditional statement. -/
def ifStatement (suite : Suite) : Reader (List Stmt) := do
  advance
  let branches ← oneAndMore (eatWord "elif") (conditionAndBlock suite)
  return branches.flatten ++ (← blockBehind suite "else")

/-- A loop over a condition. -/
def whileStatement (suite : Suite) : Reader (List Stmt) := do
  advance
  let loop ← conditionAndBlock suite
  return loop ++ (← blockBehind suite "else")

/-- A loop over a source. -/
def forStatement (suite : Suite) : Reader (List Stmt) := do
  advance
  let target ← targetList suite.level
  expectWord "in"
  let source ← evaluated (testList suite.level)
  let binding ← assigning target
  let body ← suite.block
  return source :: binding :: body ++ (← blockBehind suite "else")

/-- A handler, behind its word. -/
def handler (suite : Suite) : Reader (List Stmt) := do
  let _ ← eatOp "*"
  let kind ← if ← isOp ":" then pure [] else do
    let kind ← evaluated suite.level.test
    if ← eatWord "as" then pure [kind, .bind (← expectName)] else pure [kind]
  return kind ++ (← suite.block)

/-- A block with handlers. -/
def tryStatement (suite : Suite) : Reader (List Stmt) := do
  advance
  let body ← suite.block
  let handlers ← manyWhile (eatWord "except") (handler suite)
  let otherwise ← blockBehind suite "else"
  let hasFinally ← isWord "finally"
  let final ← blockBehind suite "finally"
  if handlers.isEmpty && !hasFinally then fail .missingHandler
  else return body ++ handlers.flatten ++ otherwise ++ final

/-- One manager of a `with` statement. -/
def manager (suite : Suite) : Reader (List Stmt) := do
  let value ← evaluated suite.level.test
  if ← eatWord "as" then
    return [value, ← assigning (← starOr suite.level (suite.level.again .arithmetic))]
  else return [value]

/-- A block under managers. -/
def withStatement (suite : Suite) : Reader (List Stmt) := do
  advance
  let managers ← oneAndMore (eatOp ",") (manager suite)
  return managers.flatten ++ (← suite.block)

/-- A function or class with decorators. -/
def decorated (suite : Suite) : Reader (List Stmt) := do
  let decorators ← manyWhile (eatOp "@") do
    let decorator ← evaluated (namedTest suite.level)
    expectLineEnd
    return decorator
  let _ ← eatWord "async"
  match ← keyword with
  | "def" => return decorators ++ (← functionDefinition suite)
  | "class" => return decorators ++ (← classDefinition suite)
  | _ => fail .undecorated

/-- One statement. -/
def statement (suite : Suite) : Reader (List Stmt) := do
  match ← peek with
  | .op "@" => decorated suite
  | .indent | .dedent => fail .unexpectedIndent
  | _ =>
    match ← keyword with
    | "def" => functionDefinition suite
    | "class" => classDefinition suite
    | "if" => ifStatement suite
    | "while" => whileStatement suite
    | "for" => forStatement suite
    | "try" => tryStatement suite
    | "with" => withStatement suite
    | "async" =>
      advance
      match ← keyword with
      | "def" => functionDefinition suite
      | "for" => forStatement suite
      | "with" => withStatement suite
      | _ => unexpected
    | _ => simpleLine suite.level

/-! ### Blocks and modules -/

/-- A statement or an empty line; nothing at the end of a block, which is passed over. -/
def blockItem? (suite : Suite) : Reader (Option (List Stmt)) := do
  match ← peek with
  | .dedent =>
    advance
    return none
  | .endOfInput => return none
  | .newline =>
    advance
    return some []
  | _ => return some (← statement suite)

/-- A colon and the statements under it, on the same line or indented on lines of their own. -/
def indentedBlock (suite : Suite) : Reader (List Stmt) := do
  expectOp ":"
  match ← peek with
  | .newline =>
    advance
    match ← peek with
    | .indent =>
      advance
      return (← many (blockItem? suite)).flatten
    | _ => fail .missingBlock
  | _ => simpleLine suite.level

/-- The rules for statements when `n` more levels may be opened. -/
def Suite.withRoom : Nat → Suite
  | 0 => { level := .withRoom 0, block := fail .indentationTooDeep }
  | n + 1 => { level := .withRoom (n + 1), block := indentedBlock (withRoom n) }

/-- A statement or an empty line; nothing at the end of the module. -/
def moduleItem? : Reader (Option (List Stmt)) := do
  match ← peek with
  | .endOfInput => return none
  | .newline =>
    advance
    return some []
  | _ => return some (← statement (.withRoom maxNesting))

/-- The statements of a whole snippet. -/
def Stmt.parse (source : String) : Except SyntaxError (List Stmt) := do
  let (statements, _) ← (many moduleItem?).run (← tokens source)
  return statements.flatten

end ConceptForest.Script
