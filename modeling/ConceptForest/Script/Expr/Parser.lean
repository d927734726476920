import ConceptForest.Script.Expr
import ConceptForest.Script.Reader

/-!
The grammar of expressions.

Some rules open a nesting level: a whole expression, the operands of `not` and of a sign, and an
atom. Only so many levels may be open, and the rules are therefore made level by level: `nested n`
are those four when `n` more levels may be opened, and all other rules of a level are written in
terms of the four (`Level`). Within a level, the operands of a comprehension and starred items come
back to the rules of the same level after something has been read; these go through
`Level.again`.
-/

namespace ConceptForest.Script

open Reader
open ConceptForest.Text (Position)

/-- The greatest number of nesting levels. -/
def maxNesting : Nat := 100

/-- The rules that open a nesting level. -/
structure Nested where
  /-- A whole expression. -/
  test : Reader Expr
  /-- The operand of `not`. -/
  negated : Reader Expr
  /-- The operand of a sign. -/
  signed : Reader Expr
  /-- A name, a literal or something in brackets. -/
  atom : Reader Expr

/-- The rules that a level comes back to. -/
inductive Operand where
  /-- An expression without a conditional. -/
  | disjunction
  /-- An expression of binary operators. -/
  | arithmetic

/-- What the rules of a level are written in terms of. -/
structure Level extends Nested where
  again : Operand → Reader Expr

/-! ### Lists of expressions -/

/-- An expression between brackets or behind a comma, which may be bound to a name on the fly. -/
def namedTest (level : Level) : Reader Expr := do
  match ← peek with
  | .name text =>
    if !isKeyword text && (← peekSecond) == .op ":=" then
      advance
      advance
      return .named text (← level.test)
    else level.test
  | _ => level.test

/-- Reads what `plain` reads, or a starred operand. -/
def starOr (level : Level) (plain : Reader Expr) : Reader Expr := do
  if ← eatOp "*" then return .starred (← level.again .arithmetic) else plain

/-- Expressions between commas: one alone is itself, more make a tuple. -/
def tupleOf (item : Reader Expr) : Reader Expr := do
  let first ← item
  if ← isOp "," then
    let others ← manyWhile (do if ← eatOp "," then startsExpression else return false) item
    return .tuple (first :: others)
  else return first

/-- Expressions between commas, some of them starred. -/
def testList (level : Level) : Reader Expr :=
  tupleOf (starOr level level.test)

/-- What an assignment, a loop or a comprehension binds. -/
def targetList (level : Level) : Reader Expr :=
  tupleOf (starOr level (level.again .arithmetic))

/-- A yield expression, the word itself included. -/
def yieldExpr (level : Level) : Reader Expr := do
  advance
  if ← eatWord "from" then return .operation [← level.test]
  else if ← startsExpression then return .operation [← testList level]
  else return .operation []

/-- A yield expression, or expressions between commas. -/
def yieldOrTestList (level : Level) : Reader Expr := do
  if ← isWord "yield" then yieldExpr level else testList level

/-! ### Comprehensions, arguments and subscripts -/

/-- Does the clause of a comprehension begin here? -/
def atGenerator : Reader Bool := do
  if ← isWord "for" then return true
  else if ← isWord "async" then return (← peekSecond) == .name "for"
  else return false

/-- One clause of a comprehension. -/
def generator (level : Level) : Reader Generator := do
  let _ ← eatWord "async"
  expectWord "for"
  let target ← targetList level
  expectWord "in"
  let source ← level.again .disjunction
  let conditions ← manyWhile (eatWord "if") (level.again .disjunction)
  return .clause target source conditions

/-- The clauses of a comprehension over the given elements, the first of which begins here. -/
def comprehensionOf (level : Level) (elements : List Expr) : Reader Expr := do
  let first ← generator level
  let others ← manyWhile atGenerator (generator level)
  return .comprehension elements first others

/-- One argument of a call. The name of a keyword argument is not read. -/
def argument (level : Level) : Reader Expr := do
  if ← eatIf (isOneOf ["*", "**"]) then level.test
  else
    let named := match ← peek with
      | .name text => !isKeyword text
      | _ => false
    if named && (← peekSecond) == .op "=" then
      advance
      advance
      level.test
    else
      let value ← namedTest level
      if ← atGenerator then comprehensionOf level [value] else return value

/-- The arguments of a call and the closing bracket. -/
def arguments (level : Level) : Reader (List Expr) := do
  let args ← if ← isOp ")" then pure [] else commaSeparated (isOp ")") (argument level)
  expectOp ")"
  return args

/-- One item of a subscript: an index, or the bounds of a slice that are there. -/
def subscriptItem (level : Level) : Reader (List Expr) := do
  let bound : Reader (List Expr) := do
    if ← isOneOf ["]", ","] then return [] else return [← level.test]
  let lower ← if ← isOp ":" then pure [] else pure [← starOr level (namedTest level)]
  if ← eatOp ":" then
    let upper ← if ← isOp ":" then pure [] else bound
    let stride ← if ← eatOp ":" then bound else pure []
    return lower ++ upper ++ stride
  else return lower

/-- The items of a subscript and the closing bracket. -/
def subscripts (level : Level) : Reader (List Expr) := do
  let items ← commaSeparated (isOp "]") (subscriptItem level)
  expectOp "]"
  return items.flatten

/-! ### Operators -/

/-- What can follow an atom. -/
inductive Trailer where
  | call (args : List Expr)
  | subscript (index : List Expr)
  | member

/-- An expression with one more trailer. -/
def Trailer.apply (object : Expr) : Trailer → Expr
  | call args => .operation (object :: args)
  | subscript index => .subscript object index
  | member => .member object

/-- A trailer, if one begins here. -/
def trailer? (level : Level) : Reader (Option Trailer) := do
  if ← eatOp "(" then return some (.call (← arguments level))
  else if ← eatOp "[" then return some (.subscript (← subscripts level))
  else if ← eatOp "." then
    match ← peek with
    | .name _ =>
      advance
      return some .member
    | _ => unexpected
  else return none

/-- An atom and its trailers. -/
def primary (level : Level) : Reader Expr := do
  let atom ← level.atom
  return (← many (trailer? level)).foldl Trailer.apply atom

/-- A primary, or one that is waited for. -/
def awaited (level : Level) : Reader Expr := do
  if ← eatWord "await" then return .operation [← primary level] else primary level

/-- An operand with a sign, or one without. -/
def signedOr (level : Level) (plain : Reader Expr) : Reader Expr := do
  if ← eatIf (isOneOf ["-", "+", "~"]) then return .operation [← level.signed] else plain

/-- Operands of the power operator, which groups from the right. -/
def powers : Expr → List Expr → Expr
  | base, [] => base
  | base, exponent :: others => .operation [base, powers exponent others]

/-- An operand of the binary operators: signs bind weaker than powers, and an exponent may have
signs of its own. -/
def factor (level : Level) : Reader Expr :=
  signedOr level do
    let base ← awaited level
    return powers base (← manyWhile (eatOp "**") (signedOr level (awaited level)))

/-- Operands between the given operators. -/
def operatorsOver (ops : List String) (operand : Reader Expr) : Reader Expr :=
  return .combine (← oneAndMore (eatIf (isOneOf ops)) operand)

/-- The binary operators, from those that bind weakest to those that bind strongest. -/
def binaryOperators : List (List String) :=
  [["|"], ["^"], ["&"], ["<<", ">>"], ["+", "-"], ["*", "/", "//", "%", "@"]]

/-- An expression of binary operators. -/
def arithmetic (level : Level) : Reader Expr :=
  binaryOperators.foldr operatorsOver (factor level)

/-- Passes over a comparison operator if one is at the front, and tells whether it was. -/
def eatComparison : Reader Bool := do
  if ← eatIf (isOneOf ["<", ">", "==", ">=", "<=", "!="]) then return true
  else if ← eatWord "in" then return true
  else if (← isWord "not") && (← peekSecond) == .name "in" then
    advance
    advance
    return true
  else if ← eatWord "is" then
    let _ ← eatWord "not"
    return true
  else return false

/-- A chain of comparisons. -/
def comparison (level : Level) : Reader Expr :=
  return .combine (← oneAndMore eatComparison (arithmetic level))

/-- A comparison, or a negated operand. -/
def negation (level : Level) : Reader Expr := do
  if ← eatWord "not" then return .operation [← level.negated] else comparison level

def conjunction (level : Level) : Reader Expr :=
  return .combine (← oneAndMore (eatWord "and") (negation level))

def disjunction (level : Level) : Reader Expr :=
  return .combine (← oneAndMore (eatWord "or") (conjunction level))

/-! ### Functions and conditionals -/

/-- A parameter: its name, if it has one, and the expressions read where the function stands. -/
structure Parameter where
  name : Option String
  reads : List Expr

/-- An annotation, where the function may have them. -/
def annotation (level : Level) (annotated : Bool) : Reader (List Expr) := do
  if annotated then
    if ← eatOp ":" then return [← level.test] else return []
  else return []

/-- A parameter, or a mark between parameters. -/
def parameter (level : Level) (annotated : Bool) : Reader Parameter := do
  if ← eatOp "/" then return ⟨none, []⟩
  else if ← eatIf (isOneOf ["*", "**"]) then
    match ← peek with
    | .name _ =>
      let name ← expectName
      return ⟨some name, ← annotation level annotated⟩
    | _ => return ⟨none, []⟩
  else
    let name ← expectName
    let note ← annotation level annotated
    let default ← if ← eatOp "=" then pure [← level.test] else pure []
    return ⟨some name, default ++ note⟩

/-- The parameters of a function, up to the mark that closes them. -/
def parameters (level : Level) (close : String) (annotated : Bool) : Reader (List Parameter) := do
  if ← isOp close then return []
  else commaSeparated (isOp close) (parameter level annotated)

/-- The names that parameters bind. -/
def parameterNames (ps : List Parameter) : List String :=
  ps.filterMap Parameter.name

/-- What parameters read where the function stands. -/
def parameterReads (ps : List Parameter) : List Expr :=
  ps.flatMap Parameter.reads

/-- A function without a name. -/
def lambdaExpr (level : Level) : Reader Expr := do
  advance
  let ps ← parameters level ":" false
  expectOp ":"
  let body ← level.test
  return .lambda (parameterNames ps) (parameterReads ps) body

/-- A whole expression. -/
def conditional (level : Level) : Reader Expr := do
  if ← isWord "lambda" then lambdaExpr level
  else
    let body ← disjunction level
    if ← eatWord "if" then
      let condition ← disjunction level
      expectWord "else"
      let alternative ← level.test
      return .operation [body, condition, alternative]
    else return body

/-! ### Atoms -/

/-- The rest of a bracketed list, behind its first item. -/
def sequenceTail (level : Level) (first : Expr) (close : String) : Reader (List Expr) := do
  let others ← manyWhile (do if ← eatOp "," then return !(← isOp close) else return false)
    (starOr level (namedTest level))
  expectOp close
  return first :: others

/-- What stands behind an opening parenthesis. -/
def parenthesized (level : Level) : Reader Expr := do
  if ← eatOp ")" then return .tuple []
  else if ← isWord "yield" then
    let inner ← yieldExpr level
    expectOp ")"
    return inner
  else
    let first ← starOr level (namedTest level)
    if ← atGenerator then
      let e ← comprehensionOf level [first]
      expectOp ")"
      return e
    else if ← isOp "," then return .tuple (← sequenceTail level first ")")
    else
      expectOp ")"
      return first

/-- What stands behind an opening square bracket. -/
def bracketed (level : Level) : Reader Expr := do
  if ← eatOp "]" then return .list []
  else
    let first ← starOr level (namedTest level)
    if ← atGenerator then
      let e ← comprehensionOf level [first]
      expectOp "]"
      return e
    else return .list (← sequenceTail level first "]")

/-- An entry of a set or a dictionary. -/
def braceEntry (level : Level) : Reader Expr := do
  if ← eatOp "**" then level.again .arithmetic
  else
    let key ← starOr level (namedTest level)
    if ← eatOp ":" then return .operation [key, ← level.test] else return key

/-- What stands behind an opening brace. -/
def braced (level : Level) : Reader Expr := do
  if ← eatOp "\x7d" then return .operation []
  else
    let first ← braceEntry level
    if ← atGenerator then
      let e ← comprehensionOf level [first]
      expectOp "\x7d"
      return e
    else
      let others ← manyWhile
        (do if ← eatOp "," then return !(← isOp "\x7d") else return false) (braceEntry level)
      expectOp "\x7d"
      return .operation (first :: others)

/-- The expression in a replacement field of a string that begins at `p`. -/
def fieldValue (level : Level) (p : Position) (field : String) : Except SyntaxError Expr :=
  match tokens field with
  | .error e => .error ⟨.inField e.fault, p⟩
  | .ok ts =>
    match testList level ts with
    | .error e => .error ⟨.inField e.fault, p⟩
    | .ok (value, rest) =>
      if headLexeme rest matches .newline | .endOfInput then .ok value
      else .error ⟨.excessInField field, p⟩

/-- The expressions in the replacement fields of a string, if a string is at the front; `p` is where
the run of strings begins. -/
def stringFields? (level : Level) (p : Position) : Reader (Option (List Expr)) := do
  match ← peek with
  | .string fields =>
    advance
    return some (← (fields.mapM (fieldValue level p) : Except SyntaxError (List Expr)))
  | _ => return none

/-- A name, a literal or something in brackets. -/
def plainAtom (level : Level) : Reader Expr := do
  let p ← position
  match ← peek with
  | .op "(" =>
    advance
    parenthesized level
  | .op "[" =>
    advance
    bracketed level
  | .op "\x7b" =>
    advance
    braced level
  | .op "..." | .number =>
    advance
    return .operation []
  | .name text =>
    if ["None", "True", "False"].contains text then
      advance
      return .operation []
    else if isKeyword text then unexpected
    else
      advance
      return .name text
  | .string _ => return .operation (← many (stringFields? level p)).flatten
  | _ => unexpected

/-! ### Levels -/

/-- The level whose nested rules are given. -/
def Level.over (inner : Nested) : Level :=
  { inner with
    again := recursive fun again operand =>
      match operand with
      | .disjunction => disjunction { inner with again }
      | .arithmetic => arithmetic { inner with again } }

/-- The rules that open a nesting level when `n` more may be opened. -/
def nested : Nat → Nested
  | 0 =>
    { test := fail .expressionTooDeep
      negated := fail .expressionTooDeep
      signed := fail .expressionTooDeep
      atom := fail .parenthesesTooDeep }
  | n + 1 =>
    let level := Level.over (nested n)
    { test := conditional level
      negated := negation level
      signed := factor level
      atom := plainAtom level }

/-- The level at which `n` more levels may be opened. -/
def Level.withRoom (n : Nat) : Level :=
  .over (nested n)

end ConceptForest.Script
