import ConceptForest.Script.Parser

/-!
The grammar of expressions, run on a parser.

Every rule is the reader of the same name, word for word, but for the levels: there is one rule for
all of them, and the depth of the parser tells when no further level may be opened. What the grammar
comes back to (`Body`) goes through `again`.
-/

namespace ConceptForest.Script.Parser

open ConceptForest.Text (Position)

/-- The rules that the grammar of expressions comes back to. -/
inductive Body where
  /-- A whole expression. -/
  | conditional
  /-- A comparison, or a negated operand. -/
  | negation
  /-- An operand of the binary operators. -/
  | factor
  /-- A name, a literal or something in brackets. -/
  | atom
  /-- An expression without a conditional. -/
  | disjunction
  /-- An expression of binary operators. -/
  | arithmetic
  deriving DecidableEq, Repr

/-- A level is gone through from the rules that open it down to the two that come back on it. -/
def Body.rank : Body → Nat
  | conditional | negation | factor | atom => 1
  | disjunction | arithmetic => 0

variable (again : Body → Rule Expr)

/-! ### Rules that open a nesting level -/

/-- A whole expression. -/
def test : Rule Expr :=
  deeper .expressionTooDeep (again .conditional)

/-- The operand of `not`. -/
def negated : Rule Expr :=
  deeper .expressionTooDeep (again .negation)

/-- The operand of a sign. -/
def signed : Rule Expr :=
  deeper .expressionTooDeep (again .factor)

/-- A name, a literal or something in brackets. -/
def atom : Rule Expr :=
  deeper .parenthesesTooDeep (again .atom)

/-! ### Lists of expressions -/

/-- An expression between brackets or behind a comma, which may be bound to a name on the fly. -/
def namedTest : Rule Expr := do
  match ← peek with
  | .name text =>
    if !isKeyword text && (← peekSecond) == .op ":=" then
      advance
      advance
      return .named text (← test again)
    else test again
  | _ => test again

/-- Reads what `plain` reads, or a starred operand. -/
def starOr (plain : Rule Expr) : Rule Expr := do
  if ← eatOp "*" then return .starred (← again .arithmetic) else plain

/-- Expressions between commas: one alone is itself, more make a tuple. -/
def tupleOf (item : Rule Expr) : Rule Expr := do
  let first ← item
  if ← isOp "," then
    let others ← manyWhile (do if ← eatOp "," then startsExpression else return false) item
    return .tuple (first :: others)
  else return first

/-- Expressions between commas, some of them starred. -/
def testList : Rule Expr :=
  tupleOf (starOr again (test again))

/-- One of the things that an assignment, a loop or a comprehension binds. -/
def starTarget : Rule Expr :=
  starOr again (again .arithmetic)

/-- What an assignment, a loop or a comprehension binds. -/
def targetList : Rule Expr :=
  tupleOf (starTarget again)

/-- A yield expression, the word itself included. -/
def yieldExpr : Rule Expr := do
  advance
  if ← eatWord "from" then return .operation [← test again]
  else if ← startsExpression then return .operation [← testList again]
  else return .operation []

/-- A yield expression, or expressions between commas. -/
def yieldOrTestList : Rule Expr := do
  if ← isWord "yield" then yieldExpr again else testList again

/-! ### Comprehensions, arguments and subscripts -/

/-- Does the clause of a comprehension begin here? -/
def atGenerator : Rule Bool := do
  if ← isWord "for" then return true
  else if ← isWord "async" then return (← peekSecond) == .name "for"
  else return false

/-- One clause of a comprehension. -/
def generator : Rule Generator := do
  let _ ← eatWord "async"
  expectWord "for"
  let target ← targetList again
  expectWord "in"
  let source ← again .disjunction
  let conditions ← manyWhile (eatWord "if") (again .disjunction)
  return .clause target source conditions

/-- The clauses of a comprehension over the given elements, the first of which begins here. -/
def comprehensionOf (elements : List Expr) : Rule Expr := do
  let first ← generator again
  let others ← manyWhile atGenerator (generator again)
  return .comprehension elements first others

/-- One argument of a call. The name of a keyword argument is not read. -/
def argument : Rule Expr := do
  if ← eatIf (isOneOf ["*", "**"]) then test again
  else
    let named := match ← peek with
      | .name text => !isKeyword text
      | _ => false
    if named && (← peekSecond) == .op "=" then
      advance
      advance
      test again
    else
      let value ← namedTest again
      if ← atGenerator then comprehensionOf again [value] else return value

/-- The arguments of a call and the closing bracket. -/
def arguments : Rule (List Expr) := do
  let args ← if ← isOp ")" then pure [] else commaSeparated (isOp ")") (argument again)
  expectOp ")"
  return args

/-- One item of a subscript: an index, or the bounds of a slice that are there. -/
def subscriptItem : Rule (List Expr) := do
  let bound : Rule (List Expr) := do
    if ← isOneOf ["]", ","] then return [] else return [← test again]
  let lower ← if ← isOp ":" then pure [] else pure [← starOr again (namedTest again)]
  if ← eatOp ":" then
    let upper ← if ← isOp ":" then pure [] else bound
    let stride ← if ← eatOp ":" then bound else pure []
    return lower ++ upper ++ stride
  else return lower

/-- The items of a subscript and the closing bracket. -/
def subscripts : Rule (List Expr) := do
  let items ← commaSeparated (isOp "]") (subscriptItem again)
  expectOp "]"
  return items.flatten

/-! ### Operators -/

/-- A trailer, if one begins here. -/
def trailer? : Rule (Option Trailer) := do
  if ← eatOp "(" then return some (.call (← arguments again))
  else if ← eatOp "[" then return some (.subscript (← subscripts again))
  else if ← eatOp "." then
    match ← peek with
    | .name _ =>
      advance
      return some .member
    | _ => unexpected
  else return none

/-- An atom and its trailers. -/
def primary : Rule Expr := do
  let atom ← atom again
  return (← many (trailer? again)).foldl Trailer.apply atom

/-- A primary, or one that is waited for. -/
def awaited : Rule Expr := do
  if ← eatWord "await" then return .operation [← primary again] else primary again

/-- An operand with a sign, or one without. -/
def signedOr (plain : Rule Expr) : Rule Expr := do
  if ← eatIf (isOneOf ["-", "+", "~"]) then return .operation [← signed again] else plain

/-- An operand of the binary operators: signs bind weaker than powers, and an exponent may have
signs of its own. -/
def factor : Rule Expr :=
  signedOr again do
    let base ← awaited again
    return powers base (← manyWhile (eatOp "**") (signedOr again (awaited again)))

/-- Operands between the given operators. -/
def operatorsOver (ops : List String) (operand : Rule Expr) : Rule Expr :=
  return .combine (← oneAndMore (eatIf (isOneOf ops)) operand)

/-- An expression of binary operators. -/
def arithmetic : Rule Expr :=
  binaryOperators.foldr operatorsOver (factor again)

/-- Passes over a comparison operator if one is at the front, and tells whether it was. -/
def eatComparison : Rule Bool := do
  if ← eatIf (isOneOf ["<", ">", "==", ">=", "<=", "!="]) then return true
  else if ← eatWord "in" then return true
  else if (← isWord "not") && (← peekSecond) == .name "in" then
    advance
    advance
    return true
  else if ← eatWord "is" then
    let _ ← eatWord "not"
    return true
  else return false

/-- A chain of comparisons. -/
def comparison : Rule Expr :=
  return .combine (← oneAndMore eatComparison (arithmetic again))

/-- A comparison, or a negated operand. -/
def negation : Rule Expr := do
  if ← eatWord "not" then return .operation [← negated again] else comparison again

def conjunction : Rule Expr :=
  return .combine (← oneAndMore (eatWord "and") (negation again))

def disjunction : Rule Expr :=
  return .combine (← oneAndMore (eatWord "or") (conjunction again))

/-! ### Functions and conditionals -/

/-- An annotation, where the function may have them. -/
def annotation (annotated : Bool) : Rule (List Expr) := do
  if annotated then
    if ← eatOp ":" then return [← test again] else return []
  else return []

/-- A parameter, or a mark between parameters. -/
def parameter (annotated : Bool) : Rule Parameter := do
  if ← eatOp "/" then return ⟨none, []⟩
  else if ← eatIf (isOneOf ["*", "**"]) then
    match ← peek with
    | .name _ =>
      let name ← expectName
      return ⟨some name, ← annotation again annotated⟩
    | _ => return ⟨none, []⟩
  else
    let name ← expectName
    let note ← annotation again annotated
    let default ← if ← eatOp "=" then pure [← test again] else pure []
    return ⟨some name, default ++ note⟩

/-- The parameters of a function, up to the mark that closes them. -/
def parameters (close : String) (annotated : Bool) : Rule (List Parameter) := do
  if ← isOp close then return []
  else commaSeparated (isOp close) (parameter again annotated)

/-- A function without a name. -/
def lambdaExpr : Rule Expr := do
  advance
  let ps ← parameters again ":" false
  expectOp ":"
  let body ← test again
  return .lambda (parameterNames ps) (parameterReads ps) body

/-- A whole expression. -/
def conditional : Rule Expr := do
  if ← isWord "lambda" then lambdaExpr again
  else
    let body ← disjunction again
    if ← eatWord "if" then
      let condition ← disjunction again
      expectWord "else"
      let alternative ← test again
      return .operation [body, condition, alternative]
    else return body

/-! ### Atoms -/

/-- The rest of a bracketed list, behind its first item. -/
def sequenceTail (first : Expr) (close : String) : Rule (List Expr) := do
  let others ← manyWhile (do if ← eatOp "," then return !(← isOp close) else return false)
    (starOr again (namedTest again))
  expectOp close
  return first :: others

/-- What stands behind an opening parenthesis. -/
def parenthesized : Rule Expr := do
  if ← eatOp ")" then return .tuple []
  else if ← isWord "yield" then
    let inner ← yieldExpr again
    expectOp ")"
    return inner
  else
    let first ← starOr again (namedTest again)
    if ← atGenerator then
      let e ← comprehensionOf again [first]
      expectOp ")"
      return e
    else if ← isOp "," then return .tuple (← sequenceTail again first ")")
    else
      expectOp ")"
      return first

/-- What stands behind an opening square bracket. -/
def bracketed : Rule Expr := do
  if ← eatOp "]" then return .list []
  else
    let first ← starOr again (namedTest again)
    if ← atGenerator then
      let e ← comprehensionOf again [first]
      expectOp "]"
      return e
    else return .list (← sequenceTail again first "]")

/-- An entry of a set or a dictionary. -/
def braceEntry : Rule Expr := do
  if ← eatOp "**" then again .arithmetic
  else
    let key ← starOr again (namedTest again)
    if ← eatOp ":" then return .operation [key, ← test again] else return key

/-- What stands behind an opening brace. -/
def braced : Rule Expr := do
  if ← eatOp "\x7d" then return .operation []
  else
    let first ← braceEntry again
    if ← atGenerator then
      let e ← comprehensionOf again [first]
      expectOp "\x7d"
      return e
    else
      let others ← manyWhile
        (do if ← eatOp "," then return !(← isOp "\x7d") else return false) (braceEntry again)
      expectOp "\x7d"
      return .operation (first :: others)

/-- The expression in a replacement field of a string that begins at `here`. The tokens of the field
take the place of those that are read from, and give it back. -/
def fieldValue (here : Position) (field : String) : Rule Expr := do
  match Script.tokens field with
  | .error e => failAt (.inField e.fault) here
  | .ok ts =>
    let (result, complete) ← elsewhere ts (testList again)
    match result with
    | .error e => failAt (.inField e.fault) here
    | .ok value => if complete then return value else failAt (.excessInField field) here

/-- The expressions in the replacement fields of a string, if a string is at the front; `here` is
where the run of strings begins. -/
def stringFields? (here : Position) : Rule (Option (List Expr)) := do
  match ← peek with
  | .string fields =>
    advance
    return some (← fields.mapM (fieldValue again here))
  | _ => return none

/-- A name, a literal or something in brackets. -/
def plainAtom : Rule Expr := do
  let here ← position
  match ← peek with
  | .op "(" =>
    advance
    parenthesized again
  | .op "[" =>
    advance
    bracketed again
  | .op "\x7b" =>
    advance
    braced again
  | .op "..." | .number =>
    advance
    return .operation []
  | .name text =>
    if ["None", "True", "False"].contains text then
      advance
      return .operation []
    else if isKeyword text then unexpected
    else
      advance
      return .name text
  | .string _ => return .operation (← many (stringFields? again here)).flatten
  | _ => unexpected

/-! ### The grammar tied to itself -/

/-- What the rule is when it comes back to `again`. -/
def bodyOver : Body → Rule Expr
  | .conditional => conditional again
  | .negation => negation again
  | .factor => factor again
  | .atom => plainAtom again
  | .disjunction => disjunction again
  | .arithmetic => arithmetic again

/-- The rules of the grammar of expressions. -/
def body : Body → Rule Expr :=
  recursive Body.rank bodyOver

end ConceptForest.Script.Parser
