import ConceptForest.Toml.Scalar

/-!
Reading the statements of a TOML file.
-/

namespace ConceptForest.Toml

/-! ### Between values -/

/-- The text without the blanks at its start. -/
def skipSpaces (cs : List Char) : List Char :=
  cs.dropWhile isSpace

/-- Passes over blanks, line breaks and comments. -/
def skipGaps (inComment : Bool) : List Char → Option (List Char)
  | [] => some []
  | '\n' :: cs | '\r' :: '\n' :: cs => skipGaps false cs
  | c :: cs =>
    if inComment then if isTextChar c then skipGaps true cs else none
    else if isSpace c then skipGaps false cs
    else if c == '#' then skipGaps true cs
    else some (c :: cs)

/-- Passes over the end of a line, and blank lines behind it. -/
def endOfLine? (cs : List Char) : Option (List Char) :=
  match skipSpaces cs with
  | [] => some []
  | '\n' :: rest | '\r' :: '\n' :: rest => skipGaps false rest
  | '#' :: rest => skipGaps true rest
  | _ => none

/-! ### Keys -/

/-- The characters of keys without quotation marks. -/
def isKeyChar (c : Char) : Bool :=
  c.isAlphanum || c == '_' || c == '-'

/-- Reads one key. -/
def key? : List Char → Option (String × List Char)
  | '"' :: rest => (basicText rest).map fun (cs, rest) => (String.ofList cs, rest)
  | '\'' :: rest => (literalText rest).map fun (cs, rest) => (String.ofList cs, rest)
  | cs =>
    match cs.takeWhile isKeyChar with
    | [] => none
    | name => some (String.ofList name, cs.dropWhile isKeyChar)

/-- Reads at most so many keys with points between them, and the blanks behind them. -/
def keys? : Nat → List Char → Option (List String × List Char)
  | 0, _ => none
  | n + 1, cs => do
    let (key, rest) ← key? cs
    match skipSpaces rest with
    | '.' :: rest =>
      let (keys, rest) ← keys? n (skipSpaces rest)
      return (key :: keys, rest)
    | rest => return ([key], rest)

/-- How deep keys and values may go. -/
def maxDepth : Nat := 79

/-! ### Values -/

/-- Reads a key with its value, the value by the given reader. -/
def pair? (value? : List Char → Option (Value × List Char)) (cs : List Char) :
    Option ((List String × Value) × List Char) := do
  let (path, rest) ← keys? maxDepth cs
  let (value, rest) ← value? (skipSpaces (← char? '=' rest))
  return ((path, value), rest)

/-- Reads the rest of a list, of at most so many items. -/
def listItems? (value? : List Char → Option (Value × List Char)) :
    Nat → List Char → Option (List Value × List Char)
  | 0, _ => none
  | n + 1, cs => do
    match ← skipGaps false cs with
    | ']' :: rest => return ([], rest)
    | cs =>
      let (item, rest) ← value? cs
      match ← skipGaps false rest with
      | ']' :: rest => return ([item], rest)
      | ',' :: rest =>
        let (items, rest) ← listItems? value? n rest
        return (item :: items, rest)
      | _ => none

/-- Reads the rest of a table on one line, of at most so many pairs. No comma stands behind the last
of them. -/
def tablePairs? (value? : List Char → Option (Value × List Char)) :
    Nat → List Char → Option (List (List String × Value) × List Char)
  | 0, _ => none
  | n + 1, cs => do
    let (pair, rest) ← pair? value? (skipSpaces cs)
    match skipSpaces rest with
    | '\x7d' :: rest => return ([pair], rest)
    | ',' :: rest =>
      let (pairs, rest) ← tablePairs? value? n rest
      return (pair :: pairs, rest)
    | _ => none

/-- Reads a value in which lists and tables stand at most so deep. `tableOf?` puts the pairs of a
table together. -/
def value? (tableOf? : List (List String × Value) → Option Value) :
    Nat → List Char → Option (Value × List Char)
  | 0, cs => scalar? cs
  | depth + 1, '[' :: rest => do
    let (items, rest) ← listItems? (value? tableOf? depth) rest.length rest
    return (.list items, rest)
  | depth + 1, '\x7b' :: rest => do
    match skipSpaces rest with
    | '\x7d' :: rest => return (← tableOf? [], rest)
    | rest =>
      let (pairs, rest) ← tablePairs? (value? tableOf? depth) rest.length rest
      return (← tableOf? pairs, rest)
  | _ + 1, cs => scalar? cs

/-! ### Statements -/

/-- Reads a statement without the end of its line. -/
def statement? (tableOf? : List (List String × Value) → Option Value) :
    List Char → Option (Statement × List Char)
  | '[' :: '[' :: rest => do
    let (path, rest) ← keys? maxDepth (skipSpaces rest)
    return (.listItem path, ← char? ']' (← char? ']' rest))
  | '[' :: rest => do
    let (path, rest) ← keys? maxDepth (skipSpaces rest)
    return (.table path, ← char? ']' rest)
  | cs => do
    let ((path, value), rest) ← pair? (value? tableOf? maxDepth) cs
    return (.assign path value, rest)

/-- Reads at most so many statements. -/
def statementsWithin? (tableOf? : List (List String × Value) → Option Value) :
    Nat → List Char → Option (List Statement)
  | _, [] => some []
  | 0, _ => none
  | n + 1, cs => do
    let (first, rest) ← statement? tableOf? cs
    return first :: (← statementsWithin? tableOf? n (← endOfLine? rest))

/-- The statements of a file. Each takes a character at least, which bounds their number. -/
def statements? (tableOf? : List (List String × Value) → Option Value) (cs : List Char) :
    Option (List Statement) := do
  let cs := if cs.head? == some '\ufeff' then cs.tail else cs
  statementsWithin? tableOf? cs.length (← skipGaps false cs)

end ConceptForest.Toml
