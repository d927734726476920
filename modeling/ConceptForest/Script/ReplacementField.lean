import ConceptForest.Text.Blank

/-!
Replacement fields of formatted strings.

A field stands between braces in the body of a formatted string. Its expression ends at the closing
brace, at a conversion, at a format specification or at the sign that asks for the expression to be
shown; a specification may hold fields of its own. Doubled opening braces are text.
-/

namespace ConceptForest.Script

open ConceptForest.Text (trim)

/-- Does the expression of a field end at `c`, with `rest` behind it and no bracket open? -/
def endsFieldExpression (c : Char) (rest : List Char) : Bool :=
  c == '\x7d' || c == ':' || (c == '!' && rest.head? != some '=') ||
    (c == '=' && rest.head?.any fun d => d == '\x7d' || d == '!' || d == ':')

/-- The number of open brackets behind `c`. -/
def bracketDepth (depth : Nat) (c : Char) : Nat :=
  if c == '(' || c == '[' || c == '\x7b' then depth + 1
  else if c == ')' || c == ']' || c == '\x7d' then depth - 1
  else depth

/-- The expression at the start of a field, and what follows it. `depth` brackets are open, and
`quote` is the mark of the string that is being passed over. -/
def fieldExpression (depth : Nat) (quote : Option Char) : List Char → List Char × List Char
  | [] => ([], [])
  | c :: cs =>
    match quote with
    | some q =>
      let (expression, rest) := fieldExpression depth (if c == q then none else some q) cs
      (c :: expression, rest)
    | none =>
      if depth == 0 && endsFieldExpression c cs then ([], c :: cs)
      else
        let inside := if c == '\'' || c == '"' then some c else none
        let (expression, rest) := fieldExpression (bracketDepth depth c) inside cs
        (c :: expression, rest)

/-- What stands between the expression of a field and its closing brace, and what follows, the
brace first. -/
def fieldFormat (depth : Nat) : List Char → List Char × List Char
  | [] => ([], [])
  | c :: cs =>
    if depth == 0 && c == '\x7d' then ([], c :: cs)
    else
      let deeper := if c == '\x7b' then depth + 1 else if c == '\x7d' then depth - 1 else depth
      let (format, rest) := fieldFormat deeper cs
      (c :: format, rest)

theorem fieldExpression_append (depth : Nat) (quote : Option Char) (cs : List Char) :
    (fieldExpression depth quote cs).1 ++ (fieldExpression depth quote cs).2 = cs := by
  fun_induction fieldExpression depth quote cs <;> simp_all

theorem fieldFormat_append (depth : Nat) (cs : List Char) :
    (fieldFormat depth cs).1 ++ (fieldFormat depth cs).2 = cs := by
  fun_induction fieldFormat depth cs <;> simp_all

/-- The sources of the replacement fields in the body of a formatted string, from left to right.
A field without an expression counts only for the fields in its specification. -/
def replacementFields : List Char → List (List Char)
  | [] => []
  | '\x7b' :: '\x7b' :: cs => replacementFields cs
  | '\x7b' :: cs =>
    let expression := fieldExpression 0 none cs
    let format := fieldFormat 0 expression.2
    let source := trim expression.1
    (if source.isEmpty then [] else [source]) ++ replacementFields format.1 ++
      replacementFields (format.2.drop 1)
  | _ :: cs => replacementFields cs
termination_by cs => cs.length
decreasing_by
  · simp only [List.length_cons]; omega
  all_goals
    have := congrArg List.length (fieldExpression_append 0 none cs)
    have := congrArg List.length (fieldFormat_append 0 (fieldExpression 0 none cs).2)
    simp only [List.length_append, List.length_cons, List.length_drop] at *
    omega

end ConceptForest.Script
