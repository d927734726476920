import ConceptForest.Text.Blank

/-!
The body of a fenced snippet.

A snippet may stand on the fence's own line or on lines of its own, indented as deep as the text
around it. Its body is what remains when the fence's line break, the blank lines at the end and the
indentation that all lines share are taken away. Widths are measured in UTF-8 bytes, so a wide
blank counts for more than one; a line whose indentation cannot be cut at that width loses all of
it.
-/

namespace ConceptForest.Grammar.FencedBody

open ConceptForest.Text

/-- The number of bytes that a text takes. -/
def byteWidth (cs : List Char) : Nat :=
  cs.foldr (fun c width => c.utf8Size + width) 0

/-- `cs` without its first `n` bytes; nothing if `cs` is shorter or a character straddles the cut. -/
def dropBytes? : Nat → List Char → Option (List Char)
  | 0, cs => some cs
  | _ + 1, [] => none
  | n + 1, c :: cs => if c.utf8Size ≤ n + 1 then dropBytes? (n + 1 - c.utf8Size) cs else none

/-- The width of the blanks in front of a line. -/
def indentation (line : List Char) : Nat :=
  byteWidth (line.takeWhile isBlank)

/-- The lines of a body: a blank first line is the fence's own and goes, any other first line
stands right behind the fence and has no indentation; blank lines at the end go too. -/
def bodyLines (raw : List Char) : List (List Char) :=
  let ls :=
    match lines raw with
    | [] => []
    | first :: rest => if isBlankLine first then rest else trimStart first :: rest
  (ls.reverse.dropWhile isBlankLine).reverse

/-- The indentation that all lines share; blank lines are not asked. -/
def commonIndentation (ls : List (List Char)) : Nat :=
  match (ls.filter fun line => !isBlankLine line).map indentation with
  | [] => 0
  | n :: ns => ns.foldl min n

/-- A line without the shared indentation. -/
def dedentLine (n : Nat) (line : List Char) : List Char :=
  (dropBytes? n line).getD (trimStart line)

/-- The body of the text between two fences. -/
def normalize (raw : List Char) : List Char :=
  let ls := bodyLines raw
  unlines (ls.map (dedentLine (commonIndentation ls)))

end ConceptForest.Grammar.FencedBody
