/-!
Blank characters and the trimming of texts.

A character is blank when it has the Unicode property White_Space: the ASCII blanks, the C1 line
break, and the spaces and line breaks of the other blocks. Every place that skips blanks, trims a
text or asks whether a line is empty uses this one set.
-/

namespace ConceptForest.Text

/-- The characters of the property White_Space. -/
def isBlank (c : Char) : Bool :=
  let n := c.toNat
  (9 ≤ n && n ≤ 13) || n == 0x20 || n == 0x85 || n == 0xa0 || n == 0x1680 ||
    (0x2000 ≤ n && n ≤ 0x200a) || n == 0x2028 || n == 0x2029 || n == 0x202f || n == 0x205f ||
    n == 0x3000

/-- `cs` without its leading blanks. -/
def trimStart (cs : List Char) : List Char :=
  cs.dropWhile isBlank

/-- `cs` without its trailing blanks. -/
def trimEnd (cs : List Char) : List Char :=
  (cs.reverse.dropWhile isBlank).reverse

/-- `cs` without its leading and trailing blanks. -/
def trim (cs : List Char) : List Char :=
  trimEnd (trimStart cs)

/-- A line with nothing but blanks on it. -/
def isBlankLine (cs : List Char) : Bool :=
  cs.all isBlank

/-- The lines of a text: the pieces between its line breaks, one more than there are breaks. -/
def lines : List Char → List (List Char)
  | [] => [[]]
  | '\n' :: cs => [] :: lines cs
  | c :: cs =>
    match lines cs with
    | [] => [[c]]
    | line :: rest => (c :: line) :: rest

/-- The text made of the given lines, a line break between each two. -/
def unlines (ls : List (List Char)) : List Char :=
  List.intercalate ['\n'] ls

end ConceptForest.Text
