import ConceptForest.Document
import ConceptForest.Text.Numeral
import ConceptForest.Text.Quoted

/-!
Documents in YAML, in the block style: lists by dashes, fields by line.

A text is written as it is, where that can be read as nothing else; between single quotation marks
where it would be; over several lines where it has line breaks; and between double quotation marks,
with escapes, where nothing else can hold it.
-/

namespace ConceptForest.Document

open ConceptForest.Text (numeral? Decimal)

/-! ### What a plain text would be read as -/

/-- The texts that stand for no value and for truth values. -/
def reservedWords : List String :=
  ["", "null", "Null", "NULL", "~", "true", "True", "TRUE", "false", "False", "FALSE"]

/-- The texts that stand for numbers without digits. -/
def unusualNumbers : List String :=
  [".inf", ".Inf", ".INF", "+.inf", "+.Inf", "+.INF", "-.inf", "-.Inf", "-.INF",
    ".nan", ".NaN", ".NAN"]

/-- A text without its sign, and whether that was a minus sign. -/
def unsigned : List Char → Bool × List Char
  | '-' :: cs => (true, cs)
  | '+' :: cs => (false, cs)
  | cs => (false, cs)

/-- Is the text a whole number of 128 bits in another radix? Negative ones have a range of their
own. -/
def isRadixNumber (cs : List Char) : Bool :=
  let (negative, cs) := unsigned cs
  let inRange (n : Nat) := if negative then n ≤ 1 <<< 127 else n < 1 <<< 128
  match cs with
  | '0' :: 'x' :: ds => (numeral? 16 ds).any (inRange ·)
  | '0' :: 'o' :: ds => (numeral? 8 ds).any (inRange ·)
  | '0' :: 'b' :: ds => (numeral? 2 ds).any (inRange ·)
  | _ => false

/-- Is the text a decimal number, or one of the digit strings that some readers take for one? -/
def isDecimalNumber (cs : List Char) : Bool :=
  let cs := (unsigned cs).2
  (Decimal.read? cs).any Decimal.isFinite ||
    (1 < cs.length && cs.head? == some '0' && cs.all Char.isDigit)

/-- Would the plain text be read as something other than a text? -/
def readsOtherwise (s : String) : Bool :=
  reservedWords.contains s || unusualNumbers.contains s || isRadixNumber s.toList ||
    isDecimalNumber s.toList

/-! ### What plain text can hold -/

/-- The characters that are written without an escape. -/
def isPrintable (c : Char) : Bool :=
  let n := c.toNat
  n == 0x0a || (0x20 ≤ n && n ≤ 0x7e) ||
    (0xa0 ≤ n && n != 0xfeff && n != 0xfffe && n != 0xffff)

/-- The characters that break a line. -/
def isBreak (c : Char) : Bool :=
  c == '\n' || c == '\r' || c == '\u0085' || c == '\u2028' || c == '\u2029'

/-- Blanks and line breaks. -/
def isGap (c : Char) : Bool :=
  c == ' ' || c == '\t' || isBreak c

/-- The characters that a plain text cannot begin with. -/
def opensOtherwise (c : Char) : Bool :=
  "#,[]\x7b\x7d&*!|>'\"%@`".contains c

/-- Is the pattern somewhere in the text? -/
def hasPair (first second : Char → Bool) : List Char → Bool
  | a :: b :: cs => (first a && second b) || hasPair first second (b :: cs)
  | _ => false

/-- Is there a sign in the text that means something? A colon does before a gap and at the end, a
number sign behind a gap, a dash and a question mark at the beginning before a gap. -/
def hasIndicator (cs : List Char) : Bool :=
  ['-', '-', '-'].isPrefixOf cs || ['.', '.', '.'].isPrefixOf cs ||
    cs.head?.any opensOtherwise ||
    (cs.head?.any (fun c => c == '-' || c == '?') && cs.tail.head?.all isGap) ||
    cs.getLast? == some ':' || hasPair (· == ':') isGap cs || hasPair isGap (· == '#') cs

/-- How a text is written. -/
inductive YamlStyle where
  | plain
  | singleQuoted
  | doubleQuoted
  /-- Line by line. -/
  | literal
  deriving DecidableEq, Repr

/-- The style of a text. -/
def yamlStyle (s : String) : YamlStyle :=
  let cs := s.toList
  let strange := cs.any (!isPrintable ·) || hasPair (· == ' ') isBreak cs
  let closesBlank := cs.getLast? == some ' '
  if cs.contains '\n' then
    if strange || closesBlank then .doubleQuoted else .literal
  else if strange || hasPair isBreak (· == ' ') cs then .doubleQuoted
  else if readsOtherwise s || hasIndicator cs || cs.any isBreak || cs.head? == some ' ' ||
      closesBlank then .singleQuoted
  else .plain

/-! ### Writing texts -/

/-- The letter of a character that has one for its escape. -/
def escapeLetter? (c : Char) : Option Char :=
  [('\x00', '0'), ('\x07', 'a'), ('\x08', 'b'), ('\t', 't'), ('\n', 'n'), ('\x0b', 'v'),
    ('\x0c', 'f'), ('\r', 'r'), ('\x1b', 'e'), ('"', '"'), ('\\', '\\'), ('\u0085', 'N'),
    ('\u2028', 'L'), ('\u2029', 'P')].lookup c

/-- A character between double quotation marks. -/
def doubleQuotedChar (c : Char) : List Char :=
  match escapeLetter? c with
  | some letter => ['\\', letter]
  | none =>
    if isPrintable c then [c]
    else
      let digits := (Text.hexDigits c.toNat).map Char.toUpper
      let (mark, width) := if c.toNat ≤ 0xff then ('x', 2) else ('u', 4)
      ['\\', mark] ++ List.replicate (width - digits.length) '0' ++ digits

/-- The characters of a text over several lines. Blanks are put before the first character of each
line; `fresh` says that a line begins here. -/
def indented (indent : Nat) (fresh : Bool) (escape : Char → List Char) : List Char → List Char
  | [] => []
  | c :: cs =>
    if isBreak c then c :: indented indent true escape cs
    else
      (if fresh then List.replicate indent ' ' else []) ++ escape c ++
        indented indent false escape cs

/-- How a text over several lines begins: whether its first line has blanks of its own, and what
becomes of the line breaks at its end. -/
def literalHeader (cs : List Char) : String :=
  let hint := if cs.head?.any fun c => c == ' ' || isBreak c then "2" else ""
  let chomp := match cs.reverse with
    | c :: rest =>
      if !isBreak c then "-" else if rest.head?.all isBreak then "+" else ""
    | [] => "-"
  "|" ++ hint ++ chomp ++ "\n"

/-- A text in its style. The line break behind it is not part of it. -/
def yamlText (indent : Nat) (s : String) : String :=
  match yamlStyle s with
  | .plain => s
  | .singleQuoted =>
    let body := indented indent false (fun c => if c == '\'' then [c, c] else [c]) s.toList
    "'" ++ String.ofList body ++ "'"
  | .doubleQuoted => "\"" ++ String.ofList (s.toList.flatMap doubleQuotedChar) ++ "\""
  | .literal =>
    let cs := s.toList
    let body := if cs.getLast? == some '\n' then cs.dropLast else cs
    literalHeader cs ++ String.ofList (indented indent true (fun c => [c]) body)

/-! ### Writing documents -/

/-- What stands between the name of a field and its document, and the column where that begins. The
items of a list begin below the name, fields further to the right. -/
def fieldStart (column : Nat) : Document → String × Nat
  | list (_ :: _) => (newline column, column)
  | record (_ :: _) => (newline (column + 2), column + 2)
  | _ => (" ", column + 2)

mutual

/-- A document that begins at the given column. -/
def yamlAt (column : Nat) : Document → String
  | text s => yamlText column s
  | number n => toString n
  | truth b => if b then "true" else "false"
  | list [] => "[]"
  | list items => String.intercalate (newline column) (yamlItems column items)
  | record [] => "\x7b\x7d"
  | record fields => String.intercalate (newline column) (yamlFields column fields)

def yamlItems (column : Nat) : List Document → List String
  | [] => []
  | d :: ds => ("- " ++ d.yamlAt (column + 2)) :: yamlItems column ds

def yamlFields (column : Nat) : List (String × Document) → List String
  | [] => []
  | (name, d) :: rest =>
    let (gap, start) := fieldStart column d
    (name ++ ":" ++ gap ++ d.yamlAt start) :: yamlFields column rest

end

/-- A document in YAML. -/
def yaml (d : Document) : String :=
  d.yamlAt 0

end ConceptForest.Document
