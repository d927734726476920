import ConceptForest.Text.Numeral
import ConceptForest.Toml

/-!
The values of TOML that hold no others: texts, numbers, truth values and moments.

A reader takes what it can from the start of a text and gives back the rest; it fails if what stands
there is not what it reads.
-/

namespace ConceptForest.Toml

open ConceptForest.Text (numeral? Decimal)

/-- Blanks within a line. -/
def isSpace (c : Char) : Bool :=
  c == ' ' || c == '\t'

/-- The characters that stand for themselves in texts and comments. -/
def isTextChar (c : Char) : Bool :=
  c == '\t' || (0x20 ≤ c.toNat && c.toNat != 0x7f)

/-- Puts a character in front of what has been read. -/
def andThen (c : Char) (r : Option (List Char × List Char)) : Option (List Char × List Char) :=
  r.map fun (cs, rest) => (c :: cs, rest)

/-! ### Texts -/

/-- The character that a letter behind a backslash stands for. -/
def escaped? (c : Char) : Option Char :=
  [('b', '\x08'), ('t', '\t'), ('n', '\n'), ('f', '\x0c'), ('r', '\r'), ('"', '"'),
    ('\\', '\\')].lookup c

/-- The character with the given number in hexadecimal digits. -/
def codePoint? (digits : List Char) : Option Char := do
  let n ← numeral? 16 digits
  if n.isValidChar then some (Char.ofNat n) else none

/-- Where the reading of a text over several lines stands. -/
inductive Place where
  | inside
  /-- Behind a backslash that ends its line. -/
  | beforeBreak
  /-- Behind such a line, where blanks and line breaks mean nothing. -/
  | afterBreak
  deriving DecidableEq, Repr

/-- Reads the rest of a text between double quotation marks on one line. -/
def basicText : List Char → Option (List Char × List Char)
  | [] => none
  | '"' :: rest => some ([], rest)
  | '\\' :: 'u' :: a :: b :: c :: d :: rest => do
    andThen (← codePoint? [a, b, c, d]) (basicText rest)
  | '\\' :: 'U' :: a :: b :: c :: d :: e :: f :: g :: h :: rest => do
    andThen (← codePoint? [a, b, c, d, e, f, g, h]) (basicText rest)
  | '\\' :: c :: rest => do andThen (← escaped? c) (basicText rest)
  | c :: rest => if isTextChar c && c != '\\' then andThen c (basicText rest) else none

/-- Reads the rest of a text between three double quotation marks. Up to two such marks may stand
before the closing ones. -/
def longBasicText (place : Place) : List Char → Option (List Char × List Char)
  | [] => none
  | '\r' :: '\n' :: rest =>
    if place = .inside then andThen '\n' (longBasicText .inside rest)
    else longBasicText .afterBreak rest
  | '\n' :: rest =>
    if place = .inside then andThen '\n' (longBasicText .inside rest)
    else longBasicText .afterBreak rest
  | c :: rest =>
    if place ≠ .inside && isSpace c then longBasicText place rest
    else if place = .beforeBreak then none
    else
      match c, rest with
      | '"', '"' :: '"' :: '"' :: '"' :: rest => some (['"', '"'], rest)
      | '"', '"' :: '"' :: '"' :: rest => some (['"'], rest)
      | '"', '"' :: '"' :: rest => some ([], rest)
      | '\\', '\r' :: '\n' :: rest => longBasicText .afterBreak rest
      | '\\', 'u' :: a :: b :: c :: d :: rest => do
        andThen (← codePoint? [a, b, c, d]) (longBasicText .inside rest)
      | '\\', 'U' :: a :: b :: c :: d :: e :: f :: g :: h :: rest => do
        andThen (← codePoint? [a, b, c, d, e, f, g, h]) (longBasicText .inside rest)
      | '\\', d :: rest =>
        if d == '\n' then longBasicText .afterBreak rest
        else if isSpace d then longBasicText .beforeBreak rest
        else do andThen (← escaped? d) (longBasicText .inside rest)
      | c, rest => if isTextChar c && c != '\\' then andThen c (longBasicText .inside rest) else none

/-- Reads the rest of a text between single quotation marks on one line. -/
def literalText : List Char → Option (List Char × List Char)
  | [] => none
  | '\'' :: rest => some ([], rest)
  | c :: rest => if isTextChar c then andThen c (literalText rest) else none

/-- Reads the rest of a text between three single quotation marks. -/
def longLiteralText : List Char → Option (List Char × List Char)
  | [] => none
  | '\'' :: '\'' :: '\'' :: '\'' :: '\'' :: rest => some (['\'', '\''], rest)
  | '\'' :: '\'' :: '\'' :: '\'' :: rest => some (['\''], rest)
  | '\'' :: '\'' :: '\'' :: rest => some ([], rest)
  | '\r' :: '\n' :: rest => andThen '\n' (longLiteralText rest)
  | c :: rest => if isTextChar c || c == '\n' then andThen c (longLiteralText rest) else none

/-- The text without a line break at its start. -/
def afterBreak : List Char → List Char
  | '\r' :: '\n' :: cs | '\n' :: cs => cs
  | cs => cs

/-- Reads a text, of any of the four forms. -/
def text? : List Char → Option (String × List Char)
  | '"' :: '"' :: '"' :: rest => (longBasicText .inside (afterBreak rest)).map ofChars
  | '"' :: rest => (basicText rest).map ofChars
  | '\'' :: '\'' :: '\'' :: rest => (longLiteralText (afterBreak rest)).map ofChars
  | '\'' :: rest => (literalText rest).map ofChars
  | _ => none
where
  /-- What has been read, as a text. -/
  ofChars (r : List Char × List Char) : String × List Char := (String.ofList r.1, r.2)

/-! ### Numbers -/

/-- The digits without the low lines between them; every low line must stand between two digits. -/
def ungrouped? (isDigit : Char → Bool) : List Char → Option (List Char)
  | [] => none
  | [c] => if isDigit c then some [c] else none
  | c :: '_' :: d :: rest =>
    if isDigit c then (ungrouped? isDigit (d :: rest)).map (c :: ·) else none
  | c :: rest => if isDigit c then (ungrouped? isDigit rest).map (c :: ·) else none

/-- The digits of a number that begins with a zero only if it is zero. -/
def wholeDigits? (cs : List Char) : Option (List Char) :=
  if cs.head? == some '0' && 1 < cs.length then none else ungrouped? Char.isDigit cs

/-- A number without its sign, and whether that was a minus sign. -/
def signed : List Char → Bool × List Char
  | '-' :: cs => (true, cs)
  | '+' :: cs => (false, cs)
  | cs => (false, cs)

/-- A whole number of the given radix, which must be below the limit. -/
def below? (limit radix : Nat) (digits : List Char) : Option Nat :=
  (numeral? radix digits).filter (· < limit)

/-- A whole number of 64 bits. -/
def integer? (cs : List Char) : Option Int :=
  let inRadix (radix : Nat) (ds : List Char) : Option Int := do
    let digits ← ungrouped? (fun c => (Text.digitOf? radix c).isSome) ds
    return Int.ofNat (← below? (1 <<< 63) radix digits)
  match cs with
  | '0' :: 'x' :: ds => inRadix 16 ds
  | '0' :: 'o' :: ds => inRadix 8 ds
  | '0' :: 'b' :: ds => inRadix 2 ds
  | _ => do
    let (negative, ds) := signed cs
    let digits ← wholeDigits? ds
    if negative then return -Int.ofNat (← below? (1 <<< 63 + 1) 10 digits)
    else return Int.ofNat (← below? (1 <<< 63) 10 digits)

/-- Is the text a number with a fraction or an exponent, or one of the unusual ones? What is too
large is no number, though below zero it is one. -/
def isFraction (cs : List Char) : Bool :=
  let (negative, cs) := signed cs
  cs == "inf".toList || cs == "nan".toList || Option.isSome do
    let isMark c := c == '.' || c == 'e' || c == 'E'
    let whole ← wholeDigits? (cs.takeWhile (!isMark ·))
    let (point, rest) ← match cs.dropWhile (!isMark ·) with
      | '.' :: rest => do
        let digits ← ungrouped? Char.isDigit (rest.takeWhile (!isMark ·))
        some ('.' :: digits, rest.dropWhile (!isMark ·))
      | [] => none
      | rest => some ([], rest)
    let exponent ← match rest with
      | [] => some []
      | '.' :: _ => none
      | _ :: rest => do
        let (minus, ds) := signed rest
        some ('e' :: (if minus then ['-'] else []) ++ (← ungrouped? Char.isDigit ds))
    let number ← Decimal.read? (whole ++ point ++ exponent)
    if negative || number.isFinite then some () else none

/-! ### Moments -/

/-- The number in the first `width` digits, if it is in the range, and the rest. -/
def fixedDigits? (width least greatest : Nat) (cs : List Char) : Option (Nat × List Char) := do
  let digits := cs.take width
  if digits.length < width then none
  let n ← numeral? 10 digits
  if least ≤ n && n ≤ greatest then some (n, cs.drop width) else none

/-- Passes over one character, which must be the given one. -/
def char? (c : Char) : List Char → Option (List Char)
  | d :: rest => if c == d then some rest else none
  | [] => none

/-- The number of days in a month. -/
def daysIn (year month : Nat) : Nat :=
  if month == 2 then
    if year % 4 == 0 && (year % 100 != 0 || year % 400 == 0) then 29 else 28
  else if month == 4 || month == 6 || month == 9 || month == 11 then 30
  else 31

/-- Passes over a date. -/
def date? (cs : List Char) : Option (List Char) := do
  let (year, cs) ← fixedDigits? 4 0 9999 cs
  let (month, cs) ← fixedDigits? 2 1 12 (← char? '-' cs)
  let (_, cs) ← fixedDigits? 2 1 (daysIn year month) (← char? '-' cs)
  return cs

/-- Passes over a time of day. -/
def time? (cs : List Char) : Option (List Char) := do
  let (_, cs) ← fixedDigits? 2 0 23 cs
  let (_, cs) ← fixedDigits? 2 0 59 (← char? ':' cs)
  let (_, cs) ← fixedDigits? 2 0 60 (← char? ':' cs)
  match cs with
  | '.' :: d :: cs => if d.isDigit then some (cs.dropWhile Char.isDigit) else none
  | cs => some cs

/-- Passes over the offset of a time from the one of reference. -/
def offset? : List Char → Option (List Char)
  | 'Z' :: cs | 'z' :: cs => some cs
  | c :: cs => do
    if c != '+' && c != '-' then none
    let (_, cs) ← fixedDigits? 2 0 23 cs
    let (_, cs) ← fixedDigits? 2 0 59 (← char? ':' cs)
    return cs
  | [] => none

/-- Is the text a date, a time of day, or a date with a time, which may have an offset? -/
def isMoment (cs : List Char) : Bool :=
  time? cs == some [] ||
    match date? cs with
    | none => false
    | some [] => true
    | some (c :: rest) =>
      (c == 'T' || c == 't' || c == ' ') &&
        match time? rest with
        | none => false
        | some [] => true
        | some rest => offset? rest == some []

/-! ### Values without a mark of their own -/

/-- The characters of numbers, moments and truth values. -/
def isWordChar (c : Char) : Bool :=
  c.isAlphanum || c == '+' || c == '-' || c == '_' || c == '.' || c == ':'

/-- The characters that such a value takes. One blank may stand between a date and a time. -/
def word (cs : List Char) : List Char × List Char :=
  let first := cs.takeWhile isWordChar
  let rest := cs.dropWhile isWordChar
  match rest with
  | ' ' :: a :: b :: ':' :: _ =>
    if date? first == some [] && a.isDigit && b.isDigit then
      (first ++ ' ' :: rest.tail.takeWhile isWordChar, rest.tail.dropWhile isWordChar)
    else (first, rest)
  | _ => (first, rest)

/-- The value that a word stands for. -/
def ofWord? (cs : List Char) : Option Value :=
  if cs == "true".toList then some (.truth true)
  else if cs == "false".toList then some (.truth false)
  else
    match integer? cs with
    | some n => some (.integer n)
    | none =>
      if isFraction cs then some .fraction
      else if isMoment cs then some .moment
      else none

/-- Reads a value that holds no others. -/
def scalar? (cs : List Char) : Option (Value × List Char) :=
  match text? cs with
  | some (text, rest) => some (.text text, rest)
  | none =>
    let (first, rest) := word cs
    (ofWord? first).map (·, rest)

end ConceptForest.Toml
