/-!
Numerals: digits read as numbers.

A decimal numeral is kept exactly, as digits and a power of ten; whether it is too large for a
binary number of 64 bits is decided by comparing whole numbers.
-/

namespace ConceptForest.Text

/-- The value of a digit, in any radix up to thirty-six. -/
def digitValue? (c : Char) : Option Nat :=
  if c.isDigit then some (c.toNat - '0'.toNat)
  else if c.isLower then some (c.toNat - 'a'.toNat + 10)
  else if c.isUpper then some (c.toNat - 'A'.toNat + 10)
  else none

/-- The value of a digit of the given radix. -/
def digitOf? (radix : Nat) (c : Char) : Option Nat :=
  (digitValue? c).filter (· < radix)

/-- The number whose digits are given, the most significant first. -/
def ofDigits (radix : Nat) (digits : List Nat) : Nat :=
  digits.foldl (fun n d => n * radix + d) 0

/-- The number that a text of one digit or more stands for. -/
def numeral? (radix : Nat) (cs : List Char) : Option Nat := do
  if cs.isEmpty then none
  return ofDigits radix (← cs.mapM (digitOf? radix))

/-- The number that a text stands for, with or without a plus sign. -/
def natural? : List Char → Option Nat
  | '+' :: cs => numeral? 10 cs
  | cs => numeral? 10 cs

/-! ### Decimal fractions -/

/-- The number of the digits times a power of ten. -/
structure Decimal where
  digits : Nat
  exponent : Int
  deriving DecidableEq, Repr

namespace Decimal

/-- The exponent behind its mark, with or without a sign; zero if there is nothing. -/
def exponent? : List Char → Option Int
  | [] => some 0
  | mark :: cs =>
    if mark == 'e' || mark == 'E' then
      match cs with
      | '-' :: ds => (numeral? 10 ds).map fun n => -(n : Int)
      | '+' :: ds => (numeral? 10 ds).map Int.ofNat
      | ds => (numeral? 10 ds).map Int.ofNat
    else none

/-- Reads a decimal without a sign: digits, of which some may stand behind a point, and an
exponent. -/
def read? (cs : List Char) : Option Decimal := do
  let whole := cs.takeWhile Char.isDigit
  let (fraction, rest) := match cs.dropWhile Char.isDigit with
    | '.' :: rest => (rest.takeWhile Char.isDigit, rest.dropWhile Char.isDigit)
    | rest => ([], rest)
  let digits ← numeral? 10 (whole ++ fraction)
  let exponent ← exponent? rest
  return ⟨digits, exponent - fraction.length⟩

/-- The least number that is too large for a binary number of 64 bits: half a unit above the
largest of those. -/
def overflow : Nat := 1 <<< 1024 - 1 <<< 970

/-- Is the number in the range of a binary number of 64 bits? Where the exponent settles this, it is
not raised to a power. -/
def isFinite (d : Decimal) : Bool :=
  if d.digits == 0 then true
  else
    match d.exponent with
    | .ofNat n => n ≤ 400 && d.digits * Nat.pow 10 n < overflow
    | .negSucc n =>
      let k := n + 1
      Nat.log2 d.digits < 1000 + 3 * k || d.digits < overflow * Nat.pow 10 k

end Decimal

end ConceptForest.Text
