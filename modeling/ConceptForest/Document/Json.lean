import ConceptForest.Document
import ConceptForest.Text.Quoted

/-!
Documents in JSON, with each item and field on a line of its own.
-/

namespace ConceptForest.Document

/-- A character as it is written between quotation marks. Only what must be escaped is. -/
def jsonChar (c : Char) : List Char :=
  match c with
  | '"' => ['\\', '"']
  | '\\' => ['\\', '\\']
  | '\x08' => ['\\', 'b']
  | '\x0c' => ['\\', 'f']
  | '\n' => ['\\', 'n']
  | '\r' => ['\\', 'r']
  | '\t' => ['\\', 't']
  | c =>
    if c.toNat < 0x20 then
      let digits := Text.hexDigits c.toNat
      ['\\', 'u'] ++ List.replicate (4 - digits.length) '0' ++ digits
    else [c]

/-- A text in quotation marks. -/
def jsonText (s : String) : String :=
  "\"" ++ String.ofList (s.toList.flatMap jsonChar) ++ "\""

/-- Lines between brackets, two blanks further to the right than the brackets. -/
def bracketed (opening closing : String) (indent : Nat) (lines : List String) : String :=
  if lines.isEmpty then opening ++ closing
  else
    opening ++ newline (indent + 2) ++
      String.intercalate ("," ++ newline (indent + 2)) lines ++ newline indent ++ closing

mutual

/-- A document that begins on a line with so many blanks before it. -/
def jsonAt (indent : Nat) : Document → String
  | text s => jsonText s
  | number n => toString n
  | truth b => if b then "true" else "false"
  | list items => bracketed "[" "]" indent (jsonItems (indent + 2) items)
  | record fields => bracketed "\x7b" "\x7d" indent (jsonFields (indent + 2) fields)

def jsonItems (indent : Nat) : List Document → List String
  | [] => []
  | d :: ds => d.jsonAt indent :: jsonItems indent ds

def jsonFields (indent : Nat) : List (String × Document) → List String
  | [] => []
  | (name, d) :: rest => (jsonText name ++ ": " ++ d.jsonAt indent) :: jsonFields indent rest

end

/-- A document in JSON. -/
def json (d : Document) : String :=
  d.jsonAt 0

end ConceptForest.Document
