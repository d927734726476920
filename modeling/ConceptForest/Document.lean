import ConceptForest.Expansion

/-!
Documents: what is handed to other programs, before it is written in one of the formats.
-/

namespace ConceptForest

/-- A tree of texts, numbers and truth values. -/
inductive Document where
  | text (text : String)
  | number (n : Nat)
  | truth (b : Bool)
  | list (items : List Document)
  /-- Named fields, in order. The names are plain words. -/
  | record (fields : List (String × Document))

namespace Document

/-- A list of texts. -/
def texts (items : List String) : Document :=
  .list (items.map .text)

/-- A line break, and the blanks before what follows it. -/
def newline (indent : Nat) : String :=
  "\n".pushn ' ' indent

end Document

namespace Expansion

mutual

/-- An expansion as a document: its shape, and what it is made of. -/
def document : Expansion → Document
  | leaf text => .record [("shape", .text "leaf"), ("value", .text text)]
  | choice es => .record [("shape", .text "choice"), ("value", .list (documents es))]
  | sequence es => .record [("shape", .text "sequence"), ("value", .list (documents es))]

/-- Expansions as documents, one after the other. -/
def documents : List Expansion → List Document
  | [] => []
  | e :: es => e.document :: documents es

end

/-- Expansions in one text: each on a line of its own, with its number. -/
def numberedText (es : List Expansion) : String :=
  String.intercalate "\n" (es.zipIdx.map fun (e, i) => s!"{i}: {e.text}")

namespace Flattened

/-- Token sequences within a limit as a document. -/
def document (limit : Nat) (v : Flattened) : Document :=
  .record [("limit", .number limit), ("alternatives", .list (v.alternatives.map .texts)),
    ("truncated", .truth v.truncated)]

/-- Token sequences within a limit, each on a line of its own. -/
def text (limit : Nat) (v : Flattened) : String :=
  String.intercalate "\n" (v.alternatives.map (String.intercalate " ")) ++
    if v.truncated then s!"\n... (stopped after {limit} alternatives)" else ""

end Flattened

end Expansion

end ConceptForest
