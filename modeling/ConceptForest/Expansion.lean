import ConceptForest.Forest.Tree

/-!
Expansions: all the ways in which a concept can be written.

A concept can be written by any of its representations or, if it owns others, by writing those one
after the other. What an expansion stands for is a list of token sequences (`Expansion.sequences`);
`Expansion.flatten` is the part of it within a limit.
-/

namespace ConceptForest

/-- A description of texts and of concepts. -/
inductive Expansion where
  | leaf (text : String)
  | choice (alternatives : List Expansion)
  | sequence (items : List Expansion)
  deriving Repr

namespace Expansion

mutual

/-- How an expansion is shown. -/
def text : Expansion → String
  | leaf text => text
  | choice es => "(" ++ String.intercalate " | " (texts es) ++ ")"
  | sequence es => "<" ++ String.intercalate " " (texts es) ++ ">"

def texts : List Expansion → List String
  | [] => []
  | e :: es => e.text :: texts es

end

/-! ### The token sequences that an expansion stands for -/

/-- Each sequence of the first list followed by each of the second, the first varying slowest. -/
def join (xs ys : List (List String)) : List (List String) :=
  xs.flatMap fun x => ys.map (x ++ ·)

mutual

/-- All token sequences that an expansion stands for. -/
def sequences : Expansion → List (List String)
  | leaf text => [[text]]
  | choice es => sequencesOfAny es
  | sequence es => sequencesOfEach es

def sequencesOfAny : List Expansion → List (List String)
  | [] => []
  | e :: es => e.sequences ++ sequencesOfAny es

def sequencesOfEach : List Expansion → List (List String)
  | [] => [[]]
  | e :: es => join e.sequences (sequencesOfEach es)

end

/-! ### Within a limit -/

/-- Token sequences, and whether there are more. -/
structure Flattened where
  alternatives : List (List String)
  truncated : Bool
  deriving DecidableEq, Repr

/-- The first `limit` sequences of `join xs ys`. -/
def joinWithin (ys : List (List String)) : Nat → List (List String) → Flattened
  | _, [] => ⟨[], false⟩
  | limit, x :: xs =>
    if ys.length ≤ limit then
      let rest := joinWithin ys (limit - ys.length) xs
      ⟨ys.map (x ++ ·) ++ rest.alternatives, rest.truncated⟩
    else ⟨(ys.take limit).map (x ++ ·), true⟩

mutual

/-- The first token sequences that an expansion stands for, at most as many as the limit. With no
room at all it is taken that there are some. -/
def flatten (limit : Nat) : Expansion → Flattened
  | leaf text => if limit = 0 then ⟨[], true⟩ else ⟨[[text]], false⟩
  | choice es => if limit = 0 then ⟨[], true⟩ else flattenAny limit es
  | sequence es => if limit = 0 then ⟨[], true⟩ else flattenEach limit [[]] es

/-- The alternatives of a choice, one after the other. -/
def flattenAny (limit : Nat) : List Expansion → Flattened
  | [] => ⟨[], false⟩
  | e :: es =>
    if limit = 0 then ⟨[], true⟩
    else
      let first := e.flatten limit
      let rest := flattenAny (limit - first.alternatives.length) es
      ⟨first.alternatives ++ rest.alternatives, first.truncated || rest.truncated⟩

/-- The sequences in `before`, continued by each of the items in turn. -/
def flattenEach (limit : Nat) (before : List (List String)) : List Expansion → Flattened
  | [] => ⟨before, false⟩
  | e :: es =>
    let options := e.flatten limit
    let joined := joinWithin options.alternatives limit before
    let rest := flattenEach limit joined.alternatives es
    ⟨rest.alternatives, options.truncated || joined.truncated || rest.truncated⟩

end

/-! ### The expansion of a concept -/

mutual

/-- All the ways in which a tree can be written. -/
def ofTree : Tree → Expansion
  | .node _ c ts =>
    let texts := c.representations.map fun r => leaf r.rendered
    choice (texts ++ if ts.isEmpty then [] else [sequence (ofTrees ts)])

def ofTrees : List Tree → List Expansion
  | [] => []
  | t :: ts => ofTree t :: ofTrees ts

end

end Expansion

/-- All the ways in which a concept can be written. -/
def Forest.expand (f : Forest) (h : Handle) : Except ForestError Expansion :=
  return .ofTree (← f.tree h)

end ConceptForest
