import ConceptForest.Text.Blank

/-!
Representations: the texts by which a concept is known.

Two representations are interchangeable when they are rendered alike; how meaningful they are only
decides which of them is preferred.
-/

namespace ConceptForest

/-- How meaningful a representation is. -/
inductive Level where
  /-- Given by the forest to every concept, and preferred only for want of anything else. -/
  | identity
  /-- Derived from what the concept was made of. -/
  | systemInformation
  /-- Taken as it was typed. -/
  | inputMorphism
  /-- Asked for by name. -/
  | userSupplied
  deriving DecidableEq, Repr

/-- The place of a level among the others; higher is more meaningful. -/
def Level.rank : Level → Nat
  | identity => 0
  | systemInformation => 10
  | inputMorphism => 50
  | userSupplied => 100

/-- The name of a level in documents. -/
def Level.name : Level → String
  | identity => "identity"
  | systemInformation => "system_information"
  | inputMorphism => "input_morphism"
  | userSupplied => "user_supplied"

/-- A text by which a concept is known. -/
structure Representation where
  raw : String
  level : Level
  deriving DecidableEq, Repr

/-- A text as it can be typed to be read as one token: text with blanks in it becomes a phrase. -/
def renderToken (raw : String) : String :=
  if raw.toList.any Text.isBlank then "[[" ++ raw ++ "]]" else raw

namespace Representation

/-- The text that can be typed to refer to the representation. -/
def rendered (r : Representation) : String :=
  renderToken r.raw

/-- Are the two representations interchangeable? -/
def sameText (r s : Representation) : Bool :=
  r.rendered == s.rendered

/-- Is the representation one of those that every concept has? -/
def isIdentity (r : Representation) : Bool :=
  r.level == .identity

end Representation

end ConceptForest
