import ConceptForest.Concept.Context
import ConceptForest.Concept.Representation

/-!
Concepts, as a forest keeps them.
-/

namespace ConceptForest

/-- What a concept was made from. -/
inductive Kind where
  | root
  | statement
  | symbol
  | command
  | script
  | lifted
  deriving DecidableEq, Repr

/-- The name of a kind. -/
def Kind.name : Kind → String
  | root => "Root"
  | statement => "Statement"
  | symbol => "Symbol"
  | command => "Command"
  | script => "Script"
  | lifted => "Lifted"

/-- What tells a concept from all others. -/
inductive Identifier where
  /-- The concept's own handle. -/
  | assigned (handle : Handle)
  /-- A name, and a tag that makes it unique. -/
  | tagged (name : String) (tag : Nat)
  deriving DecidableEq, Repr

/-- How an identifier is shown. -/
def Identifier.text : Identifier → String
  | assigned h => toString h
  | tagged name tag => s!"{name}/{tag}"

/-- The ways in which a concept can be associated with another without belonging to it. -/
inductive AssociationKind where
  /-- The one is another representation of the other. -/
  | representation
  /-- The one is a piece of the other. -/
  | piece
  deriving DecidableEq, Repr

/-- One end of an association. -/
structure Association where
  kind : AssociationKind
  other : Handle
  deriving DecidableEq, Repr

/-- A concept. It belongs to its parent, if it has one, and owns its children. -/
structure Concept where
  /-- The handle under which the concept was created. -/
  handle : Handle
  kind : Kind
  identifier : Identifier
  parent : Option Handle := none
  children : List Handle := []
  context : Context := {}
  /-- The preferred one first. The two that every concept is made with come last, unless their texts
  are given to it anew. -/
  representations : List Representation
  /-- The concepts that this one is associated with. -/
  associations : List Association := []
  /-- The concepts that are associated with this one. -/
  associatedBy : List Association := []

/-- The representations that every concept is made with: its identifier, alone and with its kind. -/
def identityRepresentations (kind : Kind) (identifier : Identifier) : List Representation :=
  [⟨s!"#|id={identifier.text}|#", .identity⟩,
    ⟨s!"#|{kind.name} id={identifier.text}|#", .identity⟩]

namespace Concept

/-- Does the concept own nothing? -/
def isLeaf (c : Concept) : Bool :=
  c.children.isEmpty

/-- The representation that comes first. -/
def preferred (c : Concept) : Representation :=
  c.representations.headD ⟨"", .identity⟩

end Concept

end ConceptForest
