import ConceptForest.Forest.Tree

/-!
Edits of a forest: creating, moving, detaching and releasing concepts, and changing what belongs to
a concept itself.

An edit is made in place and step by step. Where a step is refused, what the steps before it have
done stays done; so an edit first checks all that could be wrong with it, and then changes the
forest.
-/

namespace ConceptForest

/-- Asks a state something, without a change to it. -/
def ask {ε σ α : Type} (question : σ → Except ε α) : EStateM ε σ α := fun s =>
  match question s with
  | .ok a => .ok a s
  | .error e => .error e s

/-- A change made to a forest in place, step by step. What a refused change has done before the step
that was refused stays. -/
abbrev Edit (ε α : Type) := EStateM ε Forest α

/-- What a concept is to be created with. -/
structure NewConcept where
  kind : Kind
  parent : Option Handle := none
  children : List Handle := []
  context : Context := {}
  representations : List Representation := []
  /-- Nothing stands for the handle that the concept will get. -/
  identifier : Option Identifier := none

/-- The concept that `spec` describes, with the given handle and no place yet. -/
def NewConcept.toConcept (spec : NewConcept) (h : Handle) : Concept :=
  let identifier := spec.identifier.getD (.assigned h)
  { handle := h
    kind := spec.kind
    identifier
    context := spec.context
    representations := spec.representations ++ identityRepresentations spec.kind identifier }

/-! ### Checks -/

namespace Forest

/-- Fails if the parent would come to own itself. -/
def checkOwnership (f : Forest) (parent child : Handle) : Except ForestError Unit :=
  if child = parent ∨ f.isAncestor child parent = true then
    .error (.ownershipCycle parent child)
  else .ok ()

/-- Fails if one of the children is not live, comes twice, or owns the parent. `before` are the
children already looked at. -/
def checkChildren (f : Forest) (parent : Option Handle) (before : List Handle) :
    List Handle → Except ForestError Unit
  | [] => .ok ()
  | child :: rest => do
    let _ ← f.node child
    if before.contains child then throw (.duplicateChild child)
    if let some p := parent then f.checkOwnership p child
    checkChildren f parent (child :: before) rest

/-- Fails if a concept cannot be created with the parent and the children that `spec` names. -/
def checkNew (f : Forest) (spec : NewConcept) : Except ForestError Unit := do
  if let some p := spec.parent then
    let _ ← f.node p
  f.checkChildren spec.parent [] spec.children

/-- Fails if the concept cannot be moved under the parent, to the index among the other children. -/
def checkInsert (f : Forest) (parent child : Handle) (index : Nat) : Except ForestError Unit := do
  let length := (← f.node parent).children.length
  let c ← f.node child
  f.checkOwnership parent child
  let others := if c.parent = some parent then length - 1 else length
  if others < index then throw (.indexOutOfBounds parent index others)

/-- The concepts that are released together with a concept, which must not have a parent. -/
def doomed (f : Forest) (h : Handle) : Except ForestError (List Handle) := do
  if (← f.node h).parent.isSome then throw (.stillAttached h)
  f.descendants h

end Forest

namespace Edit

/-- The forest that an edit makes of the given one, and what it gives; the reason if it is
refused. -/
def result {ε α : Type} (edit : Edit ε α) (f : Forest) : Except ε (Forest × α) :=
  match edit f with
  | .ok a g => .ok (g, a)
  | .error e _ => .error e

/-- Changes a concept, which must be live, and gives it as it was. -/
def change (h : Handle) (g : Concept → Concept) : Edit ForestError Concept := do
  let c ← ask (·.node h)
  modify (·.update h g)
  return c

/-! ### Moving edges -/

/-- Takes a concept out of its parent's children; one without a parent stays as it is. -/
def unlink (h : Handle) : Edit ForestError Unit := do
  match (← ask (·.node h)).parent with
  | none => return
  | some p =>
    modify (·.update p fun c => { c with children := c.children.filter (· != h) })
    let _ ← change h fun c => { c with parent := none }

/-- The children with one more, in front of the one at the index; at the end if no index is
given. -/
def withChild (index? : Option Nat) (child : Handle) (children : List Handle) : List Handle :=
  match index? with
  | some index => children.insertIdx index child
  | none => children ++ [child]

/-- Moves a concept under a parent. -/
def attach (parent : Handle) (index? : Option Nat) (child : Handle) : Edit ForestError Unit := do
  unlink child
  let _ ← change parent fun c => { c with children := withChild index? child c.children }
  let _ ← change child fun c => { c with parent := some parent }

/-- Creates a concept. It takes its children from their owners, in the given order, and comes last
among the children of its parent. -/
def create (spec : NewConcept) : Edit ForestError Handle := do
  ask (·.checkNew spec)
  let h := (← get).next
  modify (·.push (spec.toConcept h))
  spec.children.forM (attach h none)
  spec.parent.forM (attach · none h)
  return h

/-- Moves a concept under a parent, to the index among the other children. -/
def insertAt (parent child : Handle) (index : Nat) : Edit ForestError Unit := do
  ask (·.checkInsert parent child index)
  attach parent (some index) child

end Edit

/-! ### Releasing -/

namespace Forest

/-- Empties the slots of concepts, and gives those that were live. -/
def takeOut (f : Forest) : List Handle → Forest × List Concept
  | [] => (f, [])
  | h :: hs =>
    let (g, removed) := (f.clear h).takeOut hs
    (g, (f.get? h).toList ++ removed)

/-- Strikes a released concept from the associations of the others that it was associated with.
`doomed` are the concepts released with it. -/
def strike (doomed : List Handle) (f : Forest) (c : Concept) : Forest :=
  let others := fun (as : List Association) =>
    (as.map Association.other).filter (!doomed.contains ·)
  let g := (others c.associations).foldl (fun g h => g.update h fun o =>
    { o with associatedBy := o.associatedBy.filter (·.other != c.handle) }) f
  (others c.associatedBy).foldl (fun g h => g.update h fun o =>
    { o with associations := o.associations.filter (·.other != c.handle) }) g

end Forest

namespace Edit

/-- Releases a concept without a parent and all it owns, and tells how many concepts that were. -/
def release (h : Handle) : Edit ForestError Nat := do
  let doomed ← ask (·.doomed h)
  let (g, removed) := (← get).takeOut doomed
  set { g with live := g.live - removed.length }
  modify (removed.foldl (Forest.strike doomed))
  return removed.length

/-! ### What belongs to a concept itself -/

/-- Binds a name at a concept, and gives what the name stood for. -/
def bind (h : Handle) (name : String) (value : Value) : Edit ForestError (Option Value) := do
  let c ← change h fun c => { c with context := c.context.bind name value }
  return c.context.get? name

/-- Gives a concept a definition, and gives the one it had. -/
def bindDefinition (h : Handle) (definition : Definition) :
    Edit ForestError (Option Definition) := do
  let c ← change h fun c => { c with context := { c.context with definition? := some definition } }
  return c.context.definition?

/-- Takes a concept its definition away. -/
def takeDefinition (h : Handle) : Edit ForestError (Option Definition) := do
  let c ← change h fun c => { c with context := { c.context with definition? := none } }
  return c.context.definition?

/-- Gives a concept a representation, which becomes the preferred one. One that is rendered alike
goes. -/
def addRepresentation (h : Handle) (r : Representation) : Edit ForestError Unit := do
  let _ ← change h fun c =>
    { c with representations := r :: c.representations.filter (!r.sameText ·) }

/-! ### Associations -/

/-- Records that `source` is a piece, or another representation, of `target`. Recording it twice is
recording it once. -/
def associate (source target : Handle) (kind : AssociationKind) : Edit ForestError Unit := do
  let _ ← ask (·.node target)
  let c ← ask (·.node source)
  if c.associations.contains ⟨kind, target⟩ then return
  let _ ← change source fun c => { c with associations := c.associations ++ [⟨kind, target⟩] }
  let _ ← change target fun c => { c with associatedBy := c.associatedBy ++ [⟨kind, source⟩] }

/-- Forgets that `source` is a piece, or another representation, of `target`, and tells whether it
was. -/
def dissociate (source target : Handle) (kind : AssociationKind) : Edit ForestError Bool := do
  let _ ← ask (·.node target)
  let c ← change source fun c =>
    { c with associations := c.associations.filter (· != ⟨kind, target⟩) }
  let _ ← change target fun c =>
    { c with associatedBy := c.associatedBy.filter (· != ⟨kind, source⟩) }
  return c.associations.contains ⟨kind, target⟩

end Edit

/-! ### Requests

An edit as a whole: the forest that it makes, or the reason why it is refused. -/

namespace Forest

def create (f : Forest) (spec : NewConcept) : Except ForestError (Forest × Handle) :=
  (Edit.create spec).result f

def insertAt (f : Forest) (parent child : Handle) (index : Nat) : Except ForestError Forest :=
  ((Edit.insertAt parent child index).result f).map Prod.fst

def unlink (f : Forest) (h : Handle) : Except ForestError Forest :=
  ((Edit.unlink h).result f).map Prod.fst

def release (f : Forest) (h : Handle) : Except ForestError (Forest × Nat) :=
  (Edit.release h).result f

def bind (f : Forest) (h : Handle) (name : String) (value : Value) : Except ForestError Forest :=
  ((Edit.bind h name value).result f).map Prod.fst

/-- Gives a concept a definition, or takes it away. -/
def setDefinition (f : Forest) (h : Handle) :
    Option Definition → Except ForestError Forest
  | some definition => ((Edit.bindDefinition h definition).result f).map Prod.fst
  | none => ((Edit.takeDefinition h).result f).map Prod.fst

def addRepresentation (f : Forest) (h : Handle) (r : Representation) : Except ForestError Forest :=
  ((Edit.addRepresentation h r).result f).map Prod.fst

def associate (f : Forest) (source target : Handle) (kind : AssociationKind) :
    Except ForestError Forest :=
  ((Edit.associate source target kind).result f).map Prod.fst

def dissociate (f : Forest) (source target : Handle) (kind : AssociationKind) :
    Except ForestError (Forest × Bool) :=
  (Edit.dissociate source target kind).result f

end Forest

end ConceptForest
