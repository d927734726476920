import ConceptForest.Expansion.Match
import ConceptForest.Forest.Edit

/-!
Lifting: making one concept of a match.

A whole concept is one already. A run of children becomes a concept in the place of the run. Several
whole concepts move under a new one, which stands under the nearest owner they have in common, where
the first of them was; those that had another owner stay associated with it as its pieces.
-/

namespace ConceptForest

/-- Why a match cannot be lifted. -/
inductive LiftError where
  /-- Several concepts, and some of them only in part. -/
  | notLiftable
  | emptyMatch
  /-- There are not as many extents as concepts. -/
  | malformedMatch (concepts extents : Nat)
  | noCommonAncestor
  | nestedConcepts (ancestor descendant : Handle)
  | invalidRange (concept : Handle) (start stop length : Nat)
  | forest (error : ForestError)
  deriving DecidableEq, Repr

/-- The text of an error. -/
def LiftError.message : LiftError → String
  | notLiftable => "match is not liftable: it spans several concepts with partial ranges"
  | emptyMatch => "match is empty"
  | malformedMatch concepts extents => s!"match lists {concepts} concepts but {extents} ranges"
  | noCommonAncestor => "matched concepts share no common ancestor"
  | nestedConcepts ancestor descendant =>
    s!"matched concept {ancestor.text} contains matched concept {descendant.text}"
  | invalidRange concept start stop length =>
    s!"range {start}..{stop} is invalid for concept {concept.text} ({length} children)"
  | forest error => s!"graph error: {error.message}"

/-- Can the match become one concept? Only if it is one concept, or has whole concepts only. -/
def Match.isLiftable (m : Match) : Bool :=
  m.partialCount == 0 || m.concepts.length == 1

/-- The elements that two lists have in common at their start. -/
def commonStart {α : Type} [DecidableEq α] : List α → List α → List α
  | x :: xs, y :: ys => if x = y then x :: commonStart xs ys else []
  | _, _ => []

/-- The elements that all lists have in common at their start. -/
def commonStartAll {α : Type} [DecidableEq α] : List (List α) → List α
  | [] => []
  | xs :: rest => rest.foldl commonStart xs

namespace Forest

/-- What a forest refuses, as the reason why a match cannot be lifted. -/
def orLiftError {α : Type} (r : Except ForestError α) : Except LiftError α :=
  r.mapError .forest

/-- Fails if one of the concepts is not live. -/
def checkLive (f : Forest) : List Handle → Except LiftError Unit
  | [] => .ok ()
  | h :: hs => do
    let _ ← orLiftError (f.node h)
    f.checkLive hs

/-- The children of a concept from the one index up to the other, that one left out. -/
def run (f : Forest) (h : Handle) (start stop : Nat) : Except LiftError (List Handle) := do
  let children := (← orLiftError (f.node h)).children
  if stop ≤ start ∨ children.length < stop then
    throw (.invalidRange h start stop children.length)
  return (children.drop start).take (stop - start)

/-- Fails if a concept comes twice. -/
def checkDistinct (before : List Handle) : List Handle → Except LiftError Unit
  | [] => .ok ()
  | h :: hs =>
    if before.contains h then .error (.forest (.duplicateChild h))
    else checkDistinct (h :: before) hs

/-- The first of the concepts that owns another one of them, and that one. -/
def nested? (f : Forest) (hs : List Handle) : Option (Handle × Handle) :=
  hs.findSome? fun a => (hs.find? fun b => a != b && f.isAncestor a b).map (a, ·)

/-- Fails if a match cannot become one concept, whatever the forest looks like, or if a concept of it
is not live. -/
def checkMatch (f : Forest) (m : Match) : Except LiftError Unit := do
  if m.concepts.isEmpty then throw .emptyMatch
  if m.concepts.length ≠ m.extents.length then
    throw (.malformedMatch m.concepts.length m.extents.length)
  if !m.isLiftable then throw .notLiftable
  f.checkLive m.concepts

/-- How several whole concepts are to become one. -/
structure LiftPlan where
  /-- The nearest owner that they have in common. -/
  owner : Handle
  /-- The place of the new concept among the other children of that owner. -/
  place : Nat
  /-- The concepts that had another owner, each with it. -/
  moved : List (Handle × Handle)
  deriving DecidableEq, Repr

/-- How the concepts are to become one, if they can. -/
def liftPlan (f : Forest) (hs : List Handle) : Except LiftError LiftPlan := do
  checkDistinct [] hs
  if let some (a, b) := f.nested? hs then throw (.nestedConcepts a b)
  let chains := hs.map f.chain
  let shared := commonStartAll chains
  match shared.getLast? with
  | none => throw .noCommonAncestor
  | some owner =>
    let children := (← orLiftError (f.node owner)).children
    let branches := (hs.zip chains).map fun (h, chain) => (chain[shared.length]?).getD h
    match (branches.filterMap (children.idxOf? ·)).min? with
    | none => throw .noCommonAncestor
    | some place =>
      let owners := (hs.zip chains).filterMap fun (h, chain) => chain.getLast?.map (h, ·)
      return { owner, place, moved := owners.filter (·.2 != owner) }

end Forest

namespace Edit

/-- An edit of the forest as a step of a lift. -/
def liftStep {α : Type} (edit : Edit ForestError α) : Edit LiftError α :=
  edit.adaptExcept .forest

/-- Makes one concept of a run of children. -/
def liftRun (h : Handle) (start stop : Nat) : Edit LiftError Handle := do
  let children ← ask (·.run h start stop)
  let lifted ← liftStep <| create { kind := .lifted, children }
  liftStep <| insertAt h lifted start
  return lifted

/-- Makes one concept of several whole ones. -/
def liftAll (hs : List Handle) : Edit LiftError Handle := do
  let plan ← ask (·.liftPlan hs)
  let lifted ← liftStep <| create { kind := .lifted, children := hs }
  liftStep <| insertAt plan.owner lifted plan.place
  plan.moved.forM fun (h, owner) => liftStep <| associate h owner .piece
  return lifted

/-- Makes one concept of a match. -/
def lift (m : Match) : Edit LiftError Handle := do
  ask (·.checkMatch m)
  match m with
  | ⟨[h], [.span start stop]⟩ => liftRun h start stop
  | ⟨[h], [.whole]⟩ => return h
  | ⟨hs, _⟩ => liftAll hs

end Edit

/-! ### Requests -/

def Forest.lift (f : Forest) (m : Match) : Except LiftError (Forest × Handle) :=
  (Edit.lift m).result f

end ConceptForest
