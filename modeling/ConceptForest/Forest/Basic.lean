import ConceptForest.Concept.Basic

/-!
Forests of concepts.

A forest keeps each concept in the slot of its handle; a slot is emptied when its concept is
released and never filled again. The live concepts are counted as they come and go. What can be
seen of a forest is `get?`, and every change is described by its effect on `get?` (`get?_update`,
`get?_push`, `get?_clear`).
-/

namespace ConceptForest

/-- Why a forest refuses a request. -/
inductive ForestError where
  | conceptNotFound (handle : Handle)
  | ownershipCycle (parent child : Handle)
  | duplicateChild (child : Handle)
  | stillAttached (handle : Handle)
  | indexOutOfBounds (concept : Handle) (index length : Nat)
  deriving DecidableEq, Repr

/-- The text of an error. -/
def ForestError.message : ForestError → String
  | conceptNotFound h => s!"concept not found: {h.text}"
  | ownershipCycle parent child =>
    s!"concept {child.text} cannot be owned by {parent.text}: ownership would form a cycle"
  | duplicateChild child => s!"concept {child.text} is listed more than once as a child"
  | stillAttached h => s!"concept {h.text} is still attached to a parent and cannot be released"
  | indexOutOfBounds concept index length =>
    s!"child index {index} out of bounds for concept {concept.text} ({length} children)"

/-- Concepts, each in the slot of its handle. -/
structure Forest where
  slots : Array (Option Concept) := #[]
  /-- How many concepts are live. -/
  live : Nat := 0

namespace Forest

/-- The concept with the given handle, if it is live. -/
def get? (f : Forest) (h : Handle) : Option Concept :=
  f.slots[h]?.join

/-- Is there a live concept with this handle? -/
def contains (f : Forest) (h : Handle) : Bool :=
  (f.get? h).isSome

/-- The owner of a concept, if it is live and has one. -/
def parent? (f : Forest) (h : Handle) : Option Handle :=
  (f.get? h).bind Concept.parent

/-- The handle that the next concept will get. -/
def next (f : Forest) : Handle :=
  f.slots.size

/-- The live concepts, in the order of their handles. -/
def handles (f : Forest) : List Handle :=
  (List.range f.next).filter f.contains

/-- The number of live concepts. -/
def size (f : Forest) : Nat :=
  f.live

/-- The live concepts without a parent, in the order of their handles. -/
def roots (f : Forest) : List Handle :=
  f.handles.filter fun h => (f.parent? h).isNone

/-- The concept with the given handle, which must be live. -/
def node (f : Forest) (h : Handle) : Except ForestError Concept :=
  match f.get? h with
  | some c => .ok c
  | none => .error (.conceptNotFound h)

/-- Changes the concept with the given handle, if it is live. -/
def update (f : Forest) (h : Handle) (change : Concept → Concept) : Forest :=
  { f with slots := f.slots.modify h (Option.map change) }

/-- Gives the next handle to a concept. -/
def push (f : Forest) (c : Concept) : Forest where
  slots := f.slots.push (some c)
  live := f.live + 1

/-- Empties the slot of a handle. The count of live concepts is left to whoever empties slots. -/
def clear (f : Forest) (h : Handle) : Forest :=
  { f with slots := f.slots.modify h fun _ => none }

/-! ### What the changes do -/

theorem get?_eq_none_of_next_le {f : Forest} {h : Handle} (le : f.next ≤ h) : f.get? h = none := by
  simp only [next] at le
  simp [get?, Array.getElem?_eq_none le]

theorem lt_next_of_get? {f : Forest} {h : Handle} {c : Concept} (live : f.get? h = some c) :
    h < f.next := by
  apply Nat.lt_of_not_le
  intro le
  rw [get?_eq_none_of_next_le le] at live
  cases live

theorem get?_update (f : Forest) (h k : Handle) (change : Concept → Concept) :
    (f.update h change).get? k = if k = h then (f.get? k).map change else f.get? k := by
  simp only [get?, update, Array.getElem?_modify]
  by_cases eq : h = k
  · subst eq
    simp only [if_true]
    cases f.slots[h]? with
    | none => rfl
    | some slot => cases slot <;> rfl
  · simp [eq, Ne.symm eq]

@[simp] theorem next_update (f : Forest) (h : Handle) (change : Concept → Concept) :
    (f.update h change).next = f.next := by
  simp [next, update]

theorem get?_push (f : Forest) (c : Concept) (k : Handle) :
    (f.push c).get? k = if k = f.next then some c else f.get? k := by
  simp only [get?, push, next, Array.getElem?_push]
  by_cases eq : k = f.slots.size <;> simp [eq]

@[simp] theorem next_push (f : Forest) (c : Concept) : (f.push c).next = f.next + 1 := by
  simp [next, push]

theorem get?_clear (f : Forest) (h k : Handle) :
    (f.clear h).get? k = if k = h then none else f.get? k := by
  simp only [get?, clear, Array.getElem?_modify]
  by_cases eq : h = k
  · subst eq
    cases f.slots[h]? <;> simp
  · simp [eq, Ne.symm eq]

@[simp] theorem next_clear (f : Forest) (h : Handle) : (f.clear h).next = f.next := by
  simp [next, clear]

/-! ### Associations -/

/-- The concepts of one kind among associations. -/
def ofKind (kind : AssociationKind) (associations : List Association) : List Handle :=
  (associations.filter (·.kind == kind)).map Association.other

end Forest

end ConceptForest
