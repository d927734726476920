import ConceptForest.Forest.Basic

/-!
The tree view of a forest: a concept with everything that it owns.

Whatever goes down from a concept is a recursion on its tree, and whatever goes up follows the
chain of its owners. Neither way is longer than there are handles, which bounds both.
-/

namespace ConceptForest

/-- A concept and the trees of its children, in order. -/
inductive Tree where
  | node (handle : Handle) (concept : Concept) (children : List Tree)

namespace Tree

/-- The handle of the concept at the top. -/
def handle : Tree → Handle
  | node h _ _ => h

/-- The concept at the top. -/
def concept : Tree → Concept
  | node _ c _ => c

/-- The trees of the children. -/
def children : Tree → List Tree
  | node _ _ ts => ts

mutual

/-- The tree and all trees in it, each before those in it. -/
def subtrees : Tree → List Tree
  | node h c ts => node h c ts :: subtreesAll ts

def subtreesAll : List Tree → List Tree
  | [] => []
  | t :: ts => t.subtrees ++ subtreesAll ts

end

/-- The handles in a tree, each before those it owns. -/
def handles (t : Tree) : List Handle :=
  t.subtrees.map handle

mutual

/-- The preferred representation of a concept; if every concept has one like it, and the concept
owns others, a summary of those. -/
def describe : Tree → String
  | node _ c ts =>
    if !c.preferred.isIdentity || ts.isEmpty then c.preferred.rendered
    else "[" ++ String.intercalate " " (describeAll ts) ++ "]"

def describeAll : List Tree → List String
  | [] => []
  | t :: ts => t.describe :: describeAll ts

end

end Tree

namespace Forest

/-- The tree of a concept, if it is no deeper than the given number. -/
def treeWithin (f : Forest) : Nat → Handle → Option Tree
  | 0, _ => none
  | depth + 1, h => do
    let c ← f.get? h
    let children ← c.children.mapM (treeWithin f depth)
    return .node h c children

/-- The tree of a concept, if it is live. -/
def tree? (f : Forest) (h : Handle) : Option Tree :=
  f.treeWithin f.next h

/-- The tree of a concept, which must be live. -/
def tree (f : Forest) (h : Handle) : Except ForestError Tree :=
  match f.tree? h with
  | some t => .ok t
  | none => .error (.conceptNotFound h)

/-- The concept and all it owns, each before what it owns itself. -/
def descendants (f : Forest) (h : Handle) : Except ForestError (List Handle) :=
  return (← f.tree h).handles

/-- The first owners of a concept, the nearest first, as many as the given number. -/
def owners (f : Forest) : Nat → Handle → List Handle
  | 0, _ => []
  | n + 1, h =>
    match f.parent? h with
    | some p => p :: owners f n p
    | none => []

/-- All owners of a concept, the outermost first. -/
def chain (f : Forest) (h : Handle) : List Handle :=
  (f.owners f.next h).reverse

/-- All owners of a concept, which must be live, the outermost first. -/
def ancestors (f : Forest) (h : Handle) : Except ForestError (List Handle) := do
  let _ ← f.node h
  return f.chain h

/-- Does the one concept own the other, at whatever remove? -/
def isAncestor (f : Forest) (ancestor descendant : Handle) : Bool :=
  (f.owners f.next descendant).contains ancestor

/-- The preferred rendering of a concept; a released one is shown by its handle. -/
def label (f : Forest) (h : Handle) : String :=
  match f.get? h with
  | some c => c.preferred.rendered
  | none => s!"<released {h.text}>"

/-- A summary of a concept; a released one is shown by its handle. -/
def describe (f : Forest) (h : Handle) : String :=
  match f.tree? h with
  | some t => t.describe
  | none => f.label h

end Forest

end ConceptForest
