import ConceptForest.Expansion

/-!
Matching: which concepts, and which parts of concepts, an expansion describes.

A concept is described by one of its representations or, position by position, by its children. A
part of a concept is a run of its children, or a run that goes over from one child into the next
and covers some of the children of both.
-/

namespace ConceptForest

/-! ### Whole concepts -/

namespace Expansion

mutual

/-- Does the expansion describe the concept at the top of the tree? -/
def describes : Expansion → Tree → Bool
  | leaf text, t => t.concept.representations.any fun r => r.rendered == text
  | choice es, t => anyDescribes es t
  | sequence es, t => eachDescribes es t.children

def anyDescribes : List Expansion → Tree → Bool
  | [], _ => false
  | e :: es, t => e.describes t || anyDescribes es t

/-- Do the expansions describe the trees, position by position? -/
def eachDescribes : List Expansion → List Tree → Bool
  | [], [] => true
  | e :: es, t :: ts => e.describes t && eachDescribes es ts
  | _, _ => false

end

mutual

/-- The sequences among the alternatives of an expansion. -/
def topSequences : Expansion → List (List Expansion)
  | leaf _ => []
  | sequence es => [es]
  | choice es => topSequencesOfAny es

def topSequencesOfAny : List Expansion → List (List Expansion)
  | [] => []
  | e :: es => e.topSequences ++ topSequencesOfAny es

end

end Expansion

/-- Does the expansion describe the concept? None describes a concept that is not live. -/
def Forest.isDescribed (f : Forest) (e : Expansion) (h : Handle) : Bool :=
  (f.tree? h).any e.describes

/-! ### Parts of concepts -/

/-- Which part of a concept belongs to a match. -/
inductive Extent where
  | whole
  /-- The children from the one index up to the other, that one left out. -/
  | span (start stop : Nat)
  deriving DecidableEq, Repr

/-- Is only a part of the concept meant? -/
def Extent.isPartial (e : Extent) : Bool :=
  e != .whole

/-- A part of a forest: concepts, and which part of each. -/
structure Match where
  concepts : List Handle
  extents : List Extent
  deriving DecidableEq, Repr

namespace Match

/-- The match of one concept as a whole. -/
def whole (h : Handle) : Match := ⟨[h], [.whole]⟩

/-- The concept, if the match is one concept as a whole. -/
def single? : Match → Option Handle
  | ⟨[h], [.whole]⟩ => some h
  | _ => none

/-- How many of the concepts belong only in part to the match. -/
def partialCount (m : Match) : Nat :=
  m.extents.countP Extent.isPartial

/-- The match as it is shown to a user. -/
def describe (f : Forest) (m : Match) : String :=
  String.intercalate " + " ((m.concepts.zip m.extents).map fun (h, extent) =>
    match extent with
    | .whole => f.describe h
    | .span start stop => s!"{f.describe h}({start}..{stop})")

end Match

/-- The runs of `k` neighbours in a list, each with the index where it begins. -/
def windows {α : Type} (k : Nat) (xs : List α) : List (Nat × List α) :=
  if k = 0 ∨ xs.length < k then []
  else (List.range (xs.length - k + 1)).map fun start => (start, (xs.drop start).take k)

namespace Tree

/-- A tree among the children of siblings: the index of the sibling, and the index among its
children unless it is the sibling itself, which has none. -/
structure Cousin where
  sibling : Nat
  index? : Option Nat
  tree : Tree

/-- The children of siblings in one row; a sibling without children stands for itself. -/
def cousins (siblings : List Tree) : List Cousin :=
  siblings.zipIdx.flatMap fun (sibling, s) =>
    if sibling.children.isEmpty then [⟨s, none, sibling⟩]
    else sibling.children.zipIdx.map fun (child, i) => ⟨s, some i, child⟩

/-- The match of proper runs among the children of `t` that the items describe. -/
def windowMatches (items : List Expansion) (t : Tree) : List Match :=
  if items.length < t.children.length then
    (windows items.length t.children).filterMap fun (start, run) =>
      if Expansion.eachDescribes items run then
        some ⟨[t.handle], [.span start (start + items.length)]⟩
      else none
  else []

/-- Which part of the sibling at index `s`, which has `width` children, a run of cousins covers. -/
def coveredExtent (run : List Cousin) (s width : Nat) : Extent :=
  let covered := (run.filter (·.sibling == s)).filterMap Cousin.index?
  match covered.head?, covered.getLast? with
  | some first, some last =>
    if 0 < first ∨ last + 1 < width then .span first (last + 1) else .whole
  | _, _ => .whole

/-- The matches of runs that go over from one child of `t` into another and that the items describe.
-/
def spanningMatches (items : List Expansion) (t : Tree) : List Match :=
  (windows items.length (cousins t.children)).filterMap fun (_, run) => do
    let first := (← run.head?).sibling
    let last := (← run.getLast?).sibling
    if first == last || run.all (·.index?.isNone) ||
        !Expansion.eachDescribes items (run.map Cousin.tree) then none
    else
      let touched := (t.children.zipIdx.drop first).take (last + 1 - first)
      some
        ⟨touched.map (·.1.handle),
          touched.map fun (sibling, s) => coveredExtent run s sibling.children.length⟩

/-- The matches that begin at the top of a tree: as a whole, or a part of it. -/
def matchesHere (e : Expansion) (t : Tree) : List Match :=
  (if e.describes t then [.whole t.handle] else []) ++
    e.topSequences.flatMap fun items => windowMatches items t ++ spanningMatches items t

mutual

/-- The tree and the trees in it, each before those in it, without those of excluded concepts. -/
def reachable (excluded : List Handle) : Tree → List Tree
  | node h c ts =>
    if excluded.contains h then [] else node h c ts :: reachableAll excluded ts

def reachableAll (excluded : List Handle) : List Tree → List Tree
  | [] => []
  | t :: ts => t.reachable excluded ++ reachableAll excluded ts

end

end Tree

namespace Forest

/-- The trees of the roots that are not excluded. -/
def searched (f : Forest) (excluded : List Handle) :
    List Handle → Except ForestError (List Tree)
  | [] => .ok []
  | root :: roots =>
    if excluded.contains root then searched f excluded roots
    else do
      let t ← f.tree root
      return t :: (← searched f excluded roots)

/-- The concepts under the roots that the expansion describes as a whole, each once, without those
that are excluded or inside of excluded ones. -/
def resolve (f : Forest) (roots : List Handle) (e : Expansion) (excluded : List Handle) :
    Except ForestError (List Handle) := do
  let trees ← f.searched excluded roots
  return (((Tree.reachableAll excluded trees).filter e.describes).map Tree.handle).eraseDups

/-- The concepts and parts of concepts under the roots that the expansion describes, each once. The
search does not go into excluded concepts. -/
def resolveParts (f : Forest) (roots : List Handle) (e : Expansion) (excluded : List Handle) :
    Except ForestError (List Match) := do
  let trees ← f.searched excluded roots
  return ((Tree.reachableAll excluded trees).flatMap (Tree.matchesHere e)).eraseDups

/-- The concepts and parts of concepts under a concept that the expansion describes. -/
def parts (f : Forest) (e : Expansion) (h : Handle) : Except ForestError (List Match) :=
  f.resolveParts [h] e []

end Forest

end ConceptForest
