import ConceptForest.Forest.Tree

/-!
Looking up names.

A name is looked for in a concept and in what it owns, from left to right. Where a concept binds the
name itself, nothing below it is looked at: its own binding hides them.
-/

namespace ConceptForest

/-- A binding that a look-up has found. -/
structure Binding where
  /-- The concepts from the origin of the look-up down to the one that binds the name. -/
  path : List Handle
  name : String
  value : Value
  deriving DecidableEq, Repr

namespace Binding

/-- The concept that binds the name. -/
def owner? (b : Binding) : Option Handle :=
  b.path.getLast?

/-- How a binding is shown. -/
def text (b : Binding) : String :=
  let path := String.intercalate " > " (b.path.map Handle.text)
  s!"{b.name} = {b.value.text} (via {path})"

end Binding

namespace Tree

mutual

/-- The bindings of a name that are visible from the top, with the paths that lead to them. -/
def lookup (name : String) : Tree → List Binding
  | node h c ts =>
    match c.context.get? name with
    | some value => [⟨[h], name, value⟩]
    | none => (lookupAll name ts).map fun b => { b with path := h :: b.path }

def lookupAll (name : String) : List Tree → List Binding
  | [] => []
  | t :: ts => t.lookup name ++ lookupAll name ts

end

end Tree

/-- The bindings of a name that are visible from a concept. -/
def Forest.lookup (f : Forest) (origin : Handle) (name : String) :
    Except ForestError (List Binding) :=
  return (← f.tree origin).lookup name

end ConceptForest
