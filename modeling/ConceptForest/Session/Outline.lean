import ConceptForest.Session.Meaning

/-!
The outline of a concept: all that is known about it and about what it owns.
-/

namespace ConceptForest

/-- What is known about a concept itself, below its heading. -/
def Forest.outlineNotes (f : Forest) (c : Concept) : List String :=
  let others kind := (Forest.ofKind kind c.associations).map f.describe
  c.context.bindings.map (fun (name, value) => s!"{name} = {f.describeValue value}") ++
    (match c.context.definition? with
      | some (.script d) => [s!"defined in {d.language}: {d.source}"]
      | _ => []) ++
    (others .piece).map ("piece of " ++ ·) ++
    (others .representation).map ("representation of " ++ ·)

namespace Tree

mutual

/-- The lines of an outline. Each level stands two blanks further to the right. -/
def outline (f : Forest) (depth : Nat) : Tree → List String
  | node h c ts =>
    let indent := "".pushn ' ' (2 * depth)
    (s!"{indent}{(node h c ts).describe} ({c.kind.name} {h.text})" ::
      (f.outlineNotes c).map fun note => s!"{indent}  | {note}") ++ outlineAll f (depth + 1) ts

def outlineAll (f : Forest) (depth : Nat) : List Tree → List String
  | [] => []
  | t :: ts => t.outline f depth ++ outlineAll f depth ts

end

end Tree

namespace Session

/-- All that is known about a concept and what it owns. -/
def outlineReport (s : Session) (call : Invocation) : Except Prompt (List Prompt) := do
  let t ← orPrompt (s.forest.tree (← s.subject call))
  return (t.outline s.forest 0).map .info

/-- Tells all about a concept and what it owns. -/
def outline (call : Invocation) : Action Prompt (List Prompt) :=
  ask (·.outlineReport call)

end Session

end ConceptForest
