import ConceptForest.Forest.WellDefined
import ConceptForest.Session.Command
import ConceptForest.Session.Prompt

/-!
Sessions: a forest, a place in it, and what is still to be said to the user.

Sessions have nothing in common: each has a forest of its own.
-/

namespace ConceptForest

/-- What a session is begun with. -/
structure Settings where
  groupPolicy : GroupPolicy := .never
  /-- How many ways of writing a concept are shown at most. -/
  maxAlternatives : Nat := 256
  deriving DecidableEq, Repr

/-- A session. -/
structure Session where
  forest : Forest
  /-- The concept that input goes under and that commands are about. -/
  current : Handle
  /-- The concepts from which references are looked for. -/
  topLevel : List Handle
  /-- What is still to be said, in order. -/
  prompts : List Prompt := []
  settings : Settings := {}
  commands : NameTable Command := Command.table
  registry : Script.Registry := .withPython false

/-- The forest with one concept in it, a root without anything. -/
def Forest.seed : Forest :=
  ({} : Forest).push (NewConcept.toConcept { kind := .root } 0)

/-- Something done in a session, step by step. What a refused action has done before the step that
was refused stays. -/
abbrev Action (ε α : Type) := EStateM ε Session α

namespace Session

/-- Changes the forest of the session. -/
def edit {ε α : Type} (e : Edit ε α) : Action ε α := fun s =>
  match e s.forest with
  | .ok a g => .ok a { s with forest := g }
  | .error e g => .error e { s with forest := g }

/-- A session at the root of a new forest. -/
def new (registry : Script.Registry) (settings : Settings) : Session where
  forest := .seed
  current := 0
  topLevel := [0]
  settings
  registry

/-- The current concept as it is shown. -/
def label (s : Session) : String :=
  s.forest.describe s.current

/-- The session in one line, for a log. -/
def summary (s : Session) : String :=
  let commands := String.intercalate ", " (s.commands.names.map Text.quoted)
  s!"Session \x7b current: ConceptId({s.current}), concepts: {s.forest.size}, " ++
    s!"commands: \x7b{commands}\x7d \x7d"

end Session

end ConceptForest
