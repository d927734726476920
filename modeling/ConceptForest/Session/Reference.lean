import ConceptForest.Session.Basic

/-!
References: how the arguments of a command say which concept is meant.

One argument means what can be written as it can be written; several mean a concept that owns such
things one after the other. The command itself is never meant, nor are its arguments.
-/

namespace ConceptForest

/-- A command that is to be carried out. It has been taken out of its owner's children. -/
structure Invocation where
  /-- The concept that the command was built as. -/
  concept : Handle
  /-- The word by which the command is called. -/
  word : String
  /-- A concept for each argument, in order. -/
  args : List Handle
  deriving DecidableEq, Repr

/-- What a forest refuses, as it is told to the user. -/
def ForestError.prompt (e : ForestError) : Prompt :=
  ⟨.error, (SessionError.forest e).message⟩

/-- What a forest answers; what it refuses becomes a prompt. -/
def orPrompt {α : Type} (r : Except ForestError α) : Except Prompt α :=
  r.mapError ForestError.prompt

namespace Forest

/-- The text that an argument was typed as. -/
def typedText (f : Forest) (arg : Handle) : String :=
  match f.get? arg with
  | some c => if c.preferred.isIdentity then f.describe arg else c.preferred.raw
  | none => f.describe arg

/-- The arguments as they are shown, in quotation marks. -/
def describeArgs (f : Forest) (args : List Handle) : String :=
  "'" ++ String.intercalate " " (args.map f.describe) ++ "'"

/-- What is meant by arguments; nothing if there are none. -/
def reference (f : Forest) : List Handle → Except ForestError (Option Expansion)
  | [] => .ok none
  | [arg] => return some (← f.expand arg)
  | args => return some (.sequence (← args.mapM f.expand))

/-- A value as it is shown where it is used. -/
def describeValue (f : Forest) : Value → String
  | .concept h => f.describe h
  | .literal text => text

end Forest

namespace Session

/-- A change of the forest as a step of a command. -/
def change {α : Type} (e : Edit ForestError α) : Action Prompt α :=
  edit (e.adaptExcept ForestError.prompt)

/-- The concepts that are meant. -/
def meant (s : Session) (call : Invocation) (e : Expansion) : Except ForestError (List Handle) :=
  s.forest.resolve s.topLevel e [call.concept]

/-- The one concept that is meant by the arguments; `role` says what it is needed as. -/
def theOne (s : Session) (call : Invocation) (role : String) : Except Prompt Handle := do
  match ← orPrompt (s.forest.reference call.args) with
  | none => throw (.usage s!":{call.word} needs {role}")
  | some e =>
    match ← orPrompt (s.meant call e) with
    | [h] => return h
    | [] => throw ⟨.notFound, s!"could not find {role} {s.forest.describeArgs call.args}"⟩
    | found =>
      throw ⟨.ambiguous,
        s!"{role} {s.forest.describeArgs call.args} is ambiguous: " ++
          s!"found {found.length} matches"⟩

end Session

end ConceptForest
