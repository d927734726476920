import ConceptForest.Forest.Build
import ConceptForest.Forest.Lift

/-!
Prompts: what a session has to say to its user.
-/

namespace ConceptForest

/-- What a prompt is about. -/
inductive PromptKind where
  /-- What a command that was carried out has to say. -/
  | info
  /-- What is wrong with a definition. -/
  | diagnostic
  /-- A reference describes nothing. -/
  | notFound
  /-- A reference describes more than one thing. -/
  | ambiguous
  /-- What a reference describes cannot become one concept. -/
  | notLiftable
  /-- The command was given the wrong arguments. -/
  | usage
  | unknownCommand
  | error
  deriving DecidableEq, Repr

namespace PromptKind

/-- The name of a kind. -/
def name : PromptKind → String
  | info => "info"
  | diagnostic => "diagnostic"
  | notFound => "not found"
  | ambiguous => "ambiguous"
  | notLiftable => "not liftable"
  | usage => "usage"
  | unknownCommand => "unknown command"
  | error => "error"

/-- Does the kind tell of a command that was not carried out? -/
def isFailure : PromptKind → Bool
  | info | diagnostic => false
  | _ => true

end PromptKind

/-- Something for the user to read. -/
structure Prompt where
  kind : PromptKind
  message : String
  deriving DecidableEq, Repr

namespace Prompt

/-- A line of what a command has to say. -/
def info (message : String) : Prompt := ⟨.info, message⟩

/-- How a command is to be used. -/
def usage (message : String) : Prompt := ⟨.usage, message⟩

/-- How a prompt is shown. -/
def text (p : Prompt) : String :=
  match p.kind with
  | .info => p.message
  | kind => s!"{kind.name}: {p.message}"

end Prompt

/-- Why a line of input is refused as a whole. -/
inductive SessionError where
  | grammar (error : Grammar.GrammarError)
  | build (error : BuildError)
  | forest (error : ForestError)
  | lift (error : LiftError)
  deriving DecidableEq, Repr

/-- The text of an error. -/
def SessionError.message : SessionError → String
  | grammar error => s!"Grammar error: {error.message}"
  | build error => s!"Build error: {error.message}"
  | forest error => s!"Graph error: {error.message}"
  | lift error => s!"Lift error: {error.message}"

end ConceptForest
