import ConceptForest.Session.Movement
import ConceptForest.Session.Naming
import ConceptForest.Session.Outline

/-!
Interpreting input: a line is read as a whole, and then its expressions are taken one by one.

An expression becomes a concept under the current one. A command is carried out at once and its
concept is released again, also if it is refused; only a prompt tells of a refusal.
-/

namespace ConceptForest

open Grammar (Expression Program)

/-- What has become of a command. -/
inductive Outcome where
  | completed (report : List Prompt)
  | refused (reason : Prompt)
  /-- No command is called by the word. -/
  | unknownCommand (word : String)
  deriving DecidableEq, Repr

/-- What is said to the user about an outcome. -/
def Outcome.prompts : Outcome → List Prompt
  | completed report => report
  | refused reason => [reason]
  | unknownCommand word => [⟨.unknownCommand, s!"':{word}'"⟩]

/-- Carries out a command. -/
def Command.run : Command → Invocation → Action Prompt (List Prompt)
  | enter => Session.enter
  | enterPart => Session.enterPart
  | leave => Session.leave
  | bind => Session.bind
  | lookup => Session.lookup
  | define => Session.define
  | check => Session.check
  | outline => Session.outline
  | name => Session.name
  | represent => Session.represent

namespace Session

/-- Carries out the command that is called by a word. -/
def dispatch (call : Invocation) : Action ForestError Outcome := fun s =>
  match s.commands.lookup call.word with
  | none => .ok (.unknownCommand call.word) s
  | some command =>
    match command.run call s with
    | .ok report t => .ok (.completed report) t
    | .error reason t => .ok (.refused reason) t

/-- Carries out a command that has been built as a concept, and releases that concept. -/
def execute (concept : Handle) (word : String) : Action ForestError Outcome := do
  let args := (← ask (·.forest.node concept)).children
  edit (Edit.unlink concept)
  let outcome ← dispatch ⟨concept, word, args⟩
  let _ ← edit (Edit.release concept)
  modify fun s => { s with prompts := s.prompts ++ outcome.prompts }
  return outcome

/-- Takes one expression; for a command there is an outcome. -/
def take (e : Expression) : Action SessionError (Option Outcome) := do
  let s ← get
  let h ← edit ((Edit.buildOne s.registry s.current e).adaptExcept .build)
  match e with
  | .command word _ => some <$> (execute h word).adaptExcept .forest
  | _ => return none

/-- Takes expressions one by one, up to the first that fails. -/
def takeAll : List Expression → Action SessionError (List Outcome)
  | [] => return []
  | e :: es => do
    let outcome? ← take e
    return outcome?.toList ++ (← takeAll es)

/-- What can be known to be wrong with a line before anything of it is taken. -/
def read (s : Session) (line : String) : Except SessionError Program := do
  let program ← (Program.parse line).mapError .grammar
  (Build.checkSnippets s.registry program.snippets).mapError .build
  return program

/-- Takes a line of input, which is read as a whole first. -/
def takeLine (line : String) : Action SessionError (List Outcome) := do
  let program ← ask (·.read line)
  takeAll program.expressions

/-- Interprets a line of input: the session after it, and what has become of its commands. -/
def interpret (s : Session) (line : String) : Session × Except SessionError (List Outcome) :=
  match takeLine line s with
  | .ok outcomes t => (t, .ok outcomes)
  | .error e t => (t, .error e)

/-- The session without its prompts, and these. -/
def takePrompts (s : Session) : Session × List Prompt :=
  ({ s with prompts := [] }, s.prompts)

end Session

end ConceptForest
