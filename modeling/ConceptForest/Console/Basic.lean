import ConceptForest.Config
import ConceptForest.Console.Display
import ConceptForest.Document.Json
import ConceptForest.Document.Yaml
import ConceptForest.Session.Interpreter

/-!
The front end: several sessions, one of which is current.
-/

namespace ConceptForest

/-- The formats in which expansions can be shown. -/
inductive Format where
  | text
  | json
  | yaml
  deriving DecidableEq, Repr

namespace Format

/-- The name of a format. -/
def name : Format → String
  | text => "text"
  | json => "json"
  | yaml => "yaml"

/-- The format of the given name. -/
def named? (name : String) : Option Format :=
  [text, json, yaml].find? (·.name == name)

/-- Something that can be shown as plain text or as a document, in a format. -/
def render (format : Format) (plain : String) (document : Document) : String :=
  match format with
  | text => plain
  | json => document.json
  | yaml => document.yaml

end Format

/-- Why the front end cannot do something. -/
inductive ConsoleError where
  | config (error : ConfigError)
  | noCurrentSession
  /-- No session has the number. -/
  | sessionClosed (index : Nat)
  | noSession (word : String) (opened : Nat)
  | switchUsage
  | unknownMetaCommand (word : String)
  /-- Nothing can come behind the sign for all children. -/
  | allChildrenNotLast
  | noChild (word label : String) (children : Nat)
  | flattenUsage
  | forest (error : ForestError)
  | unreadable (path reason : String)
  deriving DecidableEq, Repr

/-- The text of an error. -/
def ConsoleError.message : ConsoleError → String
  | config error => error.message
  | noCurrentSession => "Invalid argument: no current session"
  | sessionClosed index => s!"Invalid argument: no session {index}"
  | noSession word opened => s!"Invalid argument: no session '{word}' ({opened} open)"
  | switchUsage => "Invalid argument: :/switch takes one session index"
  | unknownMetaCommand word =>
    s!"Invalid argument: unknown meta command ':/{word}' (try ':/help')"
  | allChildrenNotLast => "Invalid argument: ':' must come last"
  | noChild word label children =>
    s!"Invalid argument: no child '{word}' under {label} ({children} children)"
  | flattenUsage => "Invalid argument: :/flatten takes child indices only"
  | forest error => s!"Invalid argument: {error.message}"
  | unreadable path reason => s!"Invalid argument: cannot read {path}: {reason}"

/-- A front end. -/
structure Console where
  sessions : List Session
  /-- The number of the current session. -/
  current? : Option Nat
  config : Config := {}
  format : Format := .text

namespace Console

/-- A new session, as the configuration wants it. -/
def newSession (config : Config) : Except ConsoleError Session := do
  let registry ← config.registry.mapError .config
  return .new registry config.settings

/-- A front end with one new session. -/
def start (config : Config) (format : Format) : Except ConsoleError Console := do
  let session ← newSession config
  return { sessions := [session], current? := some 0, config, format }

/-- The current session. -/
def currentSession? (c : Console) : Option Session := do
  c.sessions[← c.current?]?

/-- The current session, which there must be. -/
def currentSession (c : Console) : Except ConsoleError Session :=
  match c.currentSession? with
  | some s => .ok s
  | none => .error .noCurrentSession

/-- Puts a session in the place of the current one. -/
def setCurrent (c : Console) (s : Session) : Console :=
  match c.current? with
  | some i => { c with sessions := c.sessions.set i s }
  | none => c

/-- Shows where a session stands. What it had to say is said. -/
def header (c : Console) (index : Nat) : Except ConsoleError (Console × Display) :=
  match c.sessions[index]? with
  | none => .error (.sessionClosed index)
  | some s =>
    let (t, prompts) := s.takePrompts
    .ok ({ c with sessions := c.sessions.set index t },
      .header index s.label prompts c.config.invitation)

end Console

end ConceptForest
