import ConceptForest.Console.Basic

/-!
Meta commands: what can be asked of the front end itself.
-/

namespace ConceptForest

open ConceptForest.Text (isBlank natural?)

/-- What can be asked of the front end. -/
inductive MetaCommand where
  | list
  | switch
  | create
  | finish
  | showExpanded
  | flatten
  | help
  | quit
  deriving DecidableEq, Repr

namespace MetaCommand

/-- The meta commands, in the order of their explanation. -/
def all : List MetaCommand :=
  [list, switch, create, finish, showExpanded, flatten, help, quit]

/-- The words by which a meta command is called. No word at all calls for help. -/
def words : MetaCommand → List String
  | list => ["list"]
  | switch => ["switch"]
  | create => ["create"]
  | finish => ["finish"]
  | showExpanded => ["show_expanded"]
  | flatten => ["flatten"]
  | help => ["help", ""]
  | quit => ["quit", "exit"]

/-- The meta command that is called by a word. -/
def ofWord? (word : String) : Option MetaCommand :=
  all.find? (·.words.contains word)

/-- How a meta command is used, and what it does. -/
def usage : MetaCommand → String × String
  | list => ("list", "list sessions, marking the current one")
  | switch => ("switch N", "make session N current")
  | create => ("create", "start a new session")
  | finish => ("finish", "close the current session")
  | showExpanded =>
    ("show_expanded [IDX|:]...", "print the expansion of the current concept or a child")
  | flatten => ("flatten [IDX]...", "print every token sequence the concept stands for")
  | help => ("help", "show this help")
  | quit => ("quit", "leave the front end")

end MetaCommand

/-- The words of a text, without the blanks between them. -/
def splitBlanks (cs : List Char) : List String :=
  ((cs.splitBy fun a b => isBlank a == isBlank b).filter fun word => !word.any isBlank).map
    String.ofList

namespace Console

/-! ### Sessions -/

/-- The sessions, one in a line. -/
def listing (c : Console) : List Display :=
  c.sessions.zipIdx.map fun (s, i) =>
    let marker := if c.current? = some i then " *" else "  "
    .line s!"{i}{marker}: {s.label}"

/-- Makes the session with the given number the current one. -/
def switchTo (c : Console) (args : List String) : Except ConsoleError (Console × List Display) :=
  match args with
  | [word] =>
    match (natural? word.toList).filter (· < c.sessions.length) with
    | some index =>
      .ok ({ c with current? := some index }, [.line s!"switched to session {index}"])
    | none => .error (.noSession word c.sessions.length)
  | _ => .error .switchUsage

/-- Starts a new session behind the others. The current one stays the same. -/
def create (c : Console) : Except ConsoleError (Console × List Display) := do
  let s ← newSession c.config
  return ({ c with sessions := c.sessions ++ [s] },
    [.line s!"created session {c.sessions.length}"])

/-- Closes the current session. The one before it becomes the current one, or the first one. -/
def finish (c : Console) : Console × List Display :=
  match c.current? with
  | none => (c, [])
  | some index =>
    let sessions := c.sessions.eraseIdx index
    ({ c with sessions, current? := if sessions.isEmpty then none else some (index - 1) },
      [.line s!"finished session {index}"])

/-! ### Expansions -/

/-- What the front end can be asked to look at: a concept, or all children of one. -/
structure Sight where
  concept : Handle
  allChildren : Bool
  deriving DecidableEq, Repr

/-- Goes down from a concept by the numbers of its children. A colon at the end stands for all of
them. -/
def navigate (f : Forest) (h : Handle) : List String → Except ConsoleError Sight
  | [] => .ok ⟨h, false⟩
  | [":"] => .ok ⟨h, true⟩
  | ":" :: _ => .error .allChildrenNotLast
  | word :: rest => do
    let children := (← (f.node h).mapError .forest).children
    match (natural? word.toList).bind (children[·]?) with
    | some child => navigate f child rest
    | none => throw (.noChild word (f.describe h) children.length)

/-- The expansion of a concept. -/
def expansionOf (f : Forest) (h : Handle) : Except ConsoleError Expansion :=
  (f.expand h).mapError .forest

/-- Shows the expansion of the current concept or of what is below it. -/
def showExpanded (c : Console) (args : List String) : Except ConsoleError (List Display) := do
  let s ← c.currentSession
  let sight ← navigate s.forest s.current args
  if sight.allChildren then
    let children := (← (s.forest.node sight.concept).mapError .forest).children
    let es ← children.mapM (expansionOf s.forest)
    return [.line (c.format.render (Expansion.numberedText es) (.list (Expansion.documents es)))]
  else
    let e ← expansionOf s.forest sight.concept
    return [.line (c.format.render e.text e.document)]

/-- Shows the token sequences that the current concept, or one below it, stands for. -/
def showFlattened (c : Console) (args : List String) : Except ConsoleError (List Display) := do
  let s ← c.currentSession
  let sight ← navigate s.forest s.current args
  if sight.allChildren then throw .flattenUsage
  let limit := s.settings.maxAlternatives
  let v := (← expansionOf s.forest sight.concept).flatten limit
  return [.line (c.format.render (v.text limit) (v.document limit))]

/-! ### Help -/

/-- A text with blanks behind it, up to a width. -/
def padded (width : Nat) (s : String) : String :=
  s.pushn ' ' (width - s.length)

/-- Explains the meta commands and names the commands of the current session. -/
def explanation (c : Console) : List Display :=
  let metaLines := MetaCommand.all.map fun m =>
    Display.line s!"  :/{padded 26 m.usage.1} {m.usage.2}"
  let commandLines := match c.currentSession? with
    | some s => [Display.line ("concept commands: :" ++ String.intercalate " :" s.commands.names)]
    | none => []
  .line "meta commands:" :: metaLines ++ commandLines

/-! ### Carrying out -/

/-- What has come of a line of input. -/
structure Step where
  console : Console
  shown : List Display
  /-- Is the front end to be left? -/
  quits : Bool := false

/-- Carries out a meta command. -/
def carryOut (c : Console) (args : List String) : MetaCommand → Except ConsoleError Step
  | .list => .ok ⟨c, c.listing, false⟩
  | .switch => do
    let (d, shown) ← c.switchTo args
    return ⟨d, shown, false⟩
  | .create => do
    let (d, shown) ← c.create
    return ⟨d, shown, false⟩
  | .finish => .ok ⟨c.finish.1, c.finish.2, false⟩
  | .showExpanded => return ⟨c, ← c.showExpanded args, false⟩
  | .flatten => return ⟨c, ← c.showFlattened args, false⟩
  | .help => .ok ⟨c, c.explanation, false⟩
  | .quit => .ok ⟨c, [], true⟩

/-- Carries out what is called for behind the mark of meta commands. -/
def metaCommand (c : Console) (text : List Char) : Step :=
  let (word, args) := match splitBlanks text with
    | [] => ("", [])
    | word :: args => (word, args)
  let result := match MetaCommand.ofWord? word with
    | some m => c.carryOut args m
    | none => .error (.unknownMetaCommand word)
  match result with
  | .ok step => step
  | .error e => ⟨c, [.failure e.message], false⟩

end Console

end ConceptForest
