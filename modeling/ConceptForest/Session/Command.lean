import ConceptForest.NameTable

/-!
Commands, and the words by which they are called.
-/

namespace ConceptForest

/-- What can be asked of a session. -/
inductive Command where
  /-- Makes the one concept that the arguments describe the current one. -/
  | enter
  /-- Does so for a part of a concept as well, which becomes a concept of its own. -/
  | enterPart
  /-- Makes the owner of the current concept the current one. -/
  | leave
  /-- Binds a name at the current concept. -/
  | bind
  /-- Tells what a name is bound to. -/
  | lookup
  /-- Makes a snippet the definition of the current concept. -/
  | define
  /-- Tells what is wrong with a definition. -/
  | check
  /-- Tells all about a concept and what it owns. -/
  | outline
  /-- Gives the current concept another representation. -/
  | name
  /-- Records that the current concept is another representation of a concept. -/
  | represent
  deriving DecidableEq, Repr

namespace Command

/-- All commands. -/
def all : List Command :=
  [enter, enterPart, leave, bind, lookup, define, check, outline, name, represent]

/-- The word by which a command is called. -/
def word : Command → String
  | enter => "enter_concept"
  | enterPart => "enter_partial"
  | leave => "leave_concept"
  | bind => "bind"
  | lookup => "lookup"
  | define => "define"
  | check => "check"
  | outline => "show"
  | name => "name"
  | represent => "alias"

/-- The command that is called by a word. -/
def ofWord? (word : String) : Option Command :=
  all.find? (·.word == word)

/-- The commands, each under its word. -/
def table : NameTable Command :=
  .ofList (all.map fun c => (c.word, c))

theorem mem_all (c : Command) : c ∈ all := by
  cases c <;> decide

theorem ofWord?_word (c : Command) : ofWord? c.word = some c := by
  cases c <;> decide

end Command

end ConceptForest
