import ConceptForest.Forest.Edit
import ConceptForest.Grammar.Program.Parser

/-!
Building: making concepts of what was typed.

Every expression becomes a concept under a given parent, and every symbol of it one under that. A
snippet becomes a concept with a definition, for which an analyzer must be at hand; all snippets are
looked at before the first concept is made.
-/

namespace ConceptForest

open Grammar (GrammarError Symbol Expression Program Snippet)
open Script (Analyzer Registry)

/-- Why nothing can be built. -/
inductive BuildError where
  | grammar (error : GrammarError)
  | unsupportedContext (tag accepted : String)
  | forest (error : ForestError)
  deriving DecidableEq, Repr

/-- The text of an error. -/
def BuildError.message : BuildError → String
  | grammar error => error.message
  | unsupportedContext tag accepted =>
    s!"unsupported context switch '{tag}' (accepted: {accepted})"
  | forest error => s!"graph error: {error.message}"

mutual

/-- A symbol as it can be typed. -/
def renderSymbol : Symbol → String
  | .token text => renderToken text
  | .block symbols => "[" ++ String.intercalate " " (renderSymbols symbols) ++ "]"
  | .snippet s => "```" ++ s.tag.getD "" ++ " " ++ s.body ++ "```"

def renderSymbols : List Symbol → List String
  | [] => []
  | s :: rest => renderSymbol s :: renderSymbols rest

end

/-- A command as it can be typed. -/
def renderCommand (name : String) (args : List Symbol) : String :=
  String.intercalate " " ((":" ++ name) :: renderSymbols args)

namespace Build

/-- The analyzer for a snippet. -/
def analyzerFor (registry : Registry) (s : Snippet) : Except BuildError Analyzer :=
  match registry.resolve s.tag with
  | some a => .ok a
  | none => .error (.unsupportedContext (s.tag.getD "") registry.acceptedTags)

/-- Fails if there is no analyzer for one of the snippets. -/
def checkSnippets (registry : Registry) : List Snippet → Except BuildError Unit
  | [] => .ok ()
  | s :: rest => do
    let _ ← analyzerFor registry s
    checkSnippets registry rest

/-- The concept of a token. -/
def tokenConcept (parent : Handle) (text : String) : NewConcept where
  kind := .symbol
  parent := some parent
  representations := [⟨text, .inputMorphism⟩, ⟨s!"#|Symbol:{text}|#", .systemInformation⟩]

/-- The concept of a statement, without its symbols. -/
def statementConcept (parent : Handle) : NewConcept where
  kind := .statement
  parent := some parent

/-- The concept of a snippet, without its definition. -/
def snippetConcept (parent : Handle) (analyzer : Analyzer) (s : Snippet) : NewConcept where
  kind := .script
  parent := some parent
  representations :=
    [⟨s.body, .inputMorphism⟩, ⟨s!"#|Script:{analyzer.language}|#", .systemInformation⟩]

/-- The concept of a command, without its arguments. The tag tells it from other calls. -/
def commandConcept (parent : Handle) (name : String) (args : List Symbol) (tag : Nat) :
    NewConcept where
  kind := .command
  parent := some parent
  identifier := some (.tagged name tag)
  representations := [⟨renderCommand name args, .inputMorphism⟩]

/-- An edit of the forest as a step of a building. -/
def step {α : Type} (edit : Edit ForestError α) : Edit BuildError α :=
  edit.adaptExcept .forest

/-- Builds a snippet under a parent. -/
def buildSnippet (registry : Registry) (parent : Handle) (s : Snippet) :
    Edit BuildError Handle := do
  let analyzer ← ask fun _ => analyzerFor registry s
  let h ← step <| Edit.create (snippetConcept parent analyzer s)
  let _ ← step <| Edit.bindDefinition h (.ofScript h analyzer s.body)
  return h

mutual

/-- Builds a symbol under a parent. -/
def buildSymbol (registry : Registry) (parent : Handle) : Symbol → Edit BuildError Handle
  | .token text => step <| Edit.create (tokenConcept parent text)
  | .block symbols => do
    let h ← step <| Edit.create (statementConcept parent)
    buildSymbols registry h symbols
    return h
  | .snippet s => buildSnippet registry parent s

/-- Builds symbols under a parent, one after the other. -/
def buildSymbols (registry : Registry) (parent : Handle) : List Symbol → Edit BuildError Unit
  | [] => return
  | s :: rest => do
    let _ ← buildSymbol registry parent s
    buildSymbols registry parent rest

end

/-- Builds an expression whose snippets have been looked at under a parent. -/
def buildExpression (registry : Registry) (parent : Handle) :
    Expression → Edit BuildError Handle
  | .statement symbols => do
    let h ← step <| Edit.create (statementConcept parent)
    buildSymbols registry h symbols
    return h
  | .command name args => do
    let tag := (← get).next
    let h ← step <| Edit.create (commandConcept parent name args tag)
    buildSymbols registry h args
    return h
  | .snippet s => buildSnippet registry parent s

/-- Builds expressions whose snippets have been looked at under a parent, in order. -/
def buildExpressions (registry : Registry) (parent : Handle) :
    List Expression → Edit BuildError (List Handle)
  | [] => return []
  | e :: rest => do
    let h ← buildExpression registry parent e
    return h :: (← buildExpressions registry parent rest)

end Build

namespace Edit

/-- Builds one expression under a parent. -/
def buildOne (registry : Registry) (parent : Handle) (e : Expression) :
    Edit BuildError Handle := do
  let _ ← Build.step <| ask (·.node parent)
  ask fun _ => Build.checkSnippets registry e.snippets
  Build.buildExpression registry parent e

/-- Builds a program under a parent, one concept for each expression. -/
def build (registry : Registry) (parent : Handle) (program : Program) :
    Edit BuildError (List Handle) := do
  let _ ← Build.step <| ask (·.node parent)
  ask fun _ => Build.checkSnippets registry program.snippets
  Build.buildExpressions registry parent program.expressions

/-- Builds what is written in a text under a parent. -/
def buildText (registry : Registry) (parent : Handle) (text : String) :
    Edit BuildError (List Handle) := do
  let program ← ask fun _ => (Program.parse text).mapError .grammar
  build registry parent program

end Edit

/-! ### Requests -/

namespace Forest

def buildOne (f : Forest) (registry : Registry) (parent : Handle) (e : Expression) :
    Except BuildError (Forest × Handle) :=
  (Edit.buildOne registry parent e).result f

def buildText (f : Forest) (registry : Registry) (parent : Handle) (text : String) :
    Except BuildError (Forest × List Handle) :=
  (Edit.buildText registry parent text).result f

end Forest

end ConceptForest
