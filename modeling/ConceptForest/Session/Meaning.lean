import ConceptForest.Session.Reference

/-!
Commands about what names and concepts mean.
-/

namespace ConceptForest

namespace Session

/-- The concept that one argument of a binding means, if it means any; `place` says which argument
that is. -/
def meantBy? (s : Session) (call : Invocation) (arg : Handle) (place : String) :
    Except Prompt (Option Handle) := do
  let e ← orPrompt (s.forest.expand arg)
  match ← orPrompt (s.meant call e) with
  | [] => return none
  | [h] => return some h
  | found =>
    throw ⟨.ambiguous,
      s!"ambiguous concept reference as {place} argument of :bind, matched " ++
        s!"'{s.forest.describe arg}' with {found.length} matches"⟩

/-- Binds a name at the current concept. A name that means a concept stands for what that concept is
known by; a value that means none stands for its own text. -/
def bind (call : Invocation) : Action Prompt (List Prompt) := do
  match call.args with
  | [symbol, arg] =>
    let s ← get
    let name := match ← ask (·.meantBy? call symbol "first") with
      | some h => s.forest.label h
      | none => s.forest.typedText symbol
    let value := match ← ask (·.meantBy? call arg "second") with
      | some h => Value.concept h
      | none => .literal (s.forest.typedText arg)
    let _ ← change (Edit.bind s.current name value)
    return [.info s!"bound '{name}' => {s.forest.describeValue value} in {(← get).label}"]
  | _ => throw (.usage ":bind must be given exactly two arguments: a symbol and a value")

/-- How a binding of a name is told. -/
def bindingLine (s : Session) (name : String) (b : Binding) : String :=
  let owner := (b.owner?.map s.forest.describe).getD ""
  s!"{name} = {s.forest.describeValue b.value} (in {owner})"

/-- What a name is bound to, as seen from the current concept. -/
def lookupReport (s : Session) (call : Invocation) : Except Prompt (List Prompt) := do
  match call.args with
  | [arg] =>
    let name := s.forest.typedText arg
    let found ← orPrompt (s.forest.lookup s.current name)
    let heading := match found with
      | [] => [s!"'{name}' is unbound in {s.label}"]
      | [_] => []
      | _ => [s!"'{name}' is ambiguous: {found.length} bindings"]
    return (heading ++ found.map (s.bindingLine name)).map .info
  | _ => throw (.usage ":lookup takes exactly one identifier")

/-- Tells what a name is bound to. -/
def lookup (call : Invocation) : Action Prompt (List Prompt) :=
  ask (·.lookupReport call)

/-- How `define` is to be used. -/
def defineUsage : Prompt :=
  .usage ":define takes exactly one scripted snippet, e.g. :define ```python y = x + 1```"

/-- The language of the one snippet among the arguments, and the concept that it was built as. -/
def theSnippet (s : Session) (call : Invocation) : Except Prompt (Handle × String) := do
  match call.args with
  | [arg] =>
    let c ← orPrompt (s.forest.node arg)
    match c.kind, c.context.definition? with
    | .script, some (.script d) => return (arg, d.language)
    | _, _ => throw defineUsage
  | _ => throw defineUsage

/-- Makes the one snippet among the arguments the definition of the current concept. -/
def define (call : Invocation) : Action Prompt (List Prompt) := do
  let (arg, language) ← ask (·.theSnippet call)
  match ← change (Edit.takeDefinition arg) with
  | none => throw defineUsage
  | some d =>
    let h := (← get).current
    let _ ← change (Edit.bindDefinition h (d.withOwner h))
    return [.info s!"defined {(← get).label} with a {language} snippet"]

/-- The concept that the arguments mean; the current one if there are none. -/
def subject (s : Session) (call : Invocation) : Except Prompt Handle :=
  if call.args.isEmpty then .ok s.current else s.theOne call "concept"

/-- What is wrong with the definition of a concept. -/
def checkReport (s : Session) (call : Invocation) : Except Prompt (List Prompt) := do
  let h ← s.subject call
  match ← orPrompt (s.forest.check s.settings.groupPolicy h) with
  | [] => return [.info s!"{s.forest.describe h} is well-defined"]
  | found => return found.map fun d => ⟨.diagnostic, d.describe s.forest⟩

/-- Tells what is wrong with the definition of a concept. -/
def check (call : Invocation) : Action Prompt (List Prompt) :=
  ask (·.checkReport call)

end Session

end ConceptForest
