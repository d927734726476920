import ConceptForest.Session.Reference

/-!
Commands that move to another concept.
-/

namespace ConceptForest

namespace Session

/-- Goes to a concept. -/
def goTo (h : Handle) : Action Prompt Unit :=
  modify fun s => { s with current := h }

/-- Goes to the concept that is meant. -/
def enter (call : Invocation) : Action Prompt (List Prompt) := do
  goTo (← ask (·.theOne call "concept to enter"))
  return [.info s!"entered {(← get).label}"]

/-- Makes one concept of a match and goes there. -/
def enterLifted (m : Match) : Action Prompt (List Prompt) := do
  let described := m.describe (← get).forest
  let refusal (e : LiftError) : Prompt :=
    ⟨.notLiftable, s!"{described} cannot be lifted: {e.message}"⟩
  goTo (← edit ((Edit.lift m).adaptExcept refusal))
  return [.info s!"lifted {described} into a new concept and entered it"]

/-- The one part of the forest that the arguments mean. -/
def thePart (s : Session) (call : Invocation) : Except Prompt Match := do
  match ← orPrompt (s.forest.reference call.args) with
  | none => throw (.usage ":enter_partial needs a concept or part of one to enter")
  | some e =>
    match ← orPrompt (s.forest.resolveParts s.topLevel e [call.concept]) with
    | [m] => return m
    | [] =>
      throw ⟨.notFound, s!"could not find concept to enter {s.forest.describeArgs call.args}"⟩
    | found =>
      let candidates := String.intercalate "; " (found.map fun m => m.describe s.forest)
      throw ⟨.ambiguous,
        s!"concept to enter is ambiguous: found {found.length} matches ({candidates})"⟩

/-- Goes to the concept, or the part of one, that is meant. -/
def enterPart (call : Invocation) : Action Prompt (List Prompt) := do
  let m ← ask (·.thePart call)
  match m.single? with
  | some h =>
    goTo h
    return [.info s!"entered {(← get).label}"]
  | none =>
    if m.isLiftable then enterLifted m
    else
      throw ⟨.notLiftable,
        s!"{m.describe (← get).forest} cannot be treated as a unit without breaking the " ++
          "concept graph; enter a larger structure that contains all of it"⟩

/-- Goes to the owner of the current concept; stays there if it has none. -/
def leave (call : Invocation) : Action Prompt (List Prompt) := do
  if !call.args.isEmpty then throw (.usage ":leave_concept takes no arguments")
  match (← ask fun s => orPrompt (s.forest.node s.current)).parent with
  | some p =>
    goTo p
    return [.info s!"left to {(← get).label}"]
  | none => return []

end Session

end ConceptForest
