import ConceptForest.Session.Reference

/-!
Commands about what the current concept is known by.
-/

namespace ConceptForest

namespace Session

/-- Gives the current concept the text of the arguments as its preferred representation. -/
def name (call : Invocation) : Action Prompt (List Prompt) := do
  if call.args.isEmpty then
    throw (.usage ":name needs the text to name the current concept with")
  let s ← get
  let text := String.intercalate " " (call.args.map s.forest.typedText)
  change (Edit.addRepresentation s.current ⟨text, .userSupplied⟩)
  return [.info s!"{s.label} is now known as {(← get).label}"]

/-- Records that the current concept is another representation of the one that is meant. References
do not follow this. -/
def represent (call : Invocation) : Action Prompt (List Prompt) := do
  let h ← ask (·.theOne call "concept to alias")
  let s ← get
  if h = s.current then throw (.usage "a concept cannot be an alias of itself")
  change (Edit.associate s.current h .representation)
  let t ← get
  return [.info s!"{t.label} is a representation of {t.forest.describe h}"]

end Session

end ConceptForest
