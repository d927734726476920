import ConceptForest.Forest.Lookup

/-!
Well-definedness.

A concept is well-defined when each free name of its definition has exactly one binding that is
visible from the definition's owner. A concept without a definition is made of the definitions of
its children; a policy says whether that defines it.
-/

namespace ConceptForest

open Script (SyntaxError)

/-- Why a definition is not well-defined. -/
inductive Diagnostic where
  | conceptUndefined (concept : Handle)
  | missingBinding (concept : Handle) (name : String)
  | ambiguousBinding (concept : Handle) (name : String) (bindings : List Binding)
  | syntaxError (concept : Handle) (error : SyntaxError)
  deriving DecidableEq, Repr

namespace Diagnostic

/-- The owner of the definition. -/
def concept : Diagnostic → Handle
  | conceptUndefined c | missingBinding c _ | ambiguousBinding c _ _ | syntaxError c _ => c

/-- The short form, without the concepts. -/
def summary : Diagnostic → String
  | conceptUndefined c => s!"NotWellDefined[Concept-Undefined: {c.text}]"
  | missingBinding _ name => s!"NotWellDefined[Missing-Binding: '{name}']"
  | ambiguousBinding _ name bindings =>
    s!"NotWellDefined[Ambiguous-Binding: '{name}' x{bindings.length}]"
  | syntaxError _ error => s!"NotWellDefined[Syntax-Error: {error.message}]"

/-- The form for a user, with the concepts as they are known in the forest. -/
def describe (f : Forest) : Diagnostic → String
  | conceptUndefined c => s!"Concept-Undefined: {f.describe c} has no definition"
  | missingBinding c name =>
    s!"Missing-Binding: '{name}' is not bound anywhere visible from {f.describe c}"
  | ambiguousBinding c name bindings =>
    let owners := String.intercalate ", " ((bindings.filterMap Binding.owner?).map f.describe)
    s!"Ambiguous-Binding: '{name}' has {bindings.length} bindings visible from {f.describe c}" ++
      s!" (in {owners})"
  | syntaxError c error => s!"Syntax-Error in {f.describe c}: {error.message}"

end Diagnostic

/-- Whether the definitions of its children define a concept. -/
inductive GroupPolicy where
  /-- They never do. -/
  | never
  /-- They do if each of them is well-defined. -/
  | conjunctive
  deriving DecidableEq, Repr

/-- The name of a policy. -/
def GroupPolicy.name : GroupPolicy → String
  | never => "opaque"
  | conjunctive => "conjunctive"

mutual

/-- The definition that a concept has, or the one that it could have: its own, or the group of those
of its children. -/
def Tree.definition : Tree → Definition
  | .node h c ts =>
    match c.context.definition? with
    | some d => d
    | none => if ts.isEmpty then .undefined h else .group h (definitionsAll ts)

def definitionsAll : List Tree → List Definition
  | [] => []
  | t :: ts => t.definition :: definitionsAll ts

end

namespace Forest

/-- What is wrong with the free names of a definition of `owner`, in their order. -/
def checkNames (f : Forest) (owner : Handle) :
    List String → Except ForestError (List Diagnostic)
  | [] => .ok []
  | name :: names => do
    let found ← f.lookup owner name
    let rest ← checkNames f owner names
    return match found with
      | [] => .missingBinding owner name :: rest
      | [_] => rest
      | _ => .ambiguousBinding owner name found :: rest

/-- What is wrong with a definition in a scripting language. -/
def checkScript (f : Forest) (script : ScriptDefinition) :
    Except ForestError (List Diagnostic) :=
  match script.freeNames with
  | .error e => .ok [.syntaxError script.owner e]
  | .ok names => f.checkNames script.owner names

mutual

/-- What is wrong with a definition, under a policy. -/
def judge (f : Forest) (policy : GroupPolicy) : Definition → Except ForestError (List Diagnostic)
  | .undefined h => .ok [.conceptUndefined h]
  | .script s => f.checkScript s
  | .group h inner =>
    match policy with
    | .never => .ok [.conceptUndefined h]
    | .conjunctive => judgeAll f policy inner

def judgeAll (f : Forest) (policy : GroupPolicy) :
    List Definition → Except ForestError (List Diagnostic)
  | [] => .ok []
  | d :: ds => do
    let first ← judge f policy d
    return first ++ (← judgeAll f policy ds)

end

/-- The definition that a concept has or could have. -/
def definition (f : Forest) (h : Handle) : Except ForestError Definition :=
  return (← f.tree h).definition

/-- What is wrong with the definition of a concept, under a policy. -/
def check (f : Forest) (policy : GroupPolicy) (h : Handle) :
    Except ForestError (List Diagnostic) := do
  f.judge policy (← f.definition h)

end Forest

end ConceptForest
