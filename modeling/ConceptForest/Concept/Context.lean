import ConceptForest.Concept.Definition
import ConceptForest.NameTable
import ConceptForest.Text.Quoted

/-!
Contexts: what a concept binds.

A context maps names to values and may hold a definition. The definition is kept apart from the
names, so no name can collide with it.
-/

namespace ConceptForest

/-- What a name can stand for. -/
inductive Value where
  | literal (text : String)
  | concept (handle : Handle)
  deriving DecidableEq, Repr

/-- How a value is shown: a literal in quotation marks, a concept by its handle. -/
def Value.text : Value → String
  | literal text => Text.quoted text
  | concept h => s!"concept {h.text}"

/-- What a concept binds. -/
structure Context where
  bindings : NameTable Value := []
  definition? : Option Definition := none

namespace Context

/-- The value of a name. -/
def get? (context : Context) (name : String) : Option Value :=
  context.bindings.lookup name

/-- Binds a name. -/
def bind (context : Context) (name : String) (value : Value) : Context :=
  { context with bindings := context.bindings.insert name value }

/-- Frees a name. -/
def unbind (context : Context) (name : String) : Context :=
  { context with bindings := context.bindings.erase name }

/-- The bound names, in rising order. -/
def names (context : Context) : List String :=
  context.bindings.names

/-- Is there neither a name nor a definition? -/
def isEmpty (context : Context) : Bool :=
  context.bindings.isEmpty && context.definition?.isNone

/-- After a binding the name has the value, and every other name what it had. -/
@[simp] theorem get?_bind (context : Context) (name other : String) (value : Value) :
    (context.bind name value).get? other = if other = name then some value else context.get? other := by
  split
  · next h => subst h; exact NameTable.lookup_insert_self _ _ _
  · next h => exact NameTable.lookup_insert_of_ne h _ _

end Context

end ConceptForest
