import ConceptForest.Concept.Handle
import ConceptForest.Script.Analyzer

/-!
Definitions of concepts.

A definition belongs to a concept, its owner, from which the names in it are looked up.
-/

namespace ConceptForest

open Script (Analyzer SyntaxError)

/-- A definition written in a scripting language. Its free names are found once, when it is made. -/
structure ScriptDefinition where
  owner : Handle
  language : String
  source : String
  freeNames : Except SyntaxError (List String)

/-- What a concept means. -/
inductive Definition where
  /-- Nothing is said about the owner. -/
  | undefined (owner : Handle)
  | script (script : ScriptDefinition)
  /-- The definitions of what the owner is made of. -/
  | group (owner : Handle) (inner : List Definition)

namespace Definition

/-- The concept that a definition belongs to. -/
def owner : Definition → Handle
  | undefined owner | group owner _ => owner
  | script s => s.owner

/-- The same definition for another concept. What is inside of a group keeps its owner. -/
def withOwner (owner : Handle) : Definition → Definition
  | undefined _ => undefined owner
  | script s => script { s with owner }
  | group _ inner => group owner inner

@[simp] theorem owner_withOwner (d : Definition) (h : Handle) : (d.withOwner h).owner = h := by
  cases d <;> rfl

/-- The definition that a snippet gives to its owner. -/
def ofScript (owner : Handle) (analyzer : Analyzer) (source : String) : Definition :=
  script ⟨owner, analyzer.language, source, analyzer.freeNames source⟩

end Definition

end ConceptForest
