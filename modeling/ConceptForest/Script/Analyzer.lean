import ConceptForest.Script.FreeNames
import ConceptForest.Script.Stmt.Parser

/-!
Analyzers, and the registry that maps the tags of snippets to them.

All that the definition engine needs of a snippet is the names it uses without binding them. An
analyzer finds them for one language, which is the tag it is registered under; a snippet without a
tag goes to the registry's default.
-/

namespace ConceptForest.Script

/-- The names that mean something without any binding. -/
def builtins : List String :=
  ["abs", "all", "any", "ascii", "bin", "bool", "bytearray", "bytes", "callable", "chr",
    "classmethod", "complex", "delattr", "dict", "dir", "divmod", "enumerate", "eval", "exec",
    "filter", "float", "format", "frozenset", "getattr", "globals", "hasattr", "hash", "help",
    "hex", "id", "input", "int", "isinstance", "issubclass", "iter", "len", "list", "locals",
    "map", "max", "min", "next", "object", "oct", "open", "ord", "pow", "print", "property",
    "range", "repr", "reversed", "round", "set", "setattr", "slice", "sorted", "staticmethod",
    "str", "sum", "super", "tuple", "type", "vars", "zip", "__name__", "__file__", "__doc__",
    "Exception", "BaseException", "ValueError", "TypeError", "KeyError", "IndexError",
    "AttributeError", "RuntimeError", "StopIteration", "NotImplementedError", "ZeroDivisionError",
    "NotImplemented", "Ellipsis"]

/-- Analyzes snippets of the scripting language, under some tag. -/
structure Analyzer where
  language : String
  /-- Are the names that mean something without any binding left out? -/
  ignoreBuiltins : Bool
  deriving DecidableEq, Repr

/-- The names that a snippet reads and nothing in it binds, each once, in the order of their first
free read. -/
def Analyzer.freeNames (analyzer : Analyzer) (source : String) :
    Except SyntaxError (List String) := do
  let names := Script.freeNames (outlineAll (← Stmt.parse source))
  return if analyzer.ignoreBuiltins then names.filter (!builtins.contains ·) else names

/-- The tag of the scripting language. -/
def pythonTag : String := "python"

/-- The analyzers at hand, in the order of their registration, and the language of snippets without
a tag. -/
structure Registry where
  analyzers : List Analyzer := []
  default? : Option String := none
  deriving DecidableEq, Repr

namespace Registry

/-- Adds an analyzer in the place of the one for the same language, if there is one. The language of
the first analyzer becomes the default. -/
def register (registry : Registry) (analyzer : Analyzer) : Registry where
  analyzers := registry.analyzers.filter (·.language != analyzer.language) ++ [analyzer]
  default? := registry.default?.or (some analyzer.language)

/-- The languages, in the order of their registration. -/
def languages (registry : Registry) : List String :=
  registry.analyzers.map Analyzer.language

/-- Makes a language the default; nothing if no analyzer handles it. -/
def setDefault? (registry : Registry) (language : String) : Option Registry :=
  if registry.languages.contains language then some { registry with default? := some language }
  else none

/-- The analyzer for a tag. No tag, and the empty one, mean the default. -/
def resolve (registry : Registry) (tag : Option String) : Option Analyzer := do
  let language ← match tag with
    | none | some "" => registry.default?
    | some tag => some tag
  registry.analyzers.find? (·.language == language)

/-- The accepted tags, for a reader. -/
def acceptedTags (registry : Registry) : String :=
  let tags := String.intercalate ", " registry.languages ++
    if registry.default?.isSome then " or untagged" else ""
  if tags.isEmpty then "none" else tags

/-- The registry with the one analyzer under its own tag. -/
def withPython (ignoreBuiltins : Bool) : Registry :=
  ({} : Registry).register ⟨pythonTag, ignoreBuiltins⟩

end Registry

end ConceptForest.Script
