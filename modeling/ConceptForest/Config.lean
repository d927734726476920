import ConceptForest.Session.Basic
import ConceptForest.Toml.Table

/-!
Configuration of the front end.

A configuration file may leave out whatever it does not change, and may hold more than is asked for.
-/

namespace ConceptForest

/-- What the front end can be told beforehand. -/
structure Config where
  /-- The tag of snippets in the default language; none stands for the language itself. -/
  contextTag : String := Script.pythonTag
  ignoreBuiltins : Bool := false
  settings : Settings := {}
  /-- What is shown before each line of input. -/
  invitation : String := "> "
  deriving DecidableEq, Repr

/-- Why a configuration is of no use. -/
inductive ConfigError where
  /-- The file is not in its format, or something in it is not of its type. -/
  | malformed
  | unsupportedTag (tag accepted : String)
  deriving DecidableEq, Repr

/-- The text of an error. -/
def ConfigError.message : ConfigError → String
  | malformed => "Configuration error: malformed file"
  | unsupportedTag tag accepted =>
    s!"Configuration error: unsupported scripting context tag '{tag}' (accepted: {accepted})"

namespace Config

/-! ### From a file -/

/-- What a table says about its field of the given name. A list stands for a table with its fields
in the order of their places, and a moment for one without any. -/
def field? (v : Toml.Value) (place : Nat) (name : String) : Except ConfigError (Option Toml.Value) :=
  match v with
  | .table entries => .ok (entries.lookup name)
  | .list items => .ok items[place]?
  | .moment => .ok none
  | _ => .error .malformed

/-- A field of one of the tables of a file, by the given reader; the default if it is left out. -/
def setting {α : Type} (file : List (String × Toml.Value)) (table : String) (place : Nat)
    (name : String) (read : Toml.Value → Option α) (default : α) : Except ConfigError α := do
  match file.lookup table with
  | none => return default
  | some v =>
    match ← field? v place name with
    | none => return default
    | some w =>
      match read w with
      | some a => return a
      | none => throw .malformed

/-- A text. -/
def text? : Toml.Value → Option String
  | .text s => some s
  | _ => none

/-- A truth value. -/
def truth? : Toml.Value → Option Bool
  | .truth b => some b
  | _ => none

/-- A number that is not below zero. -/
def count? : Toml.Value → Option Nat
  | .integer n => if 0 ≤ n then some n.toNat else none
  | _ => none

/-- The policy of the given name. -/
def policyNamed? (name : String) : Option GroupPolicy :=
  [GroupPolicy.never, .conjunctive].find? (·.name == name)

/-- A policy: its name, or a table with its name as the only key and nothing under it. -/
def policy? : Toml.Value → Option GroupPolicy
  | .text name | .table [(name, .table [])] | .table [(name, .list [])] => policyNamed? name
  | _ => none

/-- The configuration that a file describes. -/
def ofToml (file : List (String × Toml.Value)) : Except ConfigError Config := do
  let contextTag ← setting file "scripting" 0 "context_tag" text? Script.pythonTag
  let ignoreBuiltins ← setting file "scripting" 1 "ignore_builtins" truth? false
  let groupPolicy ← setting file "definitions" 0 "group_policy" policy? .never
  let maxAlternatives ← setting file "matching" 0 "max_flattened_alternatives" count? 256
  let invitation ← setting file "repl" 0 "prompt" text? "> "
  return { contextTag, ignoreBuiltins, settings := { groupPolicy, maxAlternatives }, invitation }

/-! ### What it comes to -/

/-- The analyzers of a session. -/
def registry (config : Config) : Except ConfigError Script.Registry :=
  let registry := Script.Registry.withPython config.ignoreBuiltins
  if config.contextTag.isEmpty then .ok registry
  else
    match registry.setDefault? config.contextTag with
    | some registry => .ok registry
    | none => .error (.unsupportedTag config.contextTag registry.acceptedTags)

/-- The configuration in the text of a file, the default one if there is no file. Its tag must be
one for which there is an analyzer. -/
def load (file? : Option String) : Except ConfigError Config :=
  match file? with
  | none => .ok {}
  | some file =>
    match Toml.read? file with
    | none => .error .malformed
    | some entries => do
      let config ← ofToml entries
      let _ ← config.registry
      return config

end Config

end ConceptForest
