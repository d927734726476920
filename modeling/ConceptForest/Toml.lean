/-!
TOML: what a file of settings can hold.

A file is read in two steps. Its statements are read one by one (`Toml.statements?`), and what they
say is then put together into one table (`Toml.assemble?`), which fails if two of them contradict
each other.
-/

namespace ConceptForest.Toml

/-- A value. Of fractions and moments it is only known that they are such. -/
inductive Value where
  | text (text : String)
  | integer (n : Int)
  | fraction
  | truth (b : Bool)
  /-- A date, a time of day, or both. -/
  | moment
  | list (items : List Value)
  | table (entries : List (String × Value))

/-- A line of a file, or several if its value goes over them. -/
inductive Statement where
  /-- Gives a value to a key of the open table. -/
  | assign (path : List String) (value : Value)
  /-- Opens a table. -/
  | table (path : List String)
  /-- Adds a table to a list of tables and opens it. -/
  | listItem (path : List String)

end ConceptForest.Toml
