/-!
Tables whose keys are names, kept in rising order of the names.

What can be seen of a table is the value of each name; the order only decides how tables are shown.
-/

namespace ConceptForest

/-- Names and their values, in rising order of the names, each name once. -/
abbrev NameTable (α : Type) := List (String × α)

namespace NameTable

variable {α : Type}

/-- Puts a name and its value in their place, in the place of the old value if there is one. -/
def insert (name : String) (value : α) : NameTable α → NameTable α
  | [] => [(name, value)]
  | (n, v) :: rest =>
    if name = n then (name, value) :: rest
    else if name < n then (name, value) :: (n, v) :: rest
    else (n, v) :: insert name value rest

/-- Takes a name out. -/
def erase (name : String) (table : NameTable α) : NameTable α :=
  table.filter (·.1 != name)

/-- The table of the given names and values; of two values for one name the later counts. -/
def ofList (entries : List (String × α)) : NameTable α :=
  entries.foldl (fun table (name, value) => insert name value table) []

/-- The names, in rising order. -/
def names (table : NameTable α) : List String :=
  table.map Prod.fst

theorem lookup_insert_self (name : String) (value : α) (table : NameTable α) :
    (insert name value table).lookup name = some value := by
  induction table with
  | nil => simp [insert]
  | cons entry rest ih =>
    obtain ⟨n, v⟩ := entry
    simp only [insert]
    split
    · simp
    · next hne =>
      split
      · simp
      · simp [List.lookup_cons, beq_false_of_ne hne, ih]

theorem lookup_insert_of_ne {name other : String} (h : other ≠ name) (value : α)
    (table : NameTable α) :
    (insert name value table).lookup other = table.lookup other := by
  induction table with
  | nil => simp [insert, h]
  | cons entry rest ih =>
    obtain ⟨n, v⟩ := entry
    simp only [insert]
    split
    · next heq => subst heq; simp [List.lookup_cons, beq_false_of_ne h]
    · split
      · simp [List.lookup_cons, beq_false_of_ne h]
      · simp only [List.lookup_cons]
        split
        · rfl
        · exact ih

end NameTable

end ConceptForest
