import ConceptForest.Toml.Statement

/-!
Putting the statements of a TOML file together.

A table can be opened once by its name. Before that it may have come about on the way to one further
inside, and tables that come about by keys with points can only be filled by such keys.
-/

namespace ConceptForest.Toml

/-- How a table came about. -/
inductive Origin where
  /-- It has been opened. -/
  | opened
  /-- A table further inside has been opened. -/
  | onTheWay
  /-- A key with points leads through it. -/
  | byKey
  deriving DecidableEq, Repr

/-- What a key stands for while a table is put together. -/
inductive Slot where
  | value (value : Value)
  | table (origin : Origin) (slots : List (String × Slot))
  /-- The tables of a list, the last one first. -/
  | tables (tables : List (List (String × Slot)))

/-- The keys of a table and what they stand for. -/
abbrev Slots := List (String × Slot)

/-- Puts something in the place of what a key stands for. -/
def Slots.put (key : String) (slot : Slot) : Slots → Slots
  | [] => [(key, slot)]
  | (k, old) :: rest =>
    if k = key then (key, slot) :: rest else (k, old) :: Slots.put key slot rest

/-- Changes the table at the end of a path. `byKey` says whether the path is that of a key. -/
def changeAt (byKey : Bool) (change : Origin → Slots → Option Slots) (origin : Origin)
    (slots : Slots) : List String → Option Slots
  | [] => change origin slots
  | key :: path =>
    match slots.lookup key with
    | none => do
      let origin := if byKey then .byKey else .onTheWay
      return slots.put key (.table origin (← changeAt byKey change origin [] path))
    | some (.value _) => none
    | some (.table o inner) => do
      if byKey && o = .opened then none
      return slots.put key (.table o (← changeAt byKey change o inner path))
    | some (.tables []) => none
    | some (.tables (last :: before)) => do
      return slots.put key (.tables ((← changeAt byKey change .opened last path) :: before))

/-- Gives a value to a key that has none, at the end of a path that leads to it from the open
table. -/
def assign (path : List String) (value : Value) (slots : Slots) : Option Slots := do
  let key ← path.getLast?
  let through := path.dropLast
  changeAt true (fun origin slots =>
    if !through.isEmpty && origin != .byKey then none
    else
      match slots.lookup key with
      | none => some (slots.put key (.value value))
      | some _ => none) .opened slots through

/-- Opens a table. -/
def openTable (path : List String) (slots : Slots) : Option Slots := do
  let key ← path.getLast?
  changeAt false (fun _ slots =>
    match slots.lookup key with
    | none => some (slots.put key (.table .opened []))
    | some (.table .onTheWay inner) => some (slots.put key (.table .opened inner))
    | some _ => none) .opened slots path.dropLast

/-- Adds a table to a list of tables. -/
def openItem (path : List String) (slots : Slots) : Option Slots := do
  let key ← path.getLast?
  changeAt false (fun _ slots =>
    match slots.lookup key with
    | none => some (slots.put key (.tables [[]]))
    | some (.tables tables) => some (slots.put key (.tables ([] :: tables)))
    | some _ => none) .opened slots path.dropLast

/-- Takes statements one by one; `here` is the path of the open table. -/
def takeStatements (here : List String) (slots : Slots) : List Statement → Option Slots
  | [] => some slots
  | .assign path value :: rest => do
    let slots ← changeAt false (fun _ => assign path value) .opened slots here
    takeStatements here slots rest
  | .table path :: rest => do takeStatements path (← openTable path slots) rest
  | .listItem path :: rest => do takeStatements path (← openItem path slots) rest

mutual

/-- What a key stands for in the end. -/
def Slot.toValue : Slot → Value
  | .value v => v
  | .table _ slots => .table (entriesOf slots)
  | .tables tables => .list (tablesOf tables).reverse

def entriesOf : List (String × Slot) → List (String × Value)
  | [] => []
  | (key, slot) :: rest => (key, slot.toValue) :: entriesOf rest

def tablesOf : List (List (String × Slot)) → List Value
  | [] => []
  | slots :: rest => .table (entriesOf slots) :: tablesOf rest

end

/-- The table of the given pairs. -/
def tableOf? (pairs : List (List String × Value)) : Option Value := do
  let slots ← pairs.foldlM (fun slots (path, value) => assign path value slots) []
  return .table (entriesOf slots)

/-- The table that statements make up. -/
def assemble? (statements : List Statement) : Option (List (String × Value)) :=
  (takeStatements [] [] statements).map entriesOf

/-- Reads a file. -/
def read? (file : String) : Option (List (String × Value)) := do
  assemble? (← statements? tableOf? file.toList)

end ConceptForest.Toml
