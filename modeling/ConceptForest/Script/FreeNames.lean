import ConceptForest.Script.Outline

/-!
Name resolution: which names of an outline are free.

Every scope has a table of the names it binds and of those it declares to belong elsewhere. A read
looks for its name in its own scope and then outward; the bodies of classes are not visible from
the scopes inside of them. The first scope that says something about the name decides, and if none
does, the module decides.
-/

namespace ConceptForest.Script

/-- What a scope says about names. -/
structure ScopeTable where
  /-- Names bound in the scope. -/
  bound : List String := []
  /-- Names declared to belong to the module. -/
  globals : List String := []
  /-- Names declared to belong to a scope around this one. -/
  nonlocals : List String := []
  /-- Names bound in the module from this scope. -/
  exported : List String := []
  deriving DecidableEq, Repr

namespace ScopeTable

/-- The table after a name has been bound: what was declared before decides where. -/
def bind (table : ScopeTable) (name : String) : ScopeTable :=
  if table.globals.contains name then { table with exported := name :: table.exported }
  else if table.nonlocals.contains name then table
  else { table with bound := name :: table.bound }

/-- The table after one item of a scope. In a comprehension (`outward` is false) names bound outward
pass it by; any other scope takes them, also from the comprehensions in it. In the module
(`declares` is false) declarations mean nothing. -/
def step (declares outward : Bool) (table : ScopeTable) (item : Item) : ScopeTable :=
  match item with
  | .bind name => table.bind name
  | .declareGlobal name =>
    if declares then { table with globals := name :: table.globals } else table
  | .declareNonlocal name =>
    if declares then { table with nonlocals := name :: table.nonlocals } else table
  | item => if outward then item.outwardNames.foldl bind table else table

/-- The table of a scope with the given items. -/
def ofScope (kind : ScopeKind) (items : List Item) : ScopeTable :=
  items.foldl (step true (kind != .comprehension)) {}

/-- The table of the module itself. -/
def ofModule (items : List Item) : ScopeTable :=
  items.foldl (step false true) {}

end ScopeTable

mutual

/-- The names that the scopes in an item bind in the module. -/
def Item.exportedNames : Item → List String
  | .scope kind items => (ScopeTable.ofScope kind items).exported ++ exportedNamesAll items
  | _ => []

/-- The names that the scopes in the items bind in the module. -/
def exportedNamesAll : List Item → List String
  | [] => []
  | item :: items => item.exportedNames ++ exportedNamesAll items

end

/-- The names bound in the module, by itself or from a scope in it. -/
def moduleNames (items : List Item) : List String :=
  (ScopeTable.ofModule items).bound ++ exportedNamesAll items

/-- A scope around a read: its kind and its table. -/
structure Frame where
  kind : ScopeKind
  table : ScopeTable
  deriving DecidableEq, Repr

/-- Where a name belongs. -/
inductive Home where
  | here
  | module
  deriving DecidableEq, Repr

/-- What a scope says about a name, if it says anything. -/
def Frame.home? (frame : Frame) (name : String) : Option Home :=
  if frame.table.globals.contains name then some .module
  else if frame.table.nonlocals.contains name || frame.table.bound.contains name then some .here
  else none

/-- The scopes that a read inside of `frames`, the innermost first, can see. -/
def visibleFrames : List Frame → List Frame
  | [] => []
  | own :: outer => own :: outer.filter (·.kind != .classBody)

/-- Is a read of `name` inside of `frames` free, when the module binds `inModule`? -/
def isFree (inModule : List String) (frames : List Frame) (name : String) : Bool :=
  match (visibleFrames frames).findSome? (Frame.home? · name) with
  | some .here => false
  | some .module | none => !inModule.contains name

mutual

/-- The free reads of an item inside of `frames`, in source order. -/
def Item.freeReads (inModule : List String) (frames : List Frame) : Item → List String
  | .read name => if isFree inModule frames name then [name] else []
  | .scope kind items =>
    freeReadsAll inModule (⟨kind, .ofScope kind items⟩ :: frames) items
  | _ => []

/-- The free reads of items inside of `frames`, in source order. -/
def freeReadsAll (inModule : List String) (frames : List Frame) : List Item → List String
  | [] => []
  | item :: items => item.freeReads inModule frames ++ freeReadsAll inModule frames items

end

/-- The free names of a module, each once, in the order of their first free read. -/
def freeNames (items : List Item) : List String :=
  (freeReadsAll (moduleNames items) [] items).eraseDups

end ConceptForest.Script
