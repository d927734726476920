import ConceptForest.Script.Expr
import ConceptForest.Script.FreeNames

/-!
Scopes, as a parser keeps them while it reads.

All scopes that have been entered stand in one table, each with the number of the scope around it.
One of them is the current one: names are read and bound there. What an expression does to names is
done while it is gone through (`Scopes.load` and its kin). If it cannot be used that way after all,
what was done before stays done. When everything has been read, the table tells which of the reads
are free (`Scopes.freeNames`).
-/

namespace ConceptForest.Script

/-- A scope in the table. -/
structure Scope where
  /-- The module has none. -/
  kind : Option ScopeKind
  /-- The number of the scope around it; the module has none. -/
  parent : Option Nat
  bound : List String := []
  /-- Names declared to belong to the module. -/
  globals : List String := []
  /-- Names declared to belong to a scope around this one. -/
  nonlocals : List String := []
  deriving DecidableEq, Repr

/-- What the scope says about a name, if it says anything. -/
def Scope.home? (scope : Scope) (name : String) : Option Home :=
  if scope.globals.contains name then some .module
  else if scope.nonlocals.contains name || scope.bound.contains name then some .here
  else none

/-- The scopes entered so far. -/
structure Scopes where
  /-- The module first, and every scope behind the one around it. -/
  table : List Scope
  /-- The number of the current scope. -/
  current : Nat
  /-- Every name read, behind the number of the scope it was read in, in source order. -/
  reads : List (Nat × String)
  deriving DecidableEq, Repr

namespace Scopes

/-- The number of the module. -/
def module : Nat := 0

/-- The module alone. -/
def new : Scopes where
  table := [{ kind := none, parent := none }]
  current := module
  reads := []

/-! ### What can happen in the current scope -/

/-- Enters a new scope inside of the current one. -/
def push (kind : ScopeKind) (scopes : Scopes) : Scopes :=
  { scopes with
    table := scopes.table ++ [{ kind := some kind, parent := some scopes.current }]
    current := scopes.table.length }

/-- Leaves the current scope for the one around it. -/
def pop (scopes : Scopes) : Scopes :=
  { scopes with current := (scopes.table[scopes.current]?.bind Scope.parent).getD module }

/-- Reads a name. -/
def reference (name : String) (scopes : Scopes) : Scopes :=
  { scopes with reads := scopes.reads ++ [(scopes.current, name)] }

/-- Binds a name in the scope with the number: what was declared there before decides where. -/
def bindIn (number : Nat) (name : String) (scopes : Scopes) : Scopes :=
  let bound (number : Nat) : Scopes :=
    { scopes with table := scopes.table.modify number fun s => { s with bound := name :: s.bound } }
  match scopes.table[number]? with
  | none => scopes
  | some scope =>
    if scope.globals.contains name then bound module
    else if scope.nonlocals.contains name then scopes
    else bound number

/-- Binds a name in the current scope. -/
def bind (name : String) (scopes : Scopes) : Scopes :=
  scopes.bindIn scopes.current name

/-- The nearest scope that is no comprehension, from the one with the number outward. -/
def nearest (table : List Scope) (number : Nat) : Nat :=
  match table[number]? with
  | some { kind := some .comprehension, parent, .. } =>
    let outer := parent.getD module
    -- a scope stands behind the one around it
    if outer < number then nearest table outer else outer
  | _ => number
termination_by number

/-- Binds a name in the nearest scope that is no comprehension. -/
def bindOutward (name : String) (scopes : Scopes) : Scopes :=
  scopes.bindIn (nearest scopes.table scopes.current) name

/-- Changes what the current scope declares. In the module declarations mean nothing. -/
def declare (change : Scope → Scope) (scopes : Scopes) : Scopes :=
  if scopes.current = module then scopes
  else { scopes with table := scopes.table.modify scopes.current change }

/-- Declares that a name belongs to the module. -/
def declareGlobal (name : String) : Scopes → Scopes :=
  declare fun s => { s with globals := name :: s.globals }

/-- Declares that a name belongs to a scope around the current one. -/
def declareNonlocal (name : String) : Scopes → Scopes :=
  declare fun s => { s with nonlocals := name :: s.nonlocals }

/-! ### Going through expressions -/

/-- Does to names what an expression does to them, as far as it may be used so. -/
abbrev Walk := EStateM Fault Scopes Unit

mutual

/-- Reads an expression. -/
def load : Expr → Walk
  | .name text => modify (reference text)
  | .operation items | .tuple items | .list items => loadAll items
  | .starred inner | .member inner => load inner
  | .subscript object index => do
    load object
    loadAll index
  | .lambda parameters defaults body => do
    loadAll defaults
    modify (push .function)
    parameters.forM fun name => modify (bind name)
    load body
    modify pop
  | .comprehension elements (.clause target source conditions) others => do
    load source
    modify (push .comprehension)
    store target
    loadAll conditions
    passAll others
    loadAll elements
    modify pop
  | .named name value => do
    load value
    modify (bindOutward name)

/-- Reads expressions one after the other. -/
def loadAll : List Expr → Walk
  | [] => pure ()
  | e :: es => do
    load e
    loadAll es

/-- Assigns to an expression. -/
def store : Expr → Walk
  | .name text => modify (bind text)
  | .tuple items | .list items => storeAll items
  | .starred inner => store inner
  | .member inner => load inner
  | .subscript object index => do
    load object
    loadAll index
  | .operation _ | .lambda _ _ _ | .comprehension _ _ _ | .named _ _ => throw .notAssignable

/-- Assigns to expressions one after the other. -/
def storeAll : List Expr → Walk
  | [] => pure ()
  | e :: es => do
    store e
    storeAll es

/-- Goes through the clauses of a comprehension behind the first. -/
def passAll : List Generator → Walk
  | [] => pure ()
  | .clause target source conditions :: gs => do
    load source
    store target
    loadAll conditions
    passAll gs

end

/-- Assigns to an expression and the result of an operator. -/
def augment : Expr → Walk
  | .name text => do
    modify (reference text)
    modify (bind text)
  | e@(.member _) | e@(.subscript _ _) => store e
  | _ => throw .notAugmentable

mutual

/-- Deletes an expression. -/
def delete : Expr → Walk
  | .tuple items | .list items => deleteAll items
  | .name text => store (.name text)
  | .member inner => store (.member inner)
  | .subscript object index => store (.subscript object index)
  | .operation _ | .starred _ | .lambda _ _ _ | .comprehension _ _ _ | .named _ _ =>
    throw .notDeletable

/-- Deletes expressions one after the other. -/
def deleteAll : List Expr → Walk
  | [] => pure ()
  | e :: es => do
    delete e
    deleteAll es

end

/-! ### Looking back -/

/-- Outward from the inside of the scope with the number, what is said about the name first? The
module is not asked, and what stands in the body of a class is not seen from the inside. -/
def homeAround? (table : List Scope) (name : String) (number : Nat) : Option Home :=
  match table[number]? with
  | none => none
  | some scope =>
    match scope.kind, scope.parent with
    | some kind, some outer =>
      -- a scope stands behind the one around it
      let further := if outer < number then homeAround? table name outer else none
      if kind = .classBody then further else (scope.home? name).or further
    | _, _ => none
termination_by number

/-- Is the name bound in the module? -/
def inModule (scopes : Scopes) (name : String) : Bool :=
  scopes.table[module]?.any (·.bound.contains name)

/-- Is a read of the name in the scope with the number free? -/
def isFree (scopes : Scopes) (number : Nat) (name : String) : Bool :=
  let home? := match scopes.table[number]? with
    | some scope =>
      if scope.kind.isNone then none
      else (scope.home? name).or (scope.parent.bind (homeAround? scopes.table name))
    | none => none
  match home? with
  | some .here => false
  | some .module | none => !scopes.inModule name

/-- The names that are read and nothing binds, each once, in the order of their first free read. -/
def freeNames (scopes : Scopes) : List String :=
  ((scopes.reads.filter fun read => scopes.isFree read.1 read.2).map Prod.snd).eraseDups

end Scopes

end ConceptForest.Script
