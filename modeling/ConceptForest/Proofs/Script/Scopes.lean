import ConceptForest.Script.FreeNames

/-!
Which names of an outline are free, in terms of its scopes.

The resolution walks the outline once and collects names on its way. Here the same is told scope by
scope: a scope of the outline is a place in the tree of scopes, with the scopes around it and the
items in it (`ScopeWithin`), the module binds a name by itself or from a scope that declares it
global (`BoundInModule`), and a read looks outward through the scopes it can see until it reaches
the module (`ReachesModule`) or is left to a scope further out (`LeftOutward`).

* `mem_moduleNames_iff`, `mem_freeReadsAll_iff` — what the walks collect, in terms of scopes.
* `mem_freeNames_iff` — a name is free if the module does not bind it and some read of it reaches
  the module.
* `reachesModule_iff` — where no scope binds the name, a read reaches the module unless it is left
  outward.
-/

namespace ConceptForest.Script

variable {module items around inner all : List Item} {frames outer start : List Frame}
  {frame : Frame} {kind : ScopeKind} {name : String}

/-! ### Scopes -/

/-- The scope is entered somewhere in `all`, which stands inside of `start`, or it is the one that
`all` stands in. It is given by the scopes around its items, itself the first, and its items. -/
inductive ScopeWithin (start : List Frame) (all : List Item) : List Frame → List Item → Prop where
  | self : ScopeWithin start all start all
  | nested {frames : List Frame} {around inner : List Item} {kind : ScopeKind}
    (outside : ScopeWithin start all frames around) (entered : .scope kind inner ∈ around) :
    ScopeWithin start all (⟨kind, .ofScope kind inner⟩ :: frames) inner

/-- The scopes of a module, the module itself being one inside of none. -/
abbrev ScopeOf (module : List Item) : List Frame → List Item → Prop :=
  ScopeWithin [] module

/-- The name is read in some scope of the module. -/
def ReadIn (module : List Item) (name : String) : Prop :=
  ∃ frames items, ScopeOf module frames items ∧ .read name ∈ items

/-- The module binds the name, by itself or from a scope that declares it global. -/
def BoundInModule (module : List Item) (name : String) : Prop :=
  name ∈ (ScopeTable.ofModule module).bound ∨
    ∃ frame frames items, ScopeOf module (frame :: frames) items ∧ name ∈ frame.table.exported

/-- Some scope binds the name, be it the module or one in it. -/
def BoundSomewhere (module : List Item) (name : String) : Prop :=
  BoundInModule module name ∨
    ∃ frame frames items, ScopeOf module (frame :: frames) items ∧ name ∈ frame.table.bound

/-- Outward through `frames` the module is reached, or a scope that declares the name global, and
no scope before binds the name or declares it nonlocal. -/
inductive ReachesModule (name : String) : List Frame → Prop where
  | module : ReachesModule name []
  | global {frame : Frame} {outer : List Frame} (declared : name ∈ frame.table.globals) :
    ReachesModule name (frame :: outer)
  | outward {frame : Frame} {outer : List Frame} (unbound : name ∉ frame.table.bound)
    (undeclared : name ∉ frame.table.nonlocals) (further : ReachesModule name outer) :
    ReachesModule name (frame :: outer)

/-- Outward through `frames` a scope is reached that declares the name nonlocal, and no scope up to
it declares it global. -/
inductive LeftOutward (name : String) : List Frame → Prop where
  | here {frame : Frame} {outer : List Frame} (undeclared : name ∉ frame.table.globals)
    (declared : name ∈ frame.table.nonlocals) : LeftOutward name (frame :: outer)
  | outward {frame : Frame} {outer : List Frame} (undeclared : name ∉ frame.table.globals)
    (further : LeftOutward name outer) : LeftOutward name (frame :: outer)

/-- What is entered in a scope is entered in what is around it. -/
theorem ScopeWithin.of_entered (entered : .scope kind inner ∈ all)
    (within : ScopeWithin (⟨kind, .ofScope kind inner⟩ :: start) inner frames items) :
    ScopeWithin start all frames items := by
  induction within with
  | self => exact .nested .self entered
  | nested _ entered ih => exact .nested ih entered

/-- A property of scopes that comes outward from the scopes entered in it holds of every scope. -/
theorem scope_induction {motive : List Frame → List Item → Prop}
    (step : ∀ frames items, (∀ kind inner, .scope kind inner ∈ items →
      motive (⟨kind, .ofScope kind inner⟩ :: frames) inner) → motive frames items)
    (frames : List Frame) (items : List Item) : motive frames items := by
  exact step frames items fun kind inner entered => scope_induction step _ inner
termination_by sizeOf items
decreasing_by
  have smaller := List.sizeOf_lt_of_mem entered
  rw [Item.scope.sizeOf_spec] at smaller
  omega

/-- The scopes that are seen from a place are among those around it. -/
theorem mem_of_mem_visibleFrames (mem : frame ∈ visibleFrames frames) : frame ∈ frames := by
  cases frames with
  | nil => exact mem
  | cons own outer =>
    rcases List.mem_cons.mp mem with rfl | mem
    · exact List.mem_cons_self
    · exact List.mem_cons_of_mem _ (List.mem_filter.mp mem).1

/-- All scopes around a place are scopes of the module themselves. -/
theorem ScopeWithin.exists_of_mem (scope : ScopeOf module frames items) (mem : frame ∈ frames) :
    ∃ outer inner, ScopeOf module (frame :: outer) inner := by
  induction scope with
  | self => cases mem
  | nested outside entered ih =>
    rcases List.mem_cons.mp mem with rfl | mem
    · exact ⟨_, _, .nested outside entered⟩
    · exact ih mem

/-- What is found in a scope itself or in one entered there, and so on inward, is found in a scope
within. -/
theorem exists_scope_iff (found : List Frame → List Item → Prop)
    {own : List Frame → List Item → Prop} (start : List Frame) (all : List Item)
    (walk : ∀ frames items, found frames items ↔ own frames items ∨ ∃ kind inner,
      .scope kind inner ∈ items ∧ found (⟨kind, .ofScope kind inner⟩ :: frames) inner) :
    found start all ↔ ∃ frames items, ScopeWithin start all frames items ∧ own frames items := by
  constructor
  · refine scope_induction (motive := fun start all => found start all →
      ∃ frames items, ScopeWithin start all frames items ∧ own frames items) ?_ start all
    intro start all ih here
    rcases (walk start all).mp here with here | ⟨kind, inner, entered, inside⟩
    · exact ⟨start, all, .self, here⟩
    · obtain ⟨frames, items, within, here⟩ := ih kind inner entered inside
      exact ⟨frames, items, within.of_entered entered, here⟩
  · rintro ⟨frames, items, within, here⟩
    have inside : found frames items := (walk frames items).mpr (.inl here)
    clear here
    induction within with
    | self => exact inside
    | nested _ entered ih => exact ih ((walk _ _).mpr (.inr ⟨_, _, entered, inside⟩))

/-! ### The names that scopes bind -/

mutual

/-- The tables of the scopes that are entered in an item. -/
def Item.tables : Item → List ScopeTable
  | .scope kind items => .ofScope kind items :: tablesAll items
  | _ => []

/-- The tables of the scopes that are entered in items. -/
def tablesAll : List Item → List ScopeTable
  | [] => []
  | item :: items => item.tables ++ tablesAll items

end

theorem mem_tablesAll_iff {table : ScopeTable} : table ∈ tablesAll items ↔
    (∃ kind inner, .scope kind inner ∈ items ∧ .ofScope kind inner = table) ∨
      ∃ kind inner, .scope kind inner ∈ items ∧ table ∈ tablesAll inner := by
  induction items with
  | nil => simp [tablesAll]
  | cons item items ih =>
    rw [tablesAll, List.mem_append, ih]
    cases item with
    | scope kind inner =>
      simp only [Item.tables, List.mem_cons, Item.scope.injEq]
      grind
    | _ => simp [Item.tables]

/-- The tables that the walk through a module meets are those of its scopes. -/
theorem mem_tablesAll_module_iff {table : ScopeTable} : table ∈ tablesAll module ↔
    ∃ frame frames items, ScopeOf module (frame :: frames) items ∧ frame.table = table := by
  rw [exists_scope_iff (fun _ items => table ∈ tablesAll items) [] module
    fun _ _ => mem_tablesAll_iff]
  constructor
  · rintro ⟨frames, items, scope, kind, inner, entered, rfl⟩
    exact ⟨_, frames, inner, .nested scope entered, rfl⟩
  · rintro ⟨frame, frames, inner, scope, rfl⟩
    cases scope with
    | nested outside entered => exact ⟨frames, _, outside, _, _, entered, rfl⟩

mutual

theorem Item.exportedNames_eq : (item : Item) →
    item.exportedNames = item.tables.flatMap ScopeTable.exported
  | .scope kind items => by
    rw [Item.exportedNames, Item.tables, List.flatMap_cons, exportedNamesAll_eq items]
  | .read _ | .bind _ | .bindOutward _ | .declareGlobal _ | .declareNonlocal _ => rfl

theorem exportedNamesAll_eq : (items : List Item) →
    exportedNamesAll items = (tablesAll items).flatMap ScopeTable.exported
  | [] => rfl
  | item :: items => by
    rw [exportedNamesAll, tablesAll, List.flatMap_append, Item.exportedNames_eq item,
      exportedNamesAll_eq items]

end

/-- The names of a module are those that it binds by itself and those that its scopes bind there. -/
theorem mem_moduleNames_iff : name ∈ moduleNames module ↔ BoundInModule module name := by
  rw [moduleNames, List.mem_append, exportedNamesAll_eq, List.mem_flatMap, BoundInModule]
  simp only [mem_tablesAll_module_iff]
  grind

/-- Whether some scope binds a name can be told from the tables. -/
theorem boundSomewhere_iff : BoundSomewhere module name ↔
    name ∈ moduleNames module ∨ ∃ table ∈ tablesAll module, name ∈ table.bound := by
  rw [BoundSomewhere, ← mem_moduleNames_iff]
  simp only [mem_tablesAll_module_iff]
  grind

instance : Decidable (BoundSomewhere module name) :=
  decidable_of_iff _ boundSomewhere_iff.symm

/-! ### Looking outward -/

theorem home?_eq_here_iff : frame.home? name = some .here ↔
    name ∉ frame.table.globals ∧ (name ∈ frame.table.nonlocals ∨ name ∈ frame.table.bound) := by
  grind [Frame.home?]

theorem home?_eq_module_iff : frame.home? name = some .module ↔ name ∈ frame.table.globals := by
  simp [Frame.home?]

theorem home?_eq_none_iff : frame.home? name = none ↔ name ∉ frame.table.globals ∧
    name ∉ frame.table.nonlocals ∧ name ∉ frame.table.bound := by
  grind [Frame.home?]

/-- The first scope that says something about the name decides where it belongs. -/
theorem findSome?_home?_ne_here_iff :
    frames.findSome? (Frame.home? · name) ≠ some .here ↔ ReachesModule name frames := by
  induction frames with
  | nil => exact ⟨fun _ => .module, fun _ => nofun⟩
  | cons frame outer ih =>
    rw [List.findSome?_cons]
    cases home : frame.home? name with
    | none =>
      obtain ⟨notGlobal, undeclared, unbound⟩ := home?_eq_none_iff.mp home
      refine ih.trans ⟨.outward unbound undeclared, ?_⟩
      rintro (_ | declared | ⟨_, _, further⟩)
      · exact absurd declared notGlobal
      · exact further
    | some place =>
      cases place with
      | module => exact ⟨fun _ => .global (home?_eq_module_iff.mp home), fun _ => nofun⟩
      | here =>
        obtain ⟨notGlobal, stays⟩ := home?_eq_here_iff.mp home
        refine ⟨fun away => absurd rfl away, ?_⟩
        rintro (_ | declared | ⟨unbound, undeclared, _⟩)
        · exact absurd declared notGlobal
        · exact absurd stays (not_or.mpr ⟨undeclared, unbound⟩)

theorem isFree_iff {inModule : List String} : isFree inModule frames name = true ↔
    name ∉ inModule ∧ ReachesModule name (visibleFrames frames) := by
  rw [← findSome?_home?_ne_here_iff, isFree]
  split
  · next here => simp [here]
  · next away => simp [away]
  · next away => simp [away]

theorem mem_freeReadsAll_iff {inModule : List String} :
    name ∈ freeReadsAll inModule frames items ↔
      (.read name ∈ items ∧ isFree inModule frames name = true) ∨
        ∃ kind inner, .scope kind inner ∈ items ∧
          name ∈ freeReadsAll inModule (⟨kind, .ofScope kind inner⟩ :: frames) inner := by
  induction items with
  | nil => simp [freeReadsAll]
  | cons item items ih =>
    rw [freeReadsAll, List.mem_append, ih]
    cases item with
    | read text =>
      simp only [Item.freeReads, List.mem_cons, Item.read.injEq, reduceCtorEq, false_or]
      grind
    | scope kind inner =>
      simp only [Item.freeReads, List.mem_cons, Item.scope.injEq, reduceCtorEq, false_or]
      grind
    | _ => simp [Item.freeReads]

/-- A name is free if the module does not bind it, and some read of it reaches the module. -/
theorem mem_freeNames_iff : name ∈ freeNames module ↔
    ¬ BoundInModule module name ∧ ∃ frames items, ScopeOf module frames items ∧
      .read name ∈ items ∧ ReachesModule name (visibleFrames frames) := by
  have reads := exists_scope_iff
    (fun frames items => name ∈ freeReadsAll (moduleNames module) frames items) [] module
    fun _ _ => mem_freeReadsAll_iff
  rw [freeNames, List.mem_eraseDups, reads, ← mem_moduleNames_iff]
  simp only [isFree_iff]
  constructor
  · rintro ⟨frames, items, scope, read, unbound, reaches⟩
    exact ⟨unbound, frames, items, scope, read, reaches⟩
  · rintro ⟨unbound, frames, items, scope, read, reaches⟩
    exact ⟨frames, items, scope, read, unbound, reaches⟩

/-- Where no scope binds the name, a read of it reaches the module unless it is left outward. -/
theorem reachesModule_iff (unbound : ∀ frame ∈ frames, name ∉ frame.table.bound) :
    ReachesModule name frames ↔ ¬ LeftOutward name frames := by
  induction frames with
  | nil => exact ⟨fun _ => nofun, fun _ => .module⟩
  | cons frame outer ih =>
    obtain ⟨here, further⟩ := List.forall_mem_cons.mp unbound
    by_cases isGlobal : name ∈ frame.table.globals
    · refine ⟨fun _ => ?_, fun _ => .global isGlobal⟩
      rintro (⟨undeclared, _⟩ | ⟨undeclared, _⟩)
      · exact undeclared isGlobal
      · exact undeclared isGlobal
    · by_cases isNonlocal : name ∈ frame.table.nonlocals
      · refine ⟨?_, fun stays => absurd (.here isGlobal isNonlocal) stays⟩
        rintro (_ | declared | ⟨_, undeclared, _⟩)
        · exact absurd declared isGlobal
        · exact absurd isNonlocal undeclared
      · constructor
        · rintro (_ | declared | ⟨_, _, reaches⟩) left
          · exact isGlobal declared
          · rcases left with ⟨_, declared⟩ | ⟨_, left⟩
            · exact isNonlocal declared
            · exact (ih further).mp reaches left
        · intro stays
          refine .outward here isNonlocal ((ih further).mpr fun left => ?_)
          exact stays (.outward isGlobal left)

end ConceptForest.Script
