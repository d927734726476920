import ConceptForest.Proofs.Script.Parser.Walks
import ConceptForest.Script.FreeNames

/-!
The table that is left when an outline has been performed.

There is an entry for every scope of the outline, in the order in which they are entered, and it has
the names that name resolution finds in the scope (`performAll_new_shows`). While a scope is current
its entry grows with each event; the names that a comprehension binds outward go to the nearest scope
around it that is none (`changed`). Entries of scopes that have been left never change again
(`entered`). Only the module's entry has more than resolution finds there: the names that scopes
further inside bind in the module.
-/

namespace ConceptForest.Script

namespace Scopes

variable {scopes : Scopes} {table : List Scope} {c n number : Nat} {name : String} {item : Item}
  {items : List Item} {kind : ScopeKind}

/-- An entry of the table as resolution has it. -/
structure Mark where
  /-- The module has none. -/
  kind : Option ScopeKind
  parent : Option Nat
  names : ScopeTable

namespace Mark

/-- Without the names bound in the module from here. -/
def scope (m : Mark) : Scope where
  kind := m.kind
  parent := m.parent
  bound := m.names.bound
  globals := m.names.globals
  nonlocals := m.names.nonlocals

/-- The mark with other names. -/
def change (f : ScopeTable → ScopeTable) (m : Mark) : Mark :=
  { m with names := f m.names }

end Mark

variable {marks : List Mark}

/-- The name is bound in the module from a marked scope. -/
def Exported (marks : List Mark) (name : String) : Prop :=
  ∃ m ∈ marks, name ∈ m.names.exported

/-- The table has the scopes that are marked, and the module has the names bound there from
elsewhere, too. -/
structure Shows (table : List Scope) (marks : List Mark) : Prop where
  length : table.length = marks.length
  inside : ∀ i, i ≠ module → table[i]? = marks[i]?.map Mark.scope
  outermost : ∃ bound names, table[module]? = some { kind := none, parent := none, bound } ∧
    marks[module]? = some ⟨none, none, names⟩ ∧ names.globals = [] ∧ names.nonlocals = [] ∧
      names.exported = [] ∧ ∀ name, name ∈ bound ↔ name ∈ names.bound ∨ Exported marks name

/-! ### One event -/

theorem modify_congr {f g : ScopeTable → ScopeTable}
    (same : ∀ m ∈ marks[number]?, f m.names = g m.names) :
    marks.modify number (Mark.change f) = marks.modify number (Mark.change g) := by
  refine List.ext_getElem? fun i => ?_
  rw [List.getElem?_modify, List.getElem?_modify]
  by_cases here : number = i
  · subst here
    cases there : marks[number]? with
    | none => rfl
    | some m => simp [Mark.change, same m there]
  · simp [here]

theorem exported_iff_getElem? : Exported marks name ↔
    ∃ (i : Nat) (m : Mark), marks[i]? = some m ∧ name ∈ m.names.exported := by
  simp only [Exported, List.mem_iff_getElem?]
  grind

theorem exported_change {f : ScopeTable → ScopeTable} (keeps : ∀ t, (f t).exported = t.exported) :
    Exported (marks.modify number (Mark.change f)) name ↔ Exported marks name := by
  simp only [exported_iff_getElem?, List.getElem?_modify]
  refine exists_congr fun i => ?_
  cases marks[i]? with
  | none => simp
  | some m => by_cases here : number = i <;> simp [here, Mark.change, keeps]

theorem exported_cons {other : String} (within : number < marks.length) :
    Exported (marks.modify number (Mark.change fun t => { t with exported := other :: t.exported }))
      name ↔ name = other ∨ Exported marks name := by
  have there : marks[number]? = some marks[number] := List.getElem?_eq_getElem within
  simp only [exported_iff_getElem?, List.getElem?_modify]
  constructor
  · rintro ⟨i, m, found, mem⟩
    by_cases here : number = i
    · subst here
      simp only [there, Option.map_eq_map, Option.map_some, if_true, Option.some.injEq] at found
      subst found
      exact (List.mem_cons.mp mem).imp id fun mem => ⟨number, _, there, mem⟩
    · simp only [here, if_false] at found
      exact .inr ⟨i, m, by simpa using found, mem⟩
  · rintro (rfl | ⟨i, m, found, mem⟩)
    · exact ⟨number, _, by simp [there]; rfl, List.mem_cons_self⟩
    · by_cases here : number = i
      · exact ⟨i, _, by simp [here, found]; rfl, List.mem_cons_of_mem _ mem⟩
      · exact ⟨i, m, by simp [here, found], mem⟩

namespace Shows

/-- A change of names in a scope inside of the module. -/
theorem change {f : ScopeTable → ScopeTable} {g : Scope → Scope} (shows : Shows table marks)
    (inside : number ≠ module) (same : ∀ m : Mark, g m.scope = (m.change f).scope)
    (keeps : ∀ t, (f t).exported = t.exported) :
    Shows (table.modify number g) (marks.modify number (Mark.change f)) := by
  obtain ⟨bound, names, there, marked, noGlobals, noNonlocals, noExports, all⟩ := shows.outermost
  refine ⟨by simp [shows.length], fun i elsewhere => ?_, bound, names, ?_, ?_, noGlobals, noNonlocals,
    noExports, fun name => by rw [exported_change keeps, all]⟩
  · rw [List.getElem?_modify, List.getElem?_modify, shows.inside i elsewhere]
    cases marks[i]? with
    | none => rfl
    | some m =>
      by_cases here : number = i
      · simpa [here] using same m
      · simp [here]
  · simp [inside, there]
  · simp [inside, marked]

/-- A name that the module binds by itself. -/
theorem bindOutermost (shows : Shows table marks) :
    Shows (table.modify module fun s => { s with bound := name :: s.bound })
      (marks.modify module (Mark.change (·.bind name))) := by
  obtain ⟨bound, names, there, marked, noGlobals, noNonlocals, noExports, all⟩ := shows.outermost
  have kept : names.bind name = { names with bound := name :: names.bound } := by
    simp [ScopeTable.bind, noGlobals, noNonlocals]
  have exported : ∀ other, Exported (marks.modify module (Mark.change (·.bind name))) other ↔
      Exported marks other := by
    intro other
    rw [modify_congr (g := fun t => { t with bound := name :: t.bound }) fun m here => ?_]
    · exact exported_change fun _ => rfl
    · obtain rfl := Option.some.inj (marked.symm.trans here)
      exact kept
  refine ⟨by simp [shows.length], fun i elsewhere => ?_, name :: bound, names.bind name, ?_, ?_, ?_⟩
  · simp [elsewhere.symm, shows.inside i elsewhere]
  · simp [there]
  · simp [marked, Mark.change]
  · rw [kept]
    refine ⟨noGlobals, noNonlocals, noExports, fun other => ?_⟩
    rw [exported, List.mem_cons, List.mem_cons, all, or_assoc]

/-- A name that a scope inside of the module binds there. -/
theorem exporting (shows : Shows table marks) (inside : number ≠ module)
    (within : number < marks.length) :
    Shows (table.modify module fun s => { s with bound := name :: s.bound })
      (marks.modify number (Mark.change fun t => { t with exported := name :: t.exported })) := by
  obtain ⟨bound, names, there, marked, noGlobals, noNonlocals, noExports, all⟩ := shows.outermost
  refine ⟨by simp [shows.length], fun i elsewhere => ?_, name :: bound, names, ?_, ?_, noGlobals,
    noNonlocals, noExports, fun other => ?_⟩
  · rw [List.getElem?_modify, List.getElem?_modify, shows.inside i elsewhere]
    cases marks[i]? with
    | none => rfl
    | some m => by_cases here : number = i <;> simp [here, elsewhere.symm, Mark.scope, Mark.change]
  · simp [there]
  · simp [inside, marked]
  · rw [List.mem_cons, all, exported_cons within]
    exact or_left_comm

theorem bindIn (shows : Shows scopes.table marks) (within : number < marks.length) :
    Shows (scopes.bindIn number name).table (marks.modify number (Mark.change (·.bind name))) := by
  by_cases inside : number = module
  · subst inside
    obtain ⟨bound, names, there, -⟩ := shows.outermost
    simpa [Scopes.bindIn, there] using shows.bindOutermost
  have marked : marks[number]? = some marks[number] := List.getElem?_eq_getElem within
  have there := shows.inside number inside
  rw [marked, Option.map_some] at there
  have agree : ∀ f : ScopeTable → ScopeTable, marks[number].names.bind name = f marks[number].names →
      marks.modify number (Mark.change (·.bind name)) = marks.modify number (Mark.change f) := by
    intro f same
    refine modify_congr fun m here => ?_
    obtain rfl := Option.some.inj (marked.symm.trans here)
    exact same
  simp only [Scopes.bindIn, there, Mark.scope]
  split
  · next isGlobal =>
    rw [agree (fun t => { t with exported := name :: t.exported }) (if_pos isGlobal)]
    exact shows.exporting inside within
  · next notGlobal =>
    split
    · next isNonlocal =>
      rw [agree id ((if_neg notGlobal).trans (if_pos isNonlocal))]
      exact (List.modify_id number marks).symm ▸ shows
    · next notNonlocal =>
      rw [agree (fun t => { t with bound := name :: t.bound })
        ((if_neg notGlobal).trans (if_neg notNonlocal))]
      exact shows.change inside (fun _ => rfl) fun _ => rfl

/-- What the current scope declares. In the module it means nothing. -/
theorem declare {f : Bool → ScopeTable → ScopeTable} {g : Scope → Scope}
    (shows : Shows scopes.table marks) (nothing : ∀ t, f false t = t)
    (same : ∀ m : Mark, g m.scope = (m.change (f true)).scope)
    (keeps : ∀ t, (f true t).exported = t.exported) :
    Shows (scopes.declare g).table
      (marks.modify scopes.current (Mark.change (f (scopes.current != module)))) := by
  unfold Scopes.declare
  by_cases outermost : scopes.current = module
  · have same : marks.modify scopes.current (Mark.change (f (scopes.current != module))) = marks := by
      rw [bne_eq_false_iff_eq.mpr outermost]
      exact (modify_congr (g := id) fun m _ => nothing m.names).trans (List.modify_id _ marks)
    rw [if_pos outermost, same]
    exact shows
  · rw [if_neg outermost, bne_iff_ne.mpr outermost]
    exact shows.change outermost same keeps

theorem push (shows : Shows scopes.table marks) (kind : ScopeKind) :
    Shows (scopes.push kind).table (marks ++ [⟨some kind, some scopes.current, {}⟩]) := by
  obtain ⟨bound, names, there, marked, noGlobals, noNonlocals, noExports, all⟩ := shows.outermost
  have within : module < marks.length := (List.getElem?_eq_some_iff.mp marked).1
  refine ⟨by simp [Scopes.push, shows.length], fun i elsewhere => ?_, bound, names, ?_, ?_,
    noGlobals, noNonlocals, noExports, fun name => ?_⟩
  · rw [Scopes.push]
    by_cases old : i < marks.length
    · rw [List.getElem?_append_left old, List.getElem?_append_left (shows.length ▸ old),
        shows.inside i elsewhere]
    · have new := Nat.not_lt.mp old
      rw [List.getElem?_append_right (shows.length ▸ new), List.getElem?_append_right new, shows.length]
      cases i - marks.length <;> rfl
  · rw [Scopes.push, List.getElem?_append_left (shows.length ▸ within), there]
  · rw [List.getElem?_append_left within, marked]
  · simp [all, Exported]

end Shows

/-! ### Many events -/

/-- The marks after one event in the scope `c`, where `n` is the nearest scope that is no
comprehension. -/
def changed (c n : Nat) (marks : List Mark) (item : Item) : List Mark :=
  (marks.modify c (Mark.change (ScopeTable.step (c != module) false · item))).modify n
    (Mark.change fun t => item.outwardNames.foldl ScopeTable.bind t)

mutual

/-- The marks of the scopes that are entered in an item of the scope `c`, the first of them with the
number `next`. -/
def entered (c next : Nat) : Item → List Mark
  | .scope kind items => ⟨some kind, some c, .ofScope kind items⟩ :: enteredAll next (next + 1) items
  | .read _ | .bind _ | .bindOutward _ | .declareGlobal _ | .declareNonlocal _ => []

/-- The marks of the scopes that are entered in items of the scope `c`. -/
def enteredAll (c next : Nat) : List Item → List Mark
  | [] => []
  | item :: items => entered c next item ++ enteredAll c (next + (entered c next item).length) items

end

theorem modify_append_of_lt {more : List Mark} {f : Mark → Mark} (within : number < marks.length) :
    (marks ++ more).modify number f = marks.modify number f ++ more := by
  have within' : number < (marks ++ more).length := by
    rw [List.length_append]
    omega
  rw [List.modify_eq_take_cons_drop within', List.modify_eq_take_cons_drop within,
    List.take_append_of_le_length (Nat.le_of_lt within), List.drop_append_of_le_length within,
    List.getElem_append_left within, List.append_assoc, List.cons_append]

theorem modify_append_length {m : Mark} {f : Mark → Mark} :
    (marks ++ [m]).modify marks.length f = marks ++ [f m] := by
  rw [List.modify_eq_take_cons_drop (by simp)]
  simp

/-- An event that binds nothing outward. -/
theorem changed_of_none (none : item.outwardNames = []) : changed c n marks item =
    marks.modify c (Mark.change (ScopeTable.step (c != module) false · item)) := by
  rw [changed, none]
  exact List.modify_id n _

theorem length_changed : (changed c n marks item).length = marks.length := by
  simp [changed]

theorem foldl_changed_append {more : List Mark} (here : c < marks.length) (near : n < marks.length) :
    items.foldl (changed c n) (marks ++ more) = items.foldl (changed c n) marks ++ more := by
  induction items generalizing marks with
  | nil => rfl
  | cons item items ih =>
    have first : changed c n (marks ++ more) item = changed c n marks item ++ more := by
      rw [changed, modify_append_of_lt here, modify_append_of_lt (by simpa using near), changed]
    rw [List.foldl_cons, first, ih (by rwa [length_changed]) (by rwa [length_changed]), List.foldl_cons]

/-- In a scope that takes outward names itself. -/
theorem foldl_changed_self : items.foldl (changed c c) marks =
    marks.modify c (Mark.change fun t => items.foldl (ScopeTable.step (c != module) true) t) := by
  induction items generalizing marks with
  | nil => exact (List.modify_id c marks).symm
  | cons item items ih =>
    have takes : ∀ t, item.outwardNames.foldl ScopeTable.bind
        (ScopeTable.step (c != module) false t item) = ScopeTable.step (c != module) true t item := by
      intro t
      cases item <;> rfl
    rw [List.foldl_cons, ih, changed, List.modify_modify_eq, List.modify_modify_eq]
    refine congrArg (marks.modify c) (funext fun m => ?_)
    simp only [Function.comp, Mark.change, takes, List.foldl_cons]

/-- In a comprehension, which leaves outward names to the scope `n`. -/
theorem foldl_changed_apart (apart : c ≠ n) : items.foldl (changed c n) marks =
    (marks.modify c (Mark.change fun t => items.foldl (ScopeTable.step (c != module) false) t)).modify n
      (Mark.change fun t => (outwardNamesAll items).foldl ScopeTable.bind t) := by
  induction items generalizing marks with
  | nil => exact (List.modify_id n _).symm.trans (congrArg (List.modify · n id) (List.modify_id c _).symm)
  | cons item items ih =>
    rw [List.foldl_cons, ih, changed, List.modify_modify_ne _ _ _ apart.symm, List.modify_modify_eq,
      List.modify_modify_eq]
    simp only [outwardNamesAll, List.foldl_append, List.foldl_cons]
    rfl

/-! ### The nearest scope -/

theorem nearest_congr {table' : List Scope} (same : table.map place <+: table'.map place)
    (within : number < table.length) : nearest table' number = nearest table number := by
  obtain ⟨more, whole⟩ := same
  induction number using Nat.strongRecOn with
  | ind number ih =>
    obtain ⟨⟨kind, parent, _, _, _⟩, there⟩ : ∃ s, table[number]? = some s :=
      ⟨_, List.getElem?_eq_getElem within⟩
    have found : (table'.map place)[number]? = some (kind, parent) := by
      rw [← whole, List.getElem?_append_left (by simpa using within), List.getElem?_map, there]
      rfl
    rw [List.getElem?_map, Option.map_eq_some_iff] at found
    obtain ⟨⟨kind', parent', _, _, _⟩, there', same⟩ := found
    obtain ⟨rfl, rfl⟩ : kind' = kind ∧ parent' = parent := Prod.mk.inj same
    rw [nearest, nearest, there, there']
    cases kind' with
    | none => rfl
    | some kind =>
      cases kind with
      | function | classBody => rfl
      | comprehension =>
        dsimp only
        split
        · next less => exact ih _ less (Nat.lt_trans less within)
        · rfl

/-! ### What is performed -/

/-- The table of the scopes is marked, the current scope and the nearest one that is no comprehension
among them. -/
structure Tracks (scopes : Scopes) (marks : List Mark) : Prop where
  shows : Shows scopes.table marks
  current : scopes.current < marks.length
  near : nearest scopes.table scopes.current < marks.length

namespace Tracks

theorem nearest_eq (tracks : Tracks scopes marks) {after : Scopes} (onward : Onward scopes after) :
    nearest after.table after.current = nearest scopes.table scopes.current := by
  rw [onward.current]
  exact nearest_congr onward.places (tracks.shows.length ▸ tracks.current)

theorem onward (tracks : Tracks scopes marks) {after : Scopes} {marks' : List Mark}
    (onward : Onward scopes after) (shows : Shows after.table marks')
    (longer : marks.length ≤ marks'.length) : Tracks after marks' where
  shows := shows
  current := onward.current ▸ Nat.lt_of_lt_of_le tracks.current longer
  near := tracks.nearest_eq onward ▸ Nat.lt_of_lt_of_le tracks.near longer

theorem push_current (tracks : Tracks scopes marks) : (scopes.push kind).current = marks.length :=
  tracks.shows.length

/-- A comprehension has the nearest scope of the one around it, any other scope is its own. -/
theorem nearest_push (tracks : Tracks scopes marks) :
    nearest (scopes.push kind).table (scopes.push kind).current =
      if kind = .comprehension then nearest scopes.table scopes.current else marks.length := by
  have within : scopes.current < scopes.table.length := tracks.shows.length ▸ tracks.current
  have there : (scopes.push kind).table[scopes.table.length]? =
      some { kind := some kind, parent := some scopes.current } := by simp [Scopes.push]
  have same : nearest (scopes.push kind).table scopes.current = nearest scopes.table scopes.current :=
    nearest_congr (by simp [Scopes.push]) within
  rw [← tracks.shows.length, show (scopes.push kind).current = scopes.table.length from rfl, nearest,
    there]
  cases kind with
  | function | classBody => rfl
  | comprehension => simpa [within] using same

theorem push (tracks : Tracks scopes marks) (kind : ScopeKind) :
    Tracks (scopes.push kind) (marks ++ [⟨some kind, some scopes.current, {}⟩]) := by
  have longer := tracks.near
  refine ⟨tracks.shows.push kind, ?_, ?_⟩
  · rw [tracks.push_current, List.length_append]
    exact Nat.lt_succ_self _
  · rw [tracks.nearest_push, List.length_append, List.length_singleton]
    split <;> omega

end Tracks

mutual

theorem perform_shows : (item : Item) → ∀ {scopes : Scopes} {marks : List Mark},
    Tracks scopes marks → Shows (perform item scopes).table
      (changed scopes.current (nearest scopes.table scopes.current) marks item ++
        entered scopes.current marks.length item)
  | .read name, scopes, marks, tracks => by
    rw [changed_of_none rfl, entered, List.append_nil]
    exact (List.modify_id _ marks).symm ▸ tracks.shows
  | .bind name, scopes, marks, tracks => by
    rw [changed_of_none rfl, entered, List.append_nil]
    exact tracks.shows.bindIn tracks.current
  | .bindOutward name, scopes, marks, tracks => by
    have bound : Shows (scopes.bindOutward name).table (marks.modify _ (Mark.change (·.bind name))) :=
      tracks.shows.bindIn tracks.near
    rw [changed, entered, List.append_nil]
    exact (List.modify_id scopes.current marks).symm ▸ bound
  | .declareGlobal name, scopes, marks, tracks => by
    rw [changed_of_none rfl, entered, List.append_nil]
    exact tracks.shows.declare
      (f := fun declares t => ScopeTable.step declares false t (.declareGlobal name))
      (fun _ => rfl) (fun _ => rfl) fun _ => rfl
  | .declareNonlocal name, scopes, marks, tracks => by
    rw [changed_of_none rfl, entered, List.append_nil]
    exact tracks.shows.declare
      (f := fun declares t => ScopeTable.step declares false t (.declareNonlocal name))
      (fun _ => rfl) (fun _ => rfl) fun _ => rfl
  | .scope kind items, scopes, marks, tracks => by
    have inside : (marks.length != module) = true :=
      bne_iff_ne.mpr (Nat.ne_zero_of_lt tracks.current)
    have inner := performAll_shows items (tracks.push kind)
    rw [tracks.nearest_push, tracks.push_current, List.length_append, List.length_singleton] at inner
    by_cases comprehension : kind = .comprehension
    · subst comprehension
      rw [if_pos rfl, foldl_changed_apart (Nat.ne_of_gt tracks.near), modify_append_length,
        modify_append_of_lt tracks.near, inside, List.append_assoc] at inner
      have own : changed scopes.current (nearest scopes.table scopes.current) marks
          (.scope .comprehension items) = marks.modify (nearest scopes.table scopes.current)
            (Mark.change fun t => (outwardNamesAll items).foldl ScopeTable.bind t) :=
        congrArg (List.modify · _ _) (List.modify_id scopes.current marks)
      rw [own]
      exact inner
    · rw [if_neg comprehension, foldl_changed_self, modify_append_length, inside,
        List.append_assoc] at inner
      have none : (Item.scope kind items).outwardNames = [] := by
        cases kind <;> trivial
      have same : ScopeTable.ofScope kind items = items.foldl (ScopeTable.step true true) {} := by
        rw [ScopeTable.ofScope, bne_iff_ne.mpr comprehension]
      rw [changed_of_none none, entered, same]
      exact (List.modify_id scopes.current marks).symm ▸ inner

theorem performAll_shows : (items : List Item) → ∀ {scopes : Scopes} {marks : List Mark},
    Tracks scopes marks → Shows (performAll items scopes).table
      (items.foldl (changed scopes.current (nearest scopes.table scopes.current)) marks ++
        enteredAll scopes.current marks.length items)
  | [], scopes, marks, tracks => by
    rw [enteredAll, List.append_nil]
    exact tracks.shows
  | item :: items, scopes, marks, tracks => by
    have onward := perform_onward item scopes
    have next := tracks.onward onward (perform_shows item tracks) (by simp [length_changed])
    have all := performAll_shows items next
    rw [tracks.nearest_eq onward, onward.current,
      foldl_changed_append (by rw [length_changed]; exact tracks.current)
        (by rw [length_changed]; exact tracks.near),
      List.length_append, length_changed, List.append_assoc] at all
    exact all

end

theorem perform_tracks (item : Item) (tracks : Tracks scopes marks) : Tracks (perform item scopes)
    (changed scopes.current (nearest scopes.table scopes.current) marks item ++
      entered scopes.current marks.length item) :=
  tracks.onward (perform_onward item scopes) (perform_shows item tracks) (by simp [length_changed])

theorem tracks_new : Tracks new [⟨none, none, {}⟩] := by
  refine ⟨⟨rfl, fun i elsewhere => ?_, [], {}, rfl, rfl, rfl, rfl, rfl, fun name => ?_⟩, ?_, ?_⟩
  · obtain ⟨i, rfl⟩ := Nat.exists_eq_succ_of_ne_zero elsewhere
    rfl
  · simp [Exported]
  · exact Nat.zero_lt_one
  · rw [nearest]
    exact Nat.zero_lt_one

/-- The table of a whole module. -/
theorem performAll_new_shows (items : List Item) : Shows (performAll items new).table
    (⟨none, none, .ofModule items⟩ :: enteredAll module 1 items) := by
  have near : nearest new.table new.current = new.current := by
    rw [nearest]
    rfl
  have shows := performAll_shows items tracks_new
  rw [near, foldl_changed_self] at shows
  exact shows

end Scopes

end ConceptForest.Script
