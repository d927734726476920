import ConceptForest.Proofs.Script.Parser.Statements
import ConceptForest.Proofs.Script.Parser.Tables
import ConceptForest.Proofs.Script.Scopes
import ConceptForest.Script.Analyzer

/-!
The table of scopes answers as the outline does.

A parser notes what is read and where, and when everything has been read it looks back, for each of
the reads outward from the scope it stands in; name resolution goes through the outline and keeps the
scopes around it at hand. Outward from an entry of the table are the entries of just those scopes
(`Around`).

* `freeNames_performAll` — both find the same free names, in the same order.
* `Analyzer.freeNames_eq_run` — an analyzer reports what the parser finds.
-/

namespace ConceptForest.Script

namespace Scopes

variable {scopes : Scopes} {table : List Scope} {marks : List Mark} {next number outer : Nat}
  {name : String} {items : List Item} {kind : ScopeKind} {frames : List Frame}

/-! ### What is read -/

mutual

/-- The reads in an item of the scope `c`, each behind the number of its scope; the first scope that
is entered there has the number `next`. -/
def numbered (c next : Nat) : Item → List (Nat × String)
  | .read name => [(c, name)]
  | .scope _ items => numberedAll next (next + 1) items
  | .bind _ | .bindOutward _ | .declareGlobal _ | .declareNonlocal _ => []

/-- The reads in items of the scope `c`. -/
def numberedAll (c next : Nat) : List Item → List (Nat × String)
  | [] => []
  | item :: items => numbered c next item ++ numberedAll c (next + (entered c next item).length) items

end

theorem reads_bindIn : (scopes.bindIn number name).reads = scopes.reads := by
  unfold bindIn
  split
  · rfl
  · split
    · rfl
    · split <;> rfl

theorem reads_declare {g : Scope → Scope} : (scopes.declare g).reads = scopes.reads := by
  unfold declare
  split <;> rfl

mutual

theorem perform_reads : (item : Item) → ∀ {scopes : Scopes} {marks : List Mark},
    Tracks scopes marks →
      (perform item scopes).reads = scopes.reads ++ numbered scopes.current marks.length item
  | .read name, _, _, _ => rfl
  | .bind name, _, _, _ => reads_bindIn.trans (List.append_nil _).symm
  | .bindOutward name, _, _, _ => reads_bindIn.trans (List.append_nil _).symm
  | .declareGlobal name, _, _, _ => reads_declare.trans (List.append_nil _).symm
  | .declareNonlocal name, _, _, _ => reads_declare.trans (List.append_nil _).symm
  | .scope kind items, scopes, marks, tracks => by
    have inner := performAll_reads items (tracks.push kind)
    rw [tracks.push_current, List.length_append, List.length_singleton] at inner
    exact inner

theorem performAll_reads : (items : List Item) → ∀ {scopes : Scopes} {marks : List Mark},
    Tracks scopes marks →
      (performAll items scopes).reads = scopes.reads ++ numberedAll scopes.current marks.length items
  | [], _, _, _ => (List.append_nil _).symm
  | item :: items, scopes, marks, tracks => by
    have all := performAll_reads items (perform_tracks item tracks)
    rw [perform_reads item tracks, (perform_onward item scopes).current, List.length_append,
      length_changed, List.append_assoc] at all
    exact all

end

/-! ### Looking back -/

/-- The scopes outward from the one with the number, without the module. -/
inductive Around (table : List Scope) : Nat → List Frame → Prop where
  | module {s : Scope} (there : table[module]? = some s) (outermost : s.kind = none) :
    Around table module []
  | inside {number outer : Nat} {kind : ScopeKind} {names : ScopeTable} {frames : List Frame}
    (there : table[number]? = some (Mark.scope ⟨some kind, some outer, names⟩))
    (before : outer < number) (further : Around table outer frames) :
    Around table number (⟨kind, names⟩ :: frames)

theorem homeAround?_inside {names : ScopeTable}
    (there : table[number]? = some (Mark.scope ⟨some kind, some outer, names⟩))
    (before : outer < number) : homeAround? table name number =
      if kind = .classBody then homeAround? table name outer
      else (Frame.home? ⟨kind, names⟩ name).or (homeAround? table name outer) := by
  rw [homeAround?, there]
  simp only [Mark.scope, if_pos before]
  rfl

theorem isFree_inside {names : ScopeTable}
    (there : scopes.table[number]? = some (Mark.scope ⟨some kind, some outer, names⟩)) :
    scopes.isFree number name =
      match (Frame.home? ⟨kind, names⟩ name).or (homeAround? scopes.table name outer) with
      | some .here => false
      | some .module | none => !scopes.inModule name := by
  rw [isFree, there]
  rfl

theorem Around.homeAround?_eq (around : Around table number frames) : homeAround? table name number =
    (frames.filter (·.kind != .classBody)).findSome? (Frame.home? · name) := by
  induction around with
  | module there outermost =>
    rw [homeAround?, there]
    simp [outermost]
  | @inside _ _ kind names _ there before _ ih =>
    rw [homeAround?_inside there before, ih]
    by_cases body : kind = .classBody
    · simp [body]
    · rw [if_neg body, List.filter_cons_of_pos (by simpa using body), List.findSome?_cons]
      cases Frame.home? ⟨kind, names⟩ name <;> rfl

theorem Around.isFree_eq (around : Around scopes.table number frames) {inModule : List String}
    (same : scopes.inModule name = inModule.contains name) :
    scopes.isFree number name = Script.isFree inModule frames name := by
  cases around with
  | module there outermost =>
    rw [isFree, there, same]
    simp [outermost, Script.isFree, visibleFrames]
  | @inside _ outer kind names frames there before further =>
    rw [isFree_inside there, further.homeAround?_eq, same, Script.isFree, visibleFrames,
      List.findSome?_cons]
    cases Frame.home? ⟨kind, names⟩ name <;> rfl

/-- The first row of marks, and those behind it. -/
theorem prefix_drop (row others : List Mark)
    (there : (row ++ others).map Mark.scope <+: table.drop next) :
    row.map Mark.scope <+: table.drop next ∧
      others.map Mark.scope <+: table.drop (next + row.length) := by
  obtain ⟨more, whole⟩ := there
  rw [List.map_append, List.append_assoc] at whole
  refine ⟨⟨_, whole⟩, more, ?_⟩
  rw [← List.drop_drop, ← whole, List.drop_left' (List.length_map _)]

mutual

theorem freeReads_eq {inModule : List String}
    (same : ∀ name, scopes.inModule name = inModule.contains name) : (item : Item) →
    ∀ {c next : Nat} {frames : List Frame}, Around scopes.table c frames → c < next →
      (entered c next item).map Mark.scope <+: scopes.table.drop next →
      ((numbered c next item).filter fun read => scopes.isFree read.1 read.2).map Prod.snd =
        item.freeReads inModule frames
  | .read name, c, next, frames, around, _, _ => by
    rw [numbered, Item.freeReads, ← around.isFree_eq (same name)]
    cases free : scopes.isFree c name <;> simp [free]
  | .bind _, _, _, _, _, _, _ | .bindOutward _, _, _, _, _, _, _
  | .declareGlobal _, _, _, _, _, _, _ | .declareNonlocal _, _, _, _, _, _, _ => by
    rfl
  | .scope kind items, c, next, frames, around, before, there => by
    rw [entered] at there
    obtain ⟨own, others⟩ := prefix_drop [_] _ there
    have here : scopes.table[next]? = some (Mark.scope ⟨some kind, some c, .ofScope kind items⟩) := by
      obtain ⟨_, whole⟩ := own
      have front := congrArg (·[0]?) whole
      simpa using front.symm
    exact freeReadsAll_eq same items (.inside here before around) (Nat.lt_succ_self next) others

theorem freeReadsAll_eq {inModule : List String}
    (same : ∀ name, scopes.inModule name = inModule.contains name) : (items : List Item) →
    ∀ {c next : Nat} {frames : List Frame}, Around scopes.table c frames → c < next →
      (enteredAll c next items).map Mark.scope <+: scopes.table.drop next →
      ((numberedAll c next items).filter fun read => scopes.isFree read.1 read.2).map Prod.snd =
        freeReadsAll inModule frames items
  | [], _, _, _, _, _, _ => rfl
  | item :: items, c, next, frames, around, before, there => by
    obtain ⟨first, others⟩ := prefix_drop _ _ there
    rw [numberedAll, List.filter_append, List.map_append, freeReads_eq same item around before first,
      freeReadsAll_eq same items around (by omega) others, freeReadsAll]

end

mutual

theorem names_entered : (item : Item) → ∀ c next : Nat,
    (entered c next item).map Mark.names = item.tables
  | .scope kind items, _, _ => by
    rw [entered, List.map_cons, names_enteredAll items, Item.tables]
  | .read _, _, _ | .bind _, _, _ | .bindOutward _, _, _ | .declareGlobal _, _, _
  | .declareNonlocal _, _, _ => by
    rfl

theorem names_enteredAll : (items : List Item) → ∀ c next : Nat,
    (enteredAll c next items).map Mark.names = tablesAll items
  | [], _, _ => rfl
  | item :: items, _, _ => by
    rw [enteredAll, List.map_append, names_entered item, names_enteredAll items, tablesAll]

end

theorem exported_enteredAll (c next : Nat) :
    Exported (enteredAll c next items) name ↔ name ∈ exportedNamesAll items := by
  rw [exportedNamesAll_eq, ← names_enteredAll items c next, List.flatMap_map, List.mem_flatMap]
  rfl

theorem inModule_performAll (items : List Item) (name : String) :
    (performAll items new).inModule name = (moduleNames items).contains name := by
  obtain ⟨bound, names, there, marked, -, -, noExports, all⟩ := (performAll_new_shows items).outermost
  obtain ⟨-, -, rfl⟩ := Mark.mk.inj (Option.some.inj marked)
  have inside : Exported (⟨none, none, .ofModule items⟩ :: enteredAll module 1 items) name ↔
      name ∈ exportedNamesAll items := by
    rw [← exported_enteredAll module 1]
    simp [Exported, noExports]
  rw [Bool.eq_iff_iff, inModule, there, List.contains_iff_mem, moduleNames, List.mem_append, ← inside,
    ← all name]
  exact List.contains_iff_mem

/-- What the table of scopes tells is what name resolution finds in the outline. -/
theorem freeNames_performAll (items : List Item) :
    (performAll items new).freeNames = Script.freeNames items := by
  have shows := performAll_new_shows items
  obtain ⟨_, _, there, -⟩ := shows.outermost
  have further : (enteredAll module 1 items).map Mark.scope = (performAll items new).table.drop 1 := by
    refine List.ext_getElem? fun i => ?_
    rw [List.getElem?_drop, shows.inside (1 + i) (by simp [module]), Nat.add_comm,
      List.getElem?_cons_succ, List.getElem?_map]
  rw [freeNames, performAll_reads items tracks_new, Script.freeNames]
  exact congrArg List.eraseDups (freeReadsAll_eq (inModule_performAll items) items
    (.module there rfl) Nat.zero_lt_one (further ▸ List.prefix_refl _))

end Scopes

/-- An analyzer reports what a parser finds that keeps a table of scopes. -/
theorem Analyzer.freeNames_eq_run (analyzer : Analyzer) (source : String) :
    analyzer.freeNames source = (do
      let names := (← Parser.run source).freeNames
      return if analyzer.ignoreBuiltins then names.filter (!builtins.contains ·) else names) := by
  rw [Parser.run_eq, Analyzer.freeNames]
  cases Stmt.parse source with
  | error e => rfl
  | ok stmts =>
    rw [Except.map, ok_bind, ok_bind, Scopes.freeNames_performAll]

end ConceptForest.Script
