import ConceptForest.Proofs.Forest.Edits
import ConceptForest.Proofs.Forest.Judging

/-!
Names that are bound where they are missed.

When a concept binds a name, the binding hides all others of that name that were seen from there, and
nothing else that was seen changes (`lookup_bound`). So if the concept is judged by a snippet, just
what was wrong with that name is mended.

* `check_bound` — what is wrong with a concept after it has bound a name.
* `check_bind_exact` — the same for requests, in all forests that requests have made of the empty
  one; and once all names that something was wrong with are bound, nothing is.
-/

namespace ConceptForest

/-- The name that a diagnostic is about, if it is about one. -/
def Diagnostic.name? : Diagnostic → Option String
  | missingBinding _ name | ambiguousBinding _ name _ => some name
  | conceptUndefined _ | syntaxError _ _ => none

theorem Diagnostic.name?_of_mem_ofSeen {owner : Handle} {name : String} {bs : List Binding}
    {d : Diagnostic} (mem : d ∈ Diagnostic.ofSeen owner name bs) : d.name? = some name := by
  match bs, mem with
  | [], mem => rw [List.mem_singleton.mp mem, name?]
  | _ :: _ :: _, mem => rw [List.mem_singleton.mp mem, name?]

namespace Forest

variable {f : Forest} {c : Handle} {policy : GroupPolicy} {script : ScriptDefinition}
  {ds : List Diagnostic}

/-- What becomes of a forest when a concept binds a name. -/
def bound (f : Forest) (h : Handle) (name : String) (value : Value) : Forest :=
  f.update h fun c => { c with context := c.context.bind name value }

theorem bind_of_contains (live : f.contains c = true) (name : String) (value : Value) :
    f.bind c name value = .ok (f.bound c name value) := by
  obtain ⟨concept, live⟩ := contains_iff.mp live
  rw [Forest.bind, Edit.result, Edit.bind_of_get? live]
  rfl

theorem wellFormed_bound (wf : f.WellFormed) (h : Handle) (name : String) (value : Value) :
    (f.bound h name value).WellFormed :=
  wf.update h (keepsPlace_context _)

@[simp] theorem ownDefinition?_bound (f : Forest) (h k : Handle) (name : String) (value : Value) :
    (f.bound h name value).ownDefinition? k = f.ownDefinition? k := by
  rw [ownDefinition?, bound, get?_update]
  split
  · cases same : f.get? k with
    | none => simp [ownDefinition?, same]
    | some c => simp [ownDefinition?, same, Context.bind]
  · rfl

/-- A change of the concept at the top of a tree that leaves it its children is all that changes in
the tree, for the concept does not own itself. -/
theorem Shows.update {h : Handle} {concept : Concept} {ts : List Tree} (wf : f.WellFormed)
    (shows : f.Shows (.node h concept ts)) {change : Concept → Concept}
    (keeps : (change concept).children = concept.children) :
    (f.update h change).Shows (.node h (change concept) ts) := by
  cases shows with
  | node live children below =>
    have shows : f.Shows (.node h concept ts) := .node live children below
    refine .node ?_ (children.trans keeps.symm) fun s child => (below s child).congr fun k inside => ?_
    · rw [get?_update, if_pos rfl, live, Option.map_some]
    · have owned := owns_of_parent? (shows.parent?_of_mem_children wf child)
      rw [get?_update, if_neg]
      rintro rfl
      rcases ((below s child).mem_handles_iff wf).mp inside with rfl | owns
      · exact wf.not_owns_self _ owned
      · exact wf.not_owns_self _ (owned.trans owns)

/-- After a concept has bound a name, this is all that is seen of that name from there; of every
other name the same is seen as before. -/
theorem lookup_bound (wf : f.WellFormed) (live : f.contains c = true) (name other : String)
    (value : Value) : (f.bound c name value).lookup c other =
      if other = name then .ok [⟨[c], name, value⟩] else f.lookup c other := by
  have wf' := wellFormed_bound wf c name value
  obtain ⟨concept, live⟩ := contains_iff.mp live
  obtain ⟨ts, found, shows, -⟩ := exists_node wf live
  have shown : (f.bound c name value).Shows
      (.node c { concept with context := concept.context.bind name value } ts) := shows.update wf rfl
  have found' : (f.bound c name value).tree c = _ := shown.tree wf'
  rw [Forest.lookup, Forest.lookup, found, found']
  simp only [ok_bind, Tree.lookup, Context.get?_bind]
  by_cases same : other = name
  · simp only [same]
    rfl
  · simp only [if_neg same]

/-- When the concept that a snippet belongs to binds a name, what was wrong with that name is mended,
and nothing else changes. -/
theorem check_bound (wf : f.WellFormed) (own : f.ownDefinition? c = some (.script script))
    (owner : script.owner = c) (policy : GroupPolicy) :
    ∃ ds, f.check policy c = .ok ds ∧ ∀ name value,
      (f.bound c name value).check policy c = .ok (ds.filter (·.name? ≠ some name)) := by
  have live := contains_of_ownDefinition? own
  have judged : ∀ {g : Forest}, g.WellFormed → g.ownDefinition? c = some (.script script) →
      g.check policy c = g.checkScript script :=
    fun wf own => check_of_ownDefinition? wf own policy
  choose seen looked using exists_lookup wf live
  cases read : script.freeNames with
  | error e =>
    refine ⟨[.syntaxError c e], ?_, fun name value => ?_⟩
    · rw [judged wf own, checkScript, read, owner]
    · rw [judged (wellFormed_bound wf c name value) (by simp [own]), checkScript, read, owner]
      rfl
  | ok names =>
    refine ⟨names.flatMap fun m => Diagnostic.ofSeen c m (seen m), ?_, fun name value => ?_⟩
    · rw [judged wf own, checkScript, read, owner]
      exact checkNames_eq (fun m => (looked m).1) names
    · have looked' : ∀ m, (f.bound c name value).lookup c m =
          .ok (if m = name then [⟨[c], name, value⟩] else seen m) := by
        intro m
        rw [lookup_bound wf live, (looked m).1]
        split <;> rfl
      rw [judged (wellFormed_bound wf c name value) (by simp [own]), checkScript, read, owner]
      refine (checkNames_eq looked' names).trans (congrArg _ ?_)
      rw [List.filter_flatMap]
      refine List.flatMap_congr fun m _ => ?_
      by_cases same : m = name
      · rw [if_pos same, Diagnostic.ofSeen, eq_comm, List.filter_eq_nil_iff]
        intro d mem
        simp [Diagnostic.name?_of_mem_ofSeen mem, same]
      · rw [if_neg same, eq_comm, List.filter_eq_self]
        intro d mem
        simp [Diagnostic.name?_of_mem_ofSeen mem, same]

/-- What becomes of a forest when a concept binds names, one after the other. -/
def bindAll (f : Forest) (h : Handle) : List (String × Value) → Except ForestError Forest
  | [] => .ok f
  | (name, value) :: bindings => do (← f.bind h name value).bindAll h bindings

/-- When the concept that a snippet belongs to binds names, what was wrong with those is mended. -/
theorem exists_bindAll (wf : f.WellFormed) (own : f.ownDefinition? c = some (.script script))
    (owner : script.owner = c) (checked : f.check policy c = .ok ds)
    (bindings : List (String × Value)) :
    ∃ g, f.bindAll c bindings = .ok g ∧
      g.check policy c = .ok (ds.filter fun d => ∀ b ∈ bindings, d.name? ≠ some b.1) := by
  induction bindings generalizing f ds with
  | nil => exact ⟨f, rfl, by simpa using checked⟩
  | cons b bindings ih =>
    obtain ⟨name, value⟩ := b
    obtain ⟨ds', checked', mended⟩ := check_bound wf own owner policy
    obtain rfl := Except.ok.inj (checked'.symm.trans checked)
    obtain ⟨g, granted, rest⟩ := ih (wellFormed_bound wf c name value) (by simp [own])
      (mended name value)
    refine ⟨g, ?_, ?_⟩
    · rw [bindAll, bind_of_contains (contains_of_ownDefinition? own)]
      exact granted
    · rw [rest, List.filter_filter]
      simp only [List.forall_mem_cons, Bool.decide_and, Bool.and_comm]

/-- Names that are bound at the concept that misses them, in a forest that requests have made of the
empty one. Where a concept is defined by a snippet of its own, its binding of a name takes away just
the diagnostics about that name; and once it has bound all names that there are diagnostics about, in
whatever order, nothing is wrong with a snippet that can be read. -/
theorem check_bind_exact (requests : List Request) (policy : GroupPolicy) (c : Handle)
    (script : ScriptDefinition)
    (own : (({} : Forest).afterAll requests).ownDefinition? c = some (.script script))
    (owner : script.owner = c) :
    let f := ({} : Forest).afterAll requests
    ∃ ds, f.check policy c = .ok ds ∧
      (∀ name value, ∃ g, f.bind c name value = .ok g ∧
        g.check policy c = .ok (ds.filter (·.name? ≠ some name))) ∧
      ∀ bindings : List (String × Value),
        (∀ d ∈ ds, ∀ name, d.name? = some name → ∃ b ∈ bindings, b.1 = name) →
        ∀ names, script.freeNames = .ok names →
          ∃ g, f.bindAll c bindings = .ok g ∧ g.check policy c = .ok [] := by
  intro f
  have wf : f.WellFormed := (evolves_afterAll wellFormed_empty requests).wellFormed
  have live := contains_of_ownDefinition? own
  obtain ⟨ds, checked, mended⟩ := check_bound wf own owner policy
  refine ⟨ds, checked, fun name value => ⟨_, bind_of_contains live name value, mended name value⟩, ?_⟩
  intro bindings all names read
  obtain ⟨g, granted, rest⟩ := exists_bindAll wf own owner checked bindings
  obtain ⟨seen, -, judged⟩ := exists_judge_script wf (owner ▸ live)
  have told := (check_of_ownDefinition? wf own policy).trans (judged policy names read)
  obtain rfl := Except.ok.inj (told.symm.trans checked)
  refine ⟨g, granted, rest.trans (congrArg _ ?_)⟩
  rw [List.filter_eq_nil_iff]
  intro d mem
  obtain ⟨name, -, mem'⟩ := List.mem_flatMap.mp mem
  obtain ⟨b, bound, same⟩ := all d mem name (Diagnostic.name?_of_mem_ofSeen mem')
  simp only [decide_eq_true_eq, not_forall, not_not]
  exact ⟨b, bound, same ▸ Diagnostic.name?_of_mem_ofSeen mem'⟩

theorem ownDefinition?_afterAll {requests : List Request}
    (live : (f.afterAll requests).contains c = true) (d : Definition) :
    (f.afterAll (requests ++ [.bindDefinition c d])).ownDefinition? c = some d := by
  obtain ⟨concept, live⟩ := contains_iff.mp live
  have last : f.afterAll (requests ++ [.bindDefinition c d]) =
      leftBy (Edit.bindDefinition c d) (f.afterAll requests) := by
    simp [afterAll, Request.after]
  rw [last, leftBy_of_ok (Edit.bindDefinition_of_get? live d), ownDefinition?, get?_update,
    if_pos rfl, live]
  rfl

/-- Of the three names that the statement reads one is bound twice below it, one not at all and one
just once. -/
theorem check_bind_exact_statement :
    let below (parent : Handle) (kind : Kind) : Request :=
      .create { kind, parent := some parent }
    let script : ScriptDefinition := ⟨1, "expr", "x + y + z", .ok ["x", "y", "z"]⟩
    let requests : List Request := [.create { kind := .root }, below 0 .statement, below 1 .symbol,
      below 1 .symbol, .bind 2 "x" (.literal "1"), .bind 3 "x" (.literal "2"),
      .bind 3 "z" (.literal "3")]
    let f := ({} : Forest).afterAll (requests ++ [.bindDefinition 1 (.script script)])
    let missed : Diagnostic := .missingBinding 1 "y"
    f.ownDefinition? 1 = some (.script script) ∧ script.owner = 1 ∧
      (∃ twice, f.check .never 1 = .ok [.ambiguousBinding 1 "x" twice, missed] ∧
        twice.length = 2) ∧
      (∃ g, f.bind 1 "x" (.literal "4") = .ok g ∧ g.check .never 1 = .ok [missed]) ∧
      ∃ g, f.bindAll 1 [("y", .concept 0), ("x", .literal "4")] = .ok g ∧
        g.check .never 1 = .ok [] := by
  intro below script requests f missed
  have live : (({} : Forest).afterAll requests).contains 1 = true := by decide +kernel
  have own : f.ownDefinition? 1 = some (.script script) := ownDefinition?_afterAll live _
  have checked : f.check .never 1 = .ok [.ambiguousBinding 1 "x" [⟨[1, 2], "x", .literal "1"⟩,
      ⟨[1, 3], "x", .literal "2"⟩], missed] := by decide +kernel
  obtain ⟨ds, checked', one, all⟩ := check_bind_exact _ .never 1 script own rfl
  obtain rfl := Except.ok.inj (checked.symm.trans checked')
  exact ⟨own, rfl, ⟨_, checked, rfl⟩, one "x" (.literal "4"),
    all [("y", .concept 0), ("x", .literal "4")] (by simp [missed, Diagnostic.name?]) _ rfl⟩

end Forest

end ConceptForest
