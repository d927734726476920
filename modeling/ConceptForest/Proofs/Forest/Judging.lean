import ConceptForest.Proofs.Forest.Bindings

/-!
What a concept is judged by.

Under the policy by which the parts of a concept matter, a concept is judged by the uppermost
concepts under it that have a definition of their own, and by the leaves that no such concept owns
(`JudgedBy`). The groups in between leave no trace.

* `Shows.exists_verdicts` — the judgement on a concept is what is said of the concepts that it is
  judged by, one after the other.
* `exists_judge_script` — the judgement on a snippet, name by name.
* `check_exact` — all about the check of a live concept, in all forests that requests have made of
  the empty one and where all definitions belong to live concepts.
-/

namespace ConceptForest

/-- Does the concept have a definition of its own, or nothing that it could be made of? -/
def Concept.isSettled (c : Concept) : Bool :=
  c.context.definition?.isSome || c.isLeaf

/-- What is wrong with a name for which the given bindings are seen: nothing if there is one. -/
def Diagnostic.ofSeen (owner : Handle) (name : String) : List Binding → List Diagnostic
  | [] => [.missingBinding owner name]
  | [_] => []
  | bs => [.ambiguousBinding owner name bs]

namespace Forest

variable {f : Forest} {c d : Handle} {policy : GroupPolicy} {t : Tree} {ts : List Tree}
  {definition : Definition} {script : ScriptDefinition}

/-- The definition that a concept itself has. -/
def ownDefinition? (f : Forest) (h : Handle) : Option Definition :=
  (f.get? h).bind fun c => c.context.definition?

theorem ownDefinition?_of_get? {concept : Concept} (live : f.get? d = some concept) :
    f.ownDefinition? d = concept.context.definition? := by
  rw [ownDefinition?, live, Option.bind_some]

theorem contains_of_ownDefinition? (own : f.ownDefinition? d = some definition) :
    f.contains d = true := by
  obtain ⟨concept, live, -⟩ := Option.bind_eq_some_iff.mp own
  exact contains_of_get? live

/-- The concepts that a concept is judged by: those under it that have a definition or own nothing,
if none from the concept down to their parent has a definition. -/
structure JudgedBy (f : Forest) (c d : Handle) : Prop where
  visible : f.Visible (fun a => f.ownDefinition? a ≠ none) c d
  settled : f.ownDefinition? d ≠ none ∨ f.contains d = true ∧ f.childrenOf d = []

/-- What is said of a concept that another one is judged by: what is wrong with its definition, or
that it has none. -/
def SaidOf (f : Forest) (d : Handle) (ds : List Diagnostic) : Prop :=
  match f.ownDefinition? d with
  | some definition => f.judge .conjunctive definition = .ok ds
  | none => ds = [.conceptUndefined d]

theorem has_isSettled_iff : f.Has Concept.isSettled d ↔
    f.ownDefinition? d ≠ none ∨ f.contains d = true ∧ f.childrenOf d = [] := by
  rw [Has, ownDefinition?, contains, childrenOf]
  cases f.get? d with
  | none => simp
  | some concept => simp [Concept.isSettled, Concept.isLeaf, Option.isSome_iff_ne_none]

/-- A leaf hides nothing, so the concepts with a definition are the only ones that do. -/
theorem judgedBy_iff (wf : f.WellFormed) :
    f.JudgedBy c d ↔ f.Visible (f.Has Concept.isSettled) c d ∧ f.Has Concept.isSettled d := by
  have hides : ∀ a b, f.Owns a b → (f.ownDefinition? a ≠ none ↔ f.Has Concept.isSettled a) := by
    intro a b owns
    obtain ⟨x, owned, -⟩ := Relation.TransGen.head'_iff.mp owns
    have some : f.childrenOf a ≠ [] := List.ne_nil_of_mem (wf.mem_childrenOf.mpr owned)
    rw [has_isSettled_iff]
    exact (or_iff_left fun leaf => some leaf.2).symm
  rw [← visible_congr hides, has_isSettled_iff]
  exact ⟨fun ⟨visible, settled⟩ => ⟨visible, settled⟩, fun ⟨visible, settled⟩ => ⟨visible, settled⟩⟩

/-! ### Definitions of live concepts -/

/-- A definition whose parts all belong to live concepts is judged. -/
theorem exists_judge (wf : f.WellFormed) (policy : GroupPolicy) {definition : Definition}
    (live : ∀ o ∈ definition.owners, f.contains o = true) :
    ∃ ds, f.judge policy definition = .ok ds := by
  have bindings := (Regroups.refl f).sameBindings wf wf
  obtain ⟨ds, -, judged, -⟩ := judge_same bindings policy definition live
  exact ⟨ds, judged⟩

/-- What is wrong with a snippet is what is wrong with its free names, one after the other. -/
theorem checkNames_eq {owner : Handle} {seen : String → List Binding}
    (looked : ∀ name, f.lookup owner name = .ok (seen name)) (names : List String) :
    f.checkNames owner names =
      .ok (names.flatMap fun name => Diagnostic.ofSeen owner name (seen name)) := by
  induction names with
  | nil => rfl
  | cons name names ih =>
    rw [checkNames, looked, ih, List.flatMap_cons]
    simp only [ok_bind]
    rcases seen name with _ | ⟨b, _ | ⟨b', bs⟩⟩ <;> rfl

/-- A snippet that can be read is judged by what is seen of its free names from its owner. -/
theorem exists_judge_script (wf : f.WellFormed) (live : f.contains script.owner = true) :
    ∃ seen : String → List Binding, (∀ name, f.lookup script.owner name = .ok (seen name) ∧
        f.Sees script.owner name (seen name)) ∧
      ∀ policy names, script.freeNames = .ok names → f.judge policy (.script script) =
        .ok (names.flatMap fun name => Diagnostic.ofSeen script.owner name (seen name)) := by
  choose seen looked using exists_lookup wf live
  refine ⟨seen, looked, ?_⟩
  intro policy names read
  rw [judge, checkScript, read]
  exact checkNames_eq (fun name => (looked name).1) names

/-! ### The check of a concept -/

theorem check_of_tree (found : f.tree c = .ok t) (policy : GroupPolicy) :
    f.check policy c = f.judge policy t.definition := by
  rw [check, Forest.definition, found]
  rfl

/-- A concept with a definition of its own is judged by that, under every policy. -/
theorem check_of_ownDefinition? (wf : f.WellFormed) (own : f.ownDefinition? c = some definition)
    (policy : GroupPolicy) : f.check policy c = f.judge policy definition := by
  obtain ⟨concept, live, defined⟩ := Option.bind_eq_some_iff.mp own
  obtain ⟨ts, found, -, -⟩ := exists_node wf live
  rw [check_of_tree found, Tree.definition, defined]

/-- Where its parts do not matter, nothing is said of a concept without a definition but that it has
none. -/
theorem check_never (wf : f.WellFormed) (live : f.contains c = true)
    (none : f.ownDefinition? c = none) : f.check .never c = .ok [.conceptUndefined c] := by
  obtain ⟨concept, live⟩ := contains_iff.mp live
  obtain ⟨ts, found, -, -⟩ := exists_node wf live
  rw [ownDefinition?_of_get? live] at none
  rw [check_of_tree found, Tree.definition, none]
  cases ts <;> rfl

/-- What is said of rows of trees is put together row by row. -/
theorem exists_judgeAll {found : Tree → List Handle}
    (each : ∀ t ∈ ts, ∃ vs, List.Forall₂ f.SaidOf (found t) vs ∧
      f.judge .conjunctive t.definition = .ok vs.flatten) :
    ∃ vs, List.Forall₂ f.SaidOf (ts.flatMap found) vs ∧
      f.judgeAll .conjunctive (definitionsAll ts) = .ok vs.flatten := by
  induction ts with
  | nil => exact ⟨[], .nil, rfl⟩
  | cons t ts ih =>
    obtain ⟨first, others⟩ := List.forall_mem_cons.mp each
    obtain ⟨vs, said, judged⟩ := first
    obtain ⟨ws, said', judged'⟩ := ih others
    refine ⟨vs ++ ws, List.rel_append said said', ?_⟩
    rw [definitionsAll, judgeAll, judged, judged', List.flatten_append]
    rfl

/-- The judgement on a concept by its parts is what is said of the uppermost concepts that are
settled. -/
theorem Shows.exists_verdicts (wf : f.WellFormed) (owned : f.DefinitionsOwned)
    (shows : f.Shows t) :
    ∃ vs, List.Forall₂ f.SaidOf ((t.uppermost Concept.isSettled).map Tree.handle) vs ∧
      f.judge .conjunctive t.definition = .ok vs.flatten := by
  induction shows with
  | @node h concept ts live children below ih =>
    have own := ownDefinition?_of_get? live
    cases defined : concept.context.definition? with
    | some definition =>
      have settled : concept.isSettled = true := by simp [Concept.isSettled, defined]
      obtain ⟨ds, judged⟩ := exists_judge wf .conjunctive (owned h concept definition live defined)
      rw [Tree.uppermost_of_kind ts settled, Tree.definition, defined]
      refine ⟨[ds], .cons ?_ .nil, ?_⟩
      · rw [SaidOf, Tree.handle, own, defined]
        exact judged
      · rw [List.flatten_singleton]
        exact judged
    | none =>
      by_cases leaf : ts = []
      · have settled : concept.isSettled = true := by
          simp [Concept.isSettled, Concept.isLeaf, ← children, leaf]
        rw [Tree.uppermost_of_kind ts settled, Tree.definition, defined]
        refine ⟨[[.conceptUndefined h]], .cons ?_ .nil, by simp [leaf, judge]⟩
        rw [SaidOf, Tree.handle, own, defined]
      · have goes : concept.isSettled = false := by
          simp [Concept.isSettled, Concept.isLeaf, defined, ← children, leaf]
        rw [Tree.uppermost_of_not_kind ts goes, definition_of_inner defined leaf, List.map_flatMap]
        exact exists_judgeAll ih

/-- A concept is judged by others without complaint exactly if each of them has a definition, and
that is without complaint. -/
theorem flatten_eq_nil_iff {ds : List Handle} {vs : List (List Diagnostic)}
    (said : List.Forall₂ f.SaidOf ds vs) : vs.flatten = [] ↔ ∀ d ∈ ds, ∃ definition,
      f.ownDefinition? d = some definition ∧ f.judge .conjunctive definition = .ok [] := by
  induction said with
  | nil => simp
  | @cons d v ds vs first _ ih =>
    rw [List.flatten_cons, List.append_eq_nil_iff, ih, List.forall_mem_cons]
    apply and_congr_left'
    rw [SaidOf] at first
    cases own : f.ownDefinition? d with
    | some definition =>
      rw [own] at first
      simp [first]
    | none =>
      rw [own] at first
      simp [first]

/-- All about the check of a live concept, in a forest that requests have made of the empty one and
where all definitions belong to live concepts.

Where the parts of a concept matter, what is wrong with it is what is said of the concepts that it is
judged by, in the order of a walk down; so nothing is wrong exactly if all of those have definitions
with which nothing is wrong. Where they do not matter, a concept without a definition is just said to
have none. What is wrong with the definition by a snippet that can be read is told name by name, in
their order: that nothing is seen of a name, or all that is seen if it is more than one binding. -/
theorem check_exact (requests : List Request) (c : Handle)
    (owned : (({} : Forest).afterAll requests).DefinitionsOwned)
    (live : (({} : Forest).afterAll requests).contains c = true) :
    let f := ({} : Forest).afterAll requests
    (∃ ds vs, ds.Pairwise f.Precedes ∧ ds.Nodup ∧ (∀ d, d ∈ ds ↔ f.JudgedBy c d) ∧
      List.Forall₂ f.SaidOf ds vs ∧ f.check .conjunctive c = .ok vs.flatten) ∧
    (f.check .conjunctive c = .ok [] ↔ ∀ d, f.JudgedBy c d → ∃ definition,
      f.ownDefinition? d = some definition ∧ f.judge .conjunctive definition = .ok []) ∧
    (f.ownDefinition? c = none → f.check .never c = .ok [.conceptUndefined c]) ∧
    ∀ d script names, f.ownDefinition? d = some (.script script) → script.freeNames = .ok names →
      ∃ seen : String → List Binding, (∀ name, f.Sees script.owner name (seen name)) ∧
        ∀ policy, f.check policy d = f.judge policy (.script script) ∧ f.check policy d =
          .ok (names.flatMap fun name => Diagnostic.ofSeen script.owner name (seen name)) := by
  intro f
  have wf : f.WellFormed := (evolves_afterAll wellFormed_empty requests).wellFormed
  obtain ⟨t, found, shows, rfl⟩ := exists_tree wf live
  obtain ⟨vs, said, judged⟩ := shows.exists_verdicts wf owned
  have checked : f.check .conjunctive t.handle = .ok vs.flatten :=
    (check_of_tree found _).trans judged
  have order := shows.pairwise_uppermost wf Concept.isSettled
  have exact : ∀ d, d ∈ (t.uppermost Concept.isSettled).map Tree.handle ↔ f.JudgedBy t.handle d :=
    fun d => (shows.mem_uppermost_iff wf).trans (judgedBy_iff wf).symm
  refine ⟨⟨_, vs, order, order.imp fun precedes => precedes.ne wf, exact, said, checked⟩, ?_,
    check_never wf live, ?_⟩
  · rw [checked, Except.ok.injEq, flatten_eq_nil_iff said]
    exact forall_congr' fun d => imp_congr_left (exact d)
  · intro d script names own read
    obtain ⟨concept, there, defined⟩ := Option.bind_eq_some_iff.mp own
    have liveOwner := owned d concept _ there defined script.owner (List.mem_singleton_self _)
    obtain ⟨seen, looked, judged⟩ := exists_judge_script wf liveOwner
    refine ⟨seen, fun name => (looked name).2, fun policy => ?_⟩
    have checked := check_of_ownDefinition? wf own policy
    exact ⟨checked, checked.trans (judged policy names read)⟩

/-- The root is judged by the first statement, which has a definition, and by the symbol of the
second one, which has none; what the symbols of the first statement bind is seen from there. -/
theorem check_exact_statements :
    let below (parent : Handle) (kind : Kind) : Request :=
      .create { kind, parent := some parent }
    let f := ({} : Forest).afterAll [.create { kind := .root }, below 0 .statement, below 1 .symbol,
      below 1 .symbol, below 0 .statement, below 4 .symbol, .bind 2 "x" (.literal "1"),
      .bind 3 "x" (.literal "2"), .bindDefinition 1 (.script ⟨1, "expr", "x + y", .ok ["x", "y"]⟩)]
    let complaints : List Diagnostic := [.ambiguousBinding 1 "x" [⟨[1, 2], "x", .literal "1"⟩,
      ⟨[1, 3], "x", .literal "2"⟩], .missingBinding 1 "y", .conceptUndefined 5]
    f.DefinitionsOwned ∧ f.contains 0 = true ∧ f.check .conjunctive 0 = .ok complaints ∧
      f.check .never 0 = .ok [.conceptUndefined 0] ∧
      ∃ ds vs, ds.Pairwise f.Precedes ∧ ds.Nodup ∧ (∀ d, d ∈ ds ↔ f.JudgedBy 0 d) ∧
        List.Forall₂ f.SaidOf ds vs ∧ vs.flatten = complaints := by
  intro below f complaints
  have owned : f.DefinitionsOwned := by decide +kernel
  have live : f.contains 0 = true := by decide +kernel
  have checked : f.check .conjunctive 0 = .ok complaints := by decide +kernel
  have bare : (f.ownDefinition? 0).isNone = true := by decide +kernel
  obtain ⟨⟨ds, vs, order, nodup, exact, said, judged⟩, -, never, -⟩ := check_exact _ 0 owned live
  exact ⟨owned, live, checked, never (Option.isNone_iff_eq_none.mp bare), ds, vs, order, nodup, exact,
    said, (Except.ok.inj (checked.symm.trans judged)).symm⟩

end Forest

end ConceptForest
