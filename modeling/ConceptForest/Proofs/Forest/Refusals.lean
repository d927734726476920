import ConceptForest.Proofs.Forest.Requests

/-!
When nothing is built.

A building is refused for one of the reasons that can be known before anything is made (`Refuses`):
the parent is not live, or a snippet somewhere has no analyzer. No step of a building that has begun
is refused, so all of it is done or nothing (`build_all_or_nothing`).
-/

namespace ConceptForest

open Grammar (Symbol Expression Program Snippet)
open Script (Registry)

namespace Build

variable {f g : Forest} {registry : Registry} {parent : Handle} {snippets : List Snippet}
  {e : BuildError}

/-- Why nothing is built under a parent: it is not live, or of the snippets the first one without an
analyzer is refused. -/
inductive Refuses (f : Forest) (registry : Registry) (parent : Handle) (snippets : List Snippet) :
    BuildError → Prop where
  | parent (dead : f.contains parent = false) :
    Refuses f registry parent snippets (.forest (.conceptNotFound parent))
  | snippet {before after : List Snippet} {s : Snippet} (live : f.contains parent = true)
    (cut : snippets = before ++ s :: after) (known : Resolves registry before)
    (unknown : registry.resolve s.tag = none) :
    Refuses f registry parent snippets
      (.unsupportedContext (s.tag.getD "") registry.acceptedTags)

theorem resolves_nil : Resolves registry [] := nofun

/-- The snippets are looked at from left to right. -/
theorem checkSnippets_error_iff :
    checkSnippets registry snippets = .error e ↔ ∃ before s after,
      snippets = before ++ s :: after ∧ Resolves registry before ∧ registry.resolve s.tag = none ∧
        e = .unsupportedContext (s.tag.getD "") registry.acceptedTags := by
  induction snippets with
  | nil => simp [checkSnippets]
  | cons first rest ih =>
    cases found : registry.resolve first.tag with
    | none =>
      have refused : checkSnippets registry (first :: rest) =
          .error (.unsupportedContext (first.tag.getD "") registry.acceptedTags) := by
        simp [checkSnippets, analyzerFor, found, error_bind]
      rw [refused]
      constructor
      · rintro ⟨⟩
        exact ⟨[], first, rest, rfl, resolves_nil, found, rfl⟩
      · rintro ⟨before, s, after, cut, known, unknown, rfl⟩
        cases before with
        | nil =>
          obtain ⟨rfl, -⟩ := List.cons.inj cut
          rfl
        | cons b before =>
          obtain ⟨rfl, -⟩ := List.cons.inj cut
          obtain ⟨a, found'⟩ := known first List.mem_cons_self
          cases found.symm.trans found'
    | some a =>
      have goes_on : checkSnippets registry (first :: rest) = checkSnippets registry rest := by
        rw [checkSnippets, analyzerFor_of_resolve found, ok_bind]
      rw [goes_on, ih]
      constructor
      · rintro ⟨before, s, after, rfl, known, others⟩
        refine ⟨first :: before, s, after, rfl, ?_, others⟩
        exact List.forall_mem_cons.mpr ⟨⟨a, found⟩, known⟩
      · rintro ⟨before, s, after, cut, known, unknown, same⟩
        cases before with
        | nil =>
          obtain ⟨rfl, -⟩ := List.cons.inj cut
          cases found.symm.trans unknown
        | cons b before =>
          obtain ⟨rfl, rest⟩ := List.cons.inj cut
          exact ⟨before, s, after, rest, (List.forall_mem_cons.mp known).2, unknown, same⟩

theorem refuses_of_live (live : f.contains parent = true) :
    Refuses f registry parent snippets e ↔ checkSnippets registry snippets = .error e := by
  rw [checkSnippets_error_iff]
  constructor
  · intro refuses
    cases refuses with
    | parent dead => cases live.symm.trans dead
    | snippet _ cut known unknown => exact ⟨_, _, _, cut, known, unknown, rfl⟩
  · rintro ⟨before, s, after, cut, known, unknown, rfl⟩
    exact .snippet live cut known unknown

theorem refuses_of_dead (dead : f.contains parent = false) :
    Refuses f registry parent snippets e ↔ e = .forest (.conceptNotFound parent) := by
  constructor
  · intro refuses
    cases refuses with
    | parent => rfl
    | snippet live => cases live.symm.trans dead
  · rintro rfl
    exact .parent dead

end Build

namespace Edit

open Build (Resolves Refuses)

variable {f g : Forest} {registry : Registry} {parent : Handle} {error : BuildError}

theorem error_eq_error_iff {α : Type} {reason : BuildError} :
    (.error reason f : EStateM.Result BuildError Forest α) = .error error g ↔
      g = f ∧ error = reason := by
  constructor
  · rintro ⟨⟩
    exact ⟨rfl, rfl⟩
  · rintro ⟨rfl, rfl⟩
    rfl

/-- A building that finishes once it has begun is refused for a reason that is looked for before,
and then nothing is changed. -/
theorem checked_error_iff {α : Type} {snippets : List Snippet} {building : Edit BuildError α}
    (finishes : f.contains parent = true → Resolves registry snippets →
      ∃ a d, building f = .ok a d) :
    (do
      let _ ← Build.step <| ask (Forest.node · parent)
      ask fun _ => Build.checkSnippets registry snippets
      building : Edit BuildError α) f = .error error g ↔
        g = f ∧ Refuses f registry parent snippets error := by
  cases there : f.get? parent with
  | none =>
    have dead : f.contains parent = false := by
      rw [Forest.contains, there]
      rfl
    have refused : Build.step (ask (Forest.node · parent)) f =
        .error (.forest (.conceptNotFound parent)) f :=
      adaptExcept_of_error (Forest.ask_node_of_get?_eq_none there)
    rw [bind_of_error refused, error_eq_error_iff, Build.refuses_of_dead dead]
  | some c =>
    have live := Forest.contains_of_get? there
    have node : Build.step (ask (Forest.node · parent)) f = .ok c f :=
      adaptExcept_of_ok (Forest.ask_node_of_get? there)
    rw [Build.refuses_of_live live]
    obtain ⟨answer, check⟩ : ∃ answer, Build.checkSnippets registry snippets = answer := ⟨_, rfl⟩
    cases answer with
    | error reason =>
      have refused : ask (fun _ => Build.checkSnippets registry snippets) f = .error reason f :=
        ask_of_error _ check
      rw [bind_of_ok node, bind_of_error refused, error_eq_error_iff, check, Except.error.injEq,
        @eq_comm _ reason]
    | ok _ =>
      have resolves := Build.checkSnippets_iff.mp check
      obtain ⟨a, d, built⟩ := finishes live resolves
      rw [checked_eq live resolves, built, check]
      simp

theorem build_error_iff (wf : f.WellFormed) (program : Program) :
    build registry parent program f = .error error g ↔
      g = f ∧ Refuses f registry parent program.snippets error := by
  apply checked_error_iff
  intro live resolves
  obtain ⟨hs, d, built, -⟩ := Build.buildExpressions_of_resolves wf live _ resolves
  exact ⟨hs, d, built⟩

theorem buildOne_error_iff (wf : f.WellFormed) (e : Expression) :
    buildOne registry parent e f = .error error g ↔
      g = f ∧ Refuses f registry parent e.snippets error := by
  apply checked_error_iff
  intro live resolves
  obtain ⟨d, built, -⟩ := Build.buildExpression_of_resolves wf live e resolves
  exact ⟨f.next, d, built⟩

theorem buildText_error_iff (wf : f.WellFormed) (text : String) :
    buildText registry parent text f = .error error g ↔
      g = f ∧ ((∃ reason, Program.parse text = .error reason ∧ error = .grammar reason) ∨
        ∃ program, Program.parse text = .ok program ∧
          Refuses f registry parent program.snippets error) := by
  cases parsed : Program.parse text with
  | error reason =>
    rw [buildText_of_parse_error parsed, error_eq_error_iff]
    simp
  | ok program =>
    rw [buildText_eq parsed, build_error_iff wf]
    simp

/-- In a forest that can come about, all of a building is done or nothing.

It is refused exactly if the text cannot be read, the parent is not live, or a snippet has no
analyzer, and then the forest is as it was. Where the parent is live and all snippets have been
looked at, no step of the building itself is refused. -/
theorem build_all_or_nothing (requests : List Request) (registry : Registry) (parent : Handle) :
    let f := ({} : Forest).afterAll requests
    (∀ text error g, buildText registry parent text f = .error error g ↔
      g = f ∧ ((∃ reason, Program.parse text = .error reason ∧ error = .grammar reason) ∨
        ∃ program, Program.parse text = .ok program ∧
          Refuses f registry parent program.snippets error)) ∧
      (∀ program error g, build registry parent program f = .error error g ↔
        g = f ∧ Refuses f registry parent program.snippets error) ∧
      (∀ e error g, buildOne registry parent e f = .error error g ↔
        g = f ∧ Refuses f registry parent e.snippets error) ∧
      (f.contains parent = true →
        (∀ es, Build.checkSnippets registry (es.flatMap Expression.snippets) = .ok () →
          ∃ hs g, Build.buildExpressions registry parent es f = .ok hs g) ∧
        ∀ e : Expression, Build.checkSnippets registry e.snippets = .ok () →
          ∃ h g, Build.buildExpression registry parent e f = .ok h g) := by
  intro f
  have wf : f.WellFormed := (Forest.evolves_afterAll Forest.wellFormed_empty requests).wellFormed
  refine ⟨fun text _ _ => buildText_error_iff wf text,
    fun program _ _ => build_error_iff wf program, fun e _ _ => buildOne_error_iff wf e, ?_⟩
  intro live
  constructor
  · intro es passed
    obtain ⟨hs, g, built, -⟩ :=
      Build.buildExpressions_of_resolves wf live es (Build.checkSnippets_iff.mp passed)
    exact ⟨hs, g, built⟩
  · intro e passed
    obtain ⟨g, built, -⟩ :=
      Build.buildExpression_of_resolves wf live e (Build.checkSnippets_iff.mp passed)
    exact ⟨f.next, g, built⟩

/-- A snippet without an analyzer, deep in the last expression of a line: nothing of the line is
built. Without that snippet all of it is. -/
theorem build_all_or_nothing_block :
    let f := ({} : Forest).afterAll [.create { kind := .root }]
    (∀ error g, buildText (.withPython false) 0 "a b; :define [```ruby c```]" f = .error error g →
      g = f) ∧
      buildText (.withPython false) 0 "a b; :define [```ruby c```]" f =
        .error (.unsupportedContext "ruby" (Registry.withPython false).acceptedTags) f ∧
      ∃ hs g, Build.buildExpressions (.withPython false) 0
        [.statement [.token "a", .token "b"], .command "define" []] f = .ok hs g := by
  intro f
  have live : f.contains 0 = true := rfl
  obtain ⟨of_text, -, -, finishes⟩ :=
    build_all_or_nothing [.create { kind := .root }] (.withPython false) 0
  have parsed : Program.parse "a b; :define [```ruby c```]" =
      .ok ⟨[.statement [.token "a", .token "b"],
        .command "define" [.block [.snippet ⟨some "ruby", "c", ⟨1, 15⟩⟩]]]⟩ := by
    with_unfolding_all rfl
  have unknown : (Registry.withPython false).resolve (some "ruby") = none := by decide
  refine ⟨fun error g refused => ((of_text _ error g).mp refused).1, ?_, (finishes live).1 _ rfl⟩
  exact (of_text _ _ f).mpr ⟨rfl, .inr ⟨_, parsed, .snippet live rfl Build.resolves_nil unknown⟩⟩

end Edit

end ConceptForest
