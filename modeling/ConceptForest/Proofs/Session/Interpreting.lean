import ConceptForest.Proofs.Session.Calls
import ConceptForest.Proofs.Session.Serving

/-!
What taking expressions does to a session.

Between expressions a session is at rest. Taking an expression whose snippets have analyzers is
never refused and leaves the session at rest again (`take_of_resolves`), and so does taking any
number of them (`takeAll_of_resolves`). What a command was built as is gone after it, and where the
command was refused, or only had something to tell, nothing else has changed either
(`take_command`).
-/

namespace ConceptForest

open Grammar (Symbol Expression Program Snippet)
open Build (Resolves)

namespace Outcome

/-- Has the command been carried out? -/
def isCompleted : Outcome → Bool
  | completed _ => true
  | _ => false

/-- What is said about a command tells whether it has been carried out. -/
structure Honest (outcome : Outcome) : Prop where
  quiet : outcome.isCompleted = true → ∀ p ∈ outcome.prompts, p.kind.isFailure = false
  failure : outcome.isCompleted = false →
    ∃ p, outcome.prompts = [p] ∧ p.kind.isFailure = true

theorem honest_completed {report : List Prompt} (quiet : Session.Quiet report) :
    (completed report).Honest where
  quiet _ := quiet
  failure incomplete := by cases incomplete

theorem honest_refused {reason : Prompt} (failure : reason.kind.isFailure = true) :
    (refused reason).Honest where
  quiet complete := by cases complete
  failure _ := ⟨reason, rfl, failure⟩

theorem honest_unknownCommand (word : String) : (unknownCommand word).Honest where
  quiet complete := by cases complete
  failure _ := ⟨_, rfl, rfl⟩

end Outcome

namespace Session

variable {s t u : Session} {root top : Handle} {going : Handle → Prop}

/-! ### Dispatching -/

/-- The word calls a command that only tells something. -/
def ReadsOnly (s : Session) (word : String) : Prop :=
  ∃ command, s.commands.lookup word = some command ∧ command.readsOnly = true

theorem dispatch_completed_iff {call : Invocation} {command : Command} {report : List Prompt}
    (known : s.commands.lookup call.word = some command) :
    dispatch call s = .ok (.completed report) t ↔ command.run call s = .ok report t := by
  simp only [dispatch, known]
  cases command.run call s with
  | ok told u => simp
  | error reason u => simp

theorem dispatch_of_error {call : Invocation} {command : Command} {reason : Prompt}
    (known : s.commands.lookup call.word = some command)
    (refused : command.run call s = .error reason t) :
    dispatch call s = .ok (.refused reason) t := by
  simp only [dispatch, known, refused]

/-- A command always comes to an outcome, and changes nothing if it is refused or only tells
something. -/
theorem dispatch_spec (tidy : s.Tidy root top going) (call : Invocation) :
    ∃ outcome t, dispatch call s = .ok outcome t ∧ s.Served t root top going ∧ outcome.Honest ∧
      (outcome.isCompleted = false ∨ s.ReadsOnly call.word → t = s) := by
  cases found : s.commands.lookup call.word with
  | none =>
    exact ⟨.unknownCommand call.word, s, by simp [dispatch, found], .refl tidy,
      Outcome.honest_unknownCommand call.word, fun _ => rfl⟩
  | some command =>
    rcases serves_run tidy command call with
      ⟨p, refused, failure⟩ | ⟨report, t, granted, quiet, served⟩
    · exact ⟨.refused p, s, dispatch_of_error found refused, .refl tidy,
        Outcome.honest_refused failure, fun _ => rfl⟩
    · refine ⟨.completed report, t, (dispatch_completed_iff found).mpr granted, served,
        Outcome.honest_completed quiet, ?_⟩
      rintro (incomplete | ⟨other, found', reads⟩)
      · cases incomplete
      · obtain rfl : command = other := Option.some.inj (found.symm.trans found')
        rcases run_of_readsOnly reads call s with ⟨p, refused⟩ | ⟨told, same⟩
        · rw [refused] at granted
          cases granted
        · rw [same] at granted
          cases granted
          rfl

/-! ### One command, from its building to its release -/

/-- What taking expressions may make of a session. -/
structure Taken (s t : Session) (root : Handle) : Prop where
  rest : t.AtRest root
  lasts : s.forest.Lasts t.forest
  settings_eq : t.settings = s.settings
  commands_eq : t.commands = s.commands
  registry_eq : t.registry = s.registry

theorem Taken.refl (rest : s.AtRest root) : s.Taken s root :=
  ⟨rest, .refl _, rfl, rfl, rfl⟩

theorem Taken.trans (first : s.Taken t root) (second : t.Taken u root) : s.Taken u root where
  rest := second.rest
  lasts := first.lasts.trans second.lasts
  settings_eq := second.settings_eq.trans first.settings_eq
  commands_eq := second.commands_eq.trans first.commands_eq
  registry_eq := second.registry_eq.trans first.registry_eq

/-- Building one expression in a session. -/
theorem edit_buildOne (rest : s.AtRest root) (e : Expression)
    (resolves : Resolves s.registry e.snippets) :
    ∃ g, edit ((Edit.buildOne s.registry s.current e).adaptExcept SessionError.build) s =
        .ok s.forest.next { s with forest := g } ∧
      Build.Built s.forest s.current e g := by
  obtain ⟨g, granted, built⟩ :=
    Edit.buildOne_of_resolves rest.forest.wellFormed rest.stays_current.1 e resolves
  exact ⟨g, edit_of_ok (adaptExcept_of_ok granted), built⟩

section Call

variable {name : String} {args : List Symbol} {g : Forest}

/-- The session in which a command is carried out: the command has been built and taken out of its
owner's children. -/
theorem AtRest.calling (rest : s.AtRest root)
    (built : Build.Built s.forest s.current (.command name args) g) :
    ({ s with forest := g.detached s.forest.next } : Session).Tidy root s.forest.next
      (s.forest.Made g) := by
  have live := rest.stays_current.1
  have old := Forest.lt_next_of_contains live
  have same := Forest.get?_called_of_lt rest.forest.wellFormed live built old
  refine ⟨Forest.AtRest.called rest.forest live built, ⟨?_, ?_⟩, rest.topLevel_eq⟩
  · show (g.detached s.forest.next).contains s.current = true
    rw [Forest.contains, same]
    exact live
  · exact Forest.not_made_of_lt old

/-- The session after a command: what it was built as has been released, and what is said about it
waits to be read. -/
theorem Tidy.after (tidy : s.Tidy root top going) (top_goes : going top) {doomed : List Handle}
    (whole : ∀ k, k ∈ doomed ↔ k = top ∨ s.forest.Owns top k) (prompts : List Prompt) :
    ({ s with forest := s.forest.released doomed, prompts } : Session).AtRest root := by
  refine ⟨tidy.forest.atRest_released top_goes whole, ⟨?_, id⟩, tidy.topLevel_eq⟩
  have sheds := tidy.forest.sheds_released top_goes whole
  show (s.forest.released doomed).contains s.current = true
  rw [Forest.contains, sheds.get?_kept _ tidy.stays_current.2]
  exact tidy.stays_current.1

/-- A command that has been built is taken out of its owner's children, carried out and released. -/
theorem execute_of_dispatch {c : Concept} (top : g.get? s.forest.next = some c) {outcome : Outcome}
    (dispatched : dispatch ⟨s.forest.next, name, c.children⟩
      { s with forest := g.detached s.forest.next } = .ok outcome u)
    (tidy : u.Tidy root s.forest.next (s.forest.Made g)) :
    ∃ doomed, (∀ k, k ∈ doomed ↔ k = s.forest.next ∨ u.forest.Owns s.forest.next k) ∧
      execute s.forest.next name { s with forest := g } = .ok outcome { u with
        forest := u.forest.released doomed, prompts := u.prompts ++ outcome.prompts } := by
  have node : ask (fun s : Session => s.forest.node _) { s with forest := g } = .ok c _ :=
    ask_of_ok _ (Forest.node_of_get? top)
  have unlinked : edit (Edit.unlink s.forest.next) { s with forest := g } = .ok () _ :=
    edit_of_ok (Edit.unlink_of_contains (Forest.contains_of_get? top))
  obtain ⟨doomed, whole, released⟩ := Edit.release_of_root tidy.forest.wellFormed
    tidy.forest.contains_top tidy.forest.parent?_top
  have gone : edit (Edit.release s.forest.next) u = .ok _ _ := edit_of_ok released
  exact ⟨doomed, whole, (bind_of_ok node).trans
    ((bind_of_ok unlinked).trans ((bind_of_ok dispatched).trans (bind_of_ok gone)))⟩

/-- A command that has been built always comes to an outcome, and is released after it. -/
theorem execute_spec (rest : s.AtRest root)
    (built : Build.Built s.forest s.current (.command name args) g) :
    ∃ outcome t, execute s.forest.next name { s with forest := g } = .ok outcome t ∧
      s.Taken t root ∧ outcome.Honest ∧ t.prompts = s.prompts ++ outcome.prompts ∧
        (outcome.isCompleted = false ∨ s.ReadsOnly name →
          (∀ h, t.forest.get? h = s.forest.get? h) ∧ t.current = s.current) := by
  have live := rest.stays_current.1
  have wf := rest.forest.wellFormed
  obtain ⟨c, top, -⟩ := Forest.get?_command live built
  obtain ⟨outcome, u, dispatched, served, honest, unchanged⟩ :=
    dispatch_spec (rest.calling built) ⟨s.forest.next, name, c.children⟩
  obtain ⟨doomed, whole, executed⟩ := execute_of_dispatch top dispatched served.tidy
  have made : s.forest.Made g s.forest.next := ⟨Nat.le_refl _, Forest.lt_next_of_get? top⟩
  have before := Forest.sheds_called wf live built
  have after := served.tidy.forest.sheds_released made whole
  refine ⟨outcome, { u with
    forest := u.forest.released doomed, prompts := u.prompts ++ outcome.prompts }, executed,
    ⟨served.tidy.after made whole _, ?_, served.settings_eq, served.commands_eq,
      served.registry_eq⟩, honest, ?_, ?_⟩
  · intro h d was
    have stay := Forest.not_made_of_lt (g := g) (Forest.lt_next_of_get? was)
    obtain ⟨d', now, same⟩ := served.lasts h d ((before.get?_kept h stay).symm.trans was)
    exact ⟨d', (after.get?_kept h stay).trans now, same⟩
  · rw [served.prompts_eq]
  · intro harmless
    obtain rfl := unchanged harmless
    exact ⟨before.get?_eq after, rfl⟩

end Call

/-! ### Expressions -/

/-- Taking a command always comes to an outcome. What is said about it is said behind what was said
before, and where it was refused or only told something all else is as it was. -/
theorem take_command (rest : s.AtRest root) (name : String) (args : List Symbol)
    (resolves : Resolves s.registry (Grammar.snippetsOfSymbols args)) :
    ∃ outcome t, take (.command name args) s = .ok (some outcome) t ∧
      s.Taken t root ∧ outcome.Honest ∧ t.prompts = s.prompts ++ outcome.prompts ∧
        (outcome.isCompleted = false ∨ s.ReadsOnly name →
          (∀ h, t.forest.get? h = s.forest.get? h) ∧ t.current = s.current) := by
  obtain ⟨g, edited, built⟩ := edit_buildOne rest (.command name args) resolves
  obtain ⟨outcome, t, executed, spec⟩ := execute_spec rest built
  refine ⟨outcome, t, ?_, spec⟩
  exact (bind_of_ok (run_get s)).trans
    ((bind_of_ok edited).trans (map_of_ok (adaptExcept_of_ok executed)))

/-- There is an outcome of an expression exactly if it is a command. -/
def outcomeCount : Expression → Nat
  | .command _ _ => 1
  | _ => 0

theorem take_of_resolves (rest : s.AtRest root) (e : Expression)
    (resolves : Resolves s.registry e.snippets) :
    ∃ outcome? t, take e s = .ok outcome? t ∧ s.Taken t root ∧
      outcome?.toList.length = outcomeCount e := by
  have grown : ∀ {g}, s.forest.Grows s.current g → s.Taken { s with forest := g } root := by
    intro g grows
    have current := grows.contains rest.stays_current.1
    have rest : ({ s with forest := g } : Session).AtRest root :=
      ⟨Forest.AtRest.grown rest.forest grows, ⟨current, id⟩, rest.topLevel_eq⟩
    exact ⟨rest, grows.lasts, rfl, rfl, rfl⟩
  cases e with
  | command name args =>
    obtain ⟨outcome, t, taken, spec, -⟩ := take_command rest name args resolves
    exact ⟨some outcome, t, taken, spec, rfl⟩
  | statement symbols =>
    obtain ⟨g, edited, built⟩ := edit_buildOne rest (.statement symbols) resolves
    refine ⟨none, _, ?_, grown built, rfl⟩
    exact (bind_of_ok (run_get s)).trans (bind_of_ok edited)
  | snippet snippet =>
    obtain ⟨g, edited, built⟩ := edit_buildOne rest (.snippet snippet) resolves
    refine ⟨none, _, ?_, grown built, rfl⟩
    exact (bind_of_ok (run_get s)).trans (bind_of_ok edited)

/-- An expression with a snippet that has no analyzer is refused and leaves no trace. -/
theorem take_of_not_resolves (e : Expression) (missing : ¬ Resolves s.registry e.snippets) :
    ∃ error, take e s = .error error s := by
  rcases Edit.checked_cases e.snippets (Build.buildExpression s.registry s.current e) s.forest with
    ⟨error, refused⟩ | ⟨-, resolves, -⟩
  · exact ⟨_, (bind_of_ok (run_get s)).trans
      (bind_of_error (edit_of_error (adaptExcept_of_error refused)))⟩
  · exact absurd resolves missing

/-- Expressions whose snippets have analyzers are taken one after the other, and each command comes
to an outcome. -/
theorem takeAll_of_resolves (rest : s.AtRest root) (es : List Expression)
    (resolves : Resolves s.registry (es.flatMap Expression.snippets)) :
    ∃ outcomes t, takeAll es s = .ok outcomes t ∧ s.Taken t root ∧
      outcomes.length = (es.map outcomeCount).sum := by
  induction es generalizing s with
  | nil => exact ⟨[], s, rfl, .refl rest, rfl⟩
  | cons e es ih =>
    obtain ⟨first, others⟩ := Build.resolves_append.mp resolves
    obtain ⟨outcome?, t, took, taken, one⟩ := take_of_resolves rest e first
    obtain ⟨outcomes, u, took', taken', more⟩ :=
      ih taken.rest (taken.registry_eq ▸ others)
    refine ⟨outcome?.toList ++ outcomes, u, (bind_of_ok took).trans (bind_of_ok took'),
      taken.trans taken', ?_⟩
    rw [List.length_append, one, more, List.map_cons, List.sum_cons]

end Session

end ConceptForest
