import ConceptForest.Proofs.Session.Interpreting

/-!
Sessions as lines of input make them.

* `command_all_or_nothing` — what has been refused, or only tells something, leaves no trace but
  what is said about it.
* `interpret_error_iff` — a line is refused exactly if it cannot be read or a snippet somewhere in
  it has no analyzer, and then nothing of it is done; no other line stops half-way.
* `sound_afterLines` — what is true of a session after any lines.
-/

namespace ConceptForest

namespace Grammar

/-! ### Where snippets stand -/

/-- The snippet stands somewhere in the symbol. -/
inductive Symbol.Mentions (snippet : Snippet) : Symbol → Prop where
  | snippet : Mentions snippet (.snippet snippet)
  | block {symbols : List Symbol} {symbol : Symbol} (mem : symbol ∈ symbols)
    (inside : Mentions snippet symbol) : Mentions snippet (.block symbols)

/-- The snippet stands somewhere in the expression: on its own, in a statement, or among the
arguments of a command. -/
inductive Expression.Mentions (snippet : Snippet) : Expression → Prop where
  | snippet : Mentions snippet (.snippet snippet)
  | statement {symbols : List Symbol} {symbol : Symbol} (mem : symbol ∈ symbols)
    (inside : symbol.Mentions snippet) : Mentions snippet (.statement symbols)
  | command {name : String} {args : List Symbol} {symbol : Symbol} (mem : symbol ∈ args)
    (inside : symbol.Mentions snippet) : Mentions snippet (.command name args)

variable {snippet : Snippet}

mutual

theorem mentions_of_mem_snippets : ∀ symbol : Symbol,
    snippet ∈ symbol.snippets → symbol.Mentions snippet
  | .token _, mem => nomatch mem
  | .block symbols, mem => by
    obtain ⟨symbol, inside, mentions⟩ := mentions_of_mem_snippetsOfSymbols symbols mem
    exact .block inside mentions
  | .snippet s, mem => by
    obtain rfl := List.mem_singleton.mp mem
    exact .snippet

theorem mentions_of_mem_snippetsOfSymbols : ∀ symbols : List Symbol,
    snippet ∈ snippetsOfSymbols symbols → ∃ symbol ∈ symbols, symbol.Mentions snippet
  | [], mem => nomatch mem
  | symbol :: rest, mem => by
    rcases List.mem_append.mp mem with first | others
    · exact ⟨symbol, List.mem_cons_self, mentions_of_mem_snippets symbol first⟩
    · obtain ⟨other, inside, mentions⟩ := mentions_of_mem_snippetsOfSymbols rest others
      exact ⟨other, List.mem_cons_of_mem _ inside, mentions⟩

end

theorem mem_snippetsOfSymbols {symbols : List Symbol} {symbol : Symbol} (mem : symbol ∈ symbols)
    (inside : snippet ∈ symbol.snippets) : snippet ∈ snippetsOfSymbols symbols := by
  induction symbols with
  | nil => cases mem
  | cons first rest ih =>
    rcases List.mem_cons.mp mem with rfl | mem
    · exact List.mem_append_left _ inside
    · exact List.mem_append_right _ (ih mem)

theorem Symbol.Mentions.mem_snippets {symbol : Symbol} (mentions : symbol.Mentions snippet) :
    snippet ∈ symbol.snippets := by
  induction mentions with
  | snippet => exact List.mem_singleton.mpr rfl
  | block mem _ ih => exact mem_snippetsOfSymbols mem ih

theorem Expression.mem_snippets_iff {e : Expression} :
    snippet ∈ e.snippets ↔ e.Mentions snippet := by
  constructor
  · intro mem
    cases e with
    | statement symbols =>
      obtain ⟨symbol, inside, mentions⟩ := mentions_of_mem_snippetsOfSymbols symbols mem
      exact .statement inside mentions
    | command name args =>
      obtain ⟨symbol, inside, mentions⟩ := mentions_of_mem_snippetsOfSymbols args mem
      exact .command inside mentions
    | snippet s =>
      obtain rfl := List.mem_singleton.mp mem
      exact .snippet
  · intro mentions
    cases mentions with
    | snippet => exact List.mem_singleton.mpr rfl
    | statement mem inside => exact mem_snippetsOfSymbols mem inside.mem_snippets
    | command mem inside => exact mem_snippetsOfSymbols mem inside.mem_snippets

end Grammar

open Grammar (Symbol Expression Program Snippet)
open Build (Resolves)

namespace Session

variable {s t : Session} {root : Handle}

/-! ### Sessions that can be reached -/

/-- The session after an expression, taken or refused. -/
def afterTake (s : Session) (e : Expression) : Session :=
  leftBy (take e) s

/-- An expression that is refused leaves no trace, and any other leaves the session at rest. -/
theorem taken_afterTake (rest : s.AtRest root) (e : Expression) : s.Taken (s.afterTake e) root := by
  unfold afterTake
  by_cases resolves : Resolves s.registry e.snippets
  · obtain ⟨outcome?, t, took, taken, -⟩ := take_of_resolves rest e resolves
    rwa [leftBy_of_ok took]
  · obtain ⟨error, refused⟩ := take_of_not_resolves e resolves
    rw [leftBy_of_error refused]
    exact .refl rest

/-- The session can come about: between two expressions of a line, or between two lines, whatever
words the commands are called by. -/
inductive Reachable : Session → Prop where
  | new (registry : Script.Registry) (settings : Settings) : Reachable (.new registry settings)
  | withCommands {s : Session} (commands : NameTable Command) (before : Reachable s) :
    Reachable { s with commands }
  | take {s : Session} (e : Expression) (before : Reachable s) : Reachable (s.afterTake e)
  | takePrompts {s : Session} (before : Reachable s) : Reachable s.takePrompts.1

theorem get?_seed (h : Handle) :
    Forest.seed.get? h =
      if h = 0 then some (NewConcept.toConcept { kind := .root } 0) else none := by
  rw [Forest.seed, Forest.get?_push]
  rfl

theorem atRest_seed : Forest.seed.AtRest 0 := by
  have wf : Forest.seed.WellFormed :=
    Forest.WellFormed.push_new Forest.wellFormed_empty { kind := .root }
  have live : Forest.seed.contains 0 = true := rfl
  apply Forest.AtRest.of_root wf live rfl
  · intro h live _
    simp only [Forest.contains, get?_seed] at live
    split at live
    · next same => exact same
    · cases live
  · intro h c found
    rw [get?_seed] at found
    split at found
    · obtain rfl := Option.some.inj found
      have plain : NewConcept.Plain { kind := .root } := ⟨by simp, rfl, rfl⟩
      exact .of_plain (plain.toConcept 0)
    · cases found

/-- A session that can be reached is at rest, and its root is the concept that was there first. -/
theorem Reachable.atRest (reachable : s.Reachable) : s.AtRest 0 ∧ Forest.seed.Lasts s.forest := by
  induction reachable with
  | new registry settings => exact ⟨⟨atRest_seed, atRest_seed.stays_root, rfl⟩, .refl _⟩
  | withCommands _ _ ih => exact ⟨⟨ih.1.forest, ih.1.stays_current, ih.1.topLevel_eq⟩, ih.2⟩
  | take e _ ih =>
    have taken := taken_afterTake ih.1 e
    exact ⟨taken.rest, ih.2.trans taken.lasts⟩
  | takePrompts _ ih => exact ⟨⟨ih.1.forest, ih.1.stays_current, ih.1.topLevel_eq⟩, ih.2⟩

theorem Reachable.takeAll (reachable : s.Reachable) {es : List Expression} {outcomes : List Outcome}
    (took : takeAll es s = .ok outcomes t) : t.Reachable := by
  induction es generalizing s outcomes with
  | nil =>
    obtain ⟨⟩ : EStateM.Result.ok [] s = .ok outcomes t := took
    exact reachable
  | cons e es ih =>
    obtain ⟨outcome?, u, first, others⟩ := exists_of_bind_eq_ok took
    obtain ⟨more, v, others, done⟩ := exists_of_bind_eq_ok others
    obtain ⟨⟩ : EStateM.Result.ok (outcome?.toList ++ more) v = .ok outcomes t := done
    have next : u.Reachable := by
      have after := reachable.take e
      rwa [afterTake, leftBy_of_ok first] at after
    exact ih next others

/-! ### One command -/

/-- A command whose snippets have analyzers always comes to an outcome. Where it is refused exactly
one failure is told, and where it is carried out none; where it is refused or only tells something,
every concept, live or not, and the place in the forest are as they were before it was built. -/
theorem command_all_or_nothing (reachable : s.Reachable) (word : String) (args : List Symbol)
    (resolves : Resolves s.registry (Grammar.snippetsOfSymbols args)) :
    ∃ outcome t, take (.command word args) s = .ok (some outcome) t ∧
      t.prompts = s.prompts ++ outcome.prompts ∧
      (outcome.isCompleted = true → ∀ p ∈ outcome.prompts, p.kind.isFailure = false) ∧
      (outcome.isCompleted = false → ∃ p, outcome.prompts = [p] ∧ p.kind.isFailure = true) ∧
      (outcome.isCompleted = false ∨ s.ReadsOnly word →
        (∀ h, t.forest.get? h = s.forest.get? h) ∧ t.current = s.current ∧
          t.topLevel = s.topLevel ∧ t.settings = s.settings) := by
  have rest := reachable.atRest.1
  obtain ⟨outcome, t, took, taken, honest, told, unchanged⟩ := take_command rest word args resolves
  refine ⟨outcome, t, took, told, honest.quiet, honest.failure, fun harmless => ?_⟩
  obtain ⟨forest, current⟩ := unchanged harmless
  exact ⟨forest, current, taken.rest.topLevel_eq.trans rest.topLevel_eq.symm, taken.settings_eq⟩

/-- A command with a snippet, refused where concepts are: there is nothing to be entered. -/
theorem command_all_or_nothing_enter :
    let s := (Session.new (.withPython false) {}).afterTake (.statement [.token "a", .token "b"])
    let args : List Symbol :=
      [.token "c", .block [.snippet ⟨some "python", "f(x)", .start⟩]]
    Resolves s.registry (Grammar.snippetsOfSymbols args) ∧
      ∃ p t, take (.command "enter_concept" args) s = .ok (some (.refused p)) t ∧
        p.kind.isFailure = true ∧ t.prompts = s.prompts ++ [p] ∧
        (∀ h, t.forest.get? h = s.forest.get? h) ∧ t.current = s.current := by
  intro s args
  have resolves : Resolves s.registry (Grammar.snippetsOfSymbols args) := by
    intro snippet mem
    obtain rfl := List.mem_singleton.mp mem
    have known : (s.registry.resolve (some "python")).isSome = true := by decide +kernel
    exact Option.isSome_iff_exists.mp known
  have refused : (take (.command "enter_concept" args)).run' s =
      some (some (.refused ⟨.notFound, "could not find concept to enter 'c [f(x)]'"⟩)) := by
    decide +kernel
  obtain ⟨outcome, t, took, prompts, -, failure, unchanged⟩ :=
    command_all_or_nothing (.take _ (.new (.withPython false) {})) "enter_concept" args resolves
  have came : (take (.command "enter_concept" args)).run' s = some (some outcome) := by
    have took : take (.command "enter_concept" args) s = .ok (some outcome) t := took
    simp only [EStateM.run', EStateM.run, took]
  obtain rfl := Option.some.inj (Option.some.inj (refused.symm.trans came))
  obtain ⟨_, same, fails⟩ := failure rfl
  obtain ⟨⟩ := same
  obtain ⟨forest, current, -⟩ := unchanged (.inl rfl)
  exact ⟨resolves, _, t, took, fails, prompts, forest, current⟩

/-! ### Reading a line -/

/-- The line cannot be read, or a snippet somewhere in it has no analyzer. -/
def Rejects (s : Session) (line : String) : Prop :=
  (∃ e, Program.parse line = .error e) ∨
    ∃ program, Program.parse line = .ok program ∧ ∃ e ∈ program.expressions, ∃ snippet,
      e.Mentions snippet ∧ s.registry.resolve snippet.tag = none

theorem read_eq_ok_iff {line : String} {program : Program} :
    s.read line = .ok program ↔
      Program.parse line = .ok program ∧ Resolves s.registry program.snippets := by
  simp only [read, bind_eq_ok_iff, mapError_eq_ok_iff, ← Build.checkSnippets_iff]
  constructor
  · rintro ⟨p, parsed, ⟨⟩, checked, same⟩
    obtain rfl := Except.ok.inj same
    exact ⟨parsed, checked⟩
  · rintro ⟨parsed, checked⟩
    exact ⟨program, parsed, (), checked, rfl⟩

theorem not_resolves_iff {program : Program} :
    ¬ Resolves s.registry program.snippets ↔ ∃ e ∈ program.expressions, ∃ snippet,
      e.Mentions snippet ∧ s.registry.resolve snippet.tag = none := by
  constructor
  · intro missing
    simp only [Resolves, not_forall, not_exists] at missing
    obtain ⟨snippet, mem, unknown⟩ := missing
    obtain ⟨e, inside, mem⟩ := List.mem_flatMap.mp mem
    exact ⟨e, inside, snippet, Expression.mem_snippets_iff.mp mem,
      Option.eq_none_iff_forall_ne_some.mpr unknown⟩
  · rintro ⟨e, inside, snippet, mentions, unknown⟩ resolves
    have mem := List.mem_flatMap.mpr ⟨e, inside, Expression.mem_snippets_iff.mpr mentions⟩
    obtain ⟨a, known⟩ := resolves snippet mem
    rw [unknown] at known
    cases known

/-- The lines that are refused are those that can be known to be wrong before anything of them is
taken. -/
theorem rejects_iff {line : String} : s.Rejects line ↔ ∃ e, s.read line = .error e := by
  constructor
  · intro rejects
    cases answer : s.read line with
    | error e => exact ⟨e, rfl⟩
    | ok program =>
      obtain ⟨parsed, resolves⟩ := read_eq_ok_iff.mp answer
      rcases rejects with ⟨e, unreadable⟩ | ⟨other, parsed', missing⟩
      · rw [parsed] at unreadable
        cases unreadable
      · obtain rfl := Except.ok.inj (parsed.symm.trans parsed')
        exact absurd resolves (not_resolves_iff.mpr missing)
  · rintro ⟨e, refused⟩
    cases parsed : Program.parse line with
    | error e => exact .inl ⟨e, parsed⟩
    | ok program =>
      refine .inr ⟨program, parsed, not_resolves_iff.mp fun resolves => ?_⟩
      have granted := read_eq_ok_iff.mpr ⟨parsed, resolves⟩
      rw [granted] at refused
      cases refused

/-! ### Taking a line -/

theorem interpret_of_rejects {line : String} (rejects : s.Rejects line) :
    ∃ e, s.interpret line = (s, .error e) := by
  obtain ⟨e, refused⟩ := rejects_iff.mp rejects
  have taken : takeLine line s = .error e s := bind_of_error (ask_of_error (read · line) refused)
  exact ⟨e, by simp [interpret, taken]⟩

/-- A line is taken expression by expression if there are analyzers for its snippets. -/
theorem interpret_of_takeAll {line : String} {program : Program} {outcomes : List Outcome}
    (parsed : Program.parse line = .ok program) (resolves : Resolves s.registry program.snippets)
    (took : takeAll program.expressions s = .ok outcomes t) :
    s.interpret line = (t, .ok outcomes) := by
  have read : s.read line = .ok program := read_eq_ok_iff.mpr ⟨parsed, resolves⟩
  have taken : takeLine line s = .ok outcomes t :=
    (bind_of_ok (ask_of_ok (Session.read · line) read)).trans took
  simp [interpret, taken]

theorem interpret_of_not_rejects (rest : s.AtRest root) {line : String}
    (accepts : ¬ s.Rejects line) :
    ∃ program outcomes t, Program.parse line = .ok program ∧ s.interpret line = (t, .ok outcomes) ∧
      takeAll program.expressions s = .ok outcomes t ∧ s.Taken t root ∧
        outcomes.length = (program.expressions.map outcomeCount).sum := by
  cases answer : s.read line with
  | error e => exact absurd (rejects_iff.mpr ⟨e, answer⟩) accepts
  | ok program =>
    obtain ⟨parsed, resolves⟩ := read_eq_ok_iff.mp answer
    obtain ⟨outcomes, t, took, taken, count⟩ :=
      takeAll_of_resolves rest program.expressions resolves
    exact ⟨program, outcomes, t, parsed, interpret_of_takeAll parsed resolves took, took, taken,
      count⟩

/-- A line is refused exactly if it cannot be read or a snippet somewhere in it has no analyzer, and
then the session is as it was before. Any other line is taken to its end: there is an outcome of
each of its commands. -/
theorem interpret_error_iff (reachable : s.Reachable) (line : String) :
    ((∃ e, (s.interpret line).2 = .error e) ↔ s.Rejects line) ∧
      (s.Rejects line → (s.interpret line).1 = s) ∧
        (¬ s.Rejects line → ∃ program outcomes, Program.parse line = .ok program ∧
          (s.interpret line).2 = .ok outcomes ∧
            outcomes.length = (program.expressions.map outcomeCount).sum) := by
  by_cases rejects : s.Rejects line
  · obtain ⟨e, refused⟩ := interpret_of_rejects rejects
    rw [refused]
    refine ⟨⟨fun _ => rejects, fun _ => ⟨e, rfl⟩⟩, fun _ => rfl, ?_⟩
    intro accepts
    exact absurd rejects accepts
  · obtain ⟨program, outcomes, t, parsed, granted, -, -, count⟩ :=
      interpret_of_not_rejects reachable.atRest.1 rejects
    rw [granted]
    refine ⟨⟨?_, fun rejected => absurd rejected rejects⟩, fun rejected => absurd rejected rejects,
      fun _ => ⟨program, outcomes, parsed, rfl, count⟩⟩
    rintro ⟨e, refused⟩
    cases refused

theorem interpret_error_iff_define_ruby :
    let s := Session.new (.withPython false) {}
    let line := "a; :define [```ruby b```]"
    (∃ e, (s.interpret line).2 = .error e) ∧ (s.interpret line).1 = s := by
  intro s line
  have nothing : (s.read line).toOption.isNone = true := by decide +kernel
  have rejects : s.Rejects line := rejects_iff.mpr (exists_error_of_isNone nothing)
  obtain ⟨error_iff, unchanged, -⟩ := interpret_error_iff (.new (.withPython false) {}) line
  exact ⟨error_iff.mpr rejects, unchanged rejects⟩

theorem Reachable.interpret (reachable : s.Reachable) (line : String) :
    (s.interpret line).1.Reachable := by
  by_cases rejects : s.Rejects line
  · obtain ⟨e, refused⟩ := interpret_of_rejects rejects
    rwa [refused]
  · obtain ⟨_, _, t, -, granted, took, -⟩ := interpret_of_not_rejects reachable.atRest.1 rejects
    rw [granted]
    exact reachable.takeAll took

/-- The session after lines of input, one after the other. -/
def afterLines (s : Session) (lines : List String) : Session :=
  lines.foldl (fun s line => (s.interpret line).1) s

theorem Reachable.afterLines (reachable : s.Reachable) (lines : List String) :
    (s.afterLines lines).Reachable := by
  induction lines generalizing s with
  | nil => exact reachable
  | cons line lines ih => exact ih (reachable.interpret line)

theorem lasts_interpret (rest : s.AtRest root) (line : String) :
    s.forest.Lasts (s.interpret line).1.forest := by
  by_cases rejects : s.Rejects line
  · obtain ⟨e, refused⟩ := interpret_of_rejects rejects
    rw [refused]
    exact .refl _
  · obtain ⟨_, _, t, -, granted, -, taken, -⟩ := interpret_of_not_rejects rest rejects
    rw [granted]
    exact taken.lasts

/-! ### What is promised of every session -/

/-- What can be relied on between lines, whatever has been typed before. -/
structure Sound (s : Session) : Prop where
  /-- The forest is well-formed. -/
  wellFormed : s.forest.WellFormed
  /-- The concept that was there first is there as it was. -/
  lasts_seed : Forest.seed.Lasts s.forest
  /-- It is the root of a single tree. -/
  parent?_root : s.forest.parent? 0 = none
  owns_root : ∀ h, s.forest.contains h = true → h = 0 ∨ s.forest.Owns 0 h
  /-- It is the only concept from which references are looked for. -/
  topLevel_eq : s.topLevel = [0]
  contains_current : s.forest.contains s.current = true
  /-- Nothing is left of the commands. -/
  kind_ne : ∀ h c, s.forest.get? h = some c → c.kind ≠ .command
  /-- Names are bound to live concepts. -/
  bound : ∀ h c, s.forest.get? h = some c →
    ∀ name k, (name, Value.concept k) ∈ c.context.bindings → s.forest.contains k = true
  /-- A definition is owned by the concept that holds it. -/
  owner_eq : ∀ h c, s.forest.get? h = some c →
    ∀ d, c.context.definition? = some d → d.owner = h
  /-- The other ends of associations are live. -/
  associations : ∀ h c, s.forest.get? h = some c →
    ∀ a ∈ c.associations ++ c.associatedBy, s.forest.contains a.other = true
  /-- No two concepts have one identifier. -/
  identifier_inj : ∀ h k c d, s.forest.get? h = some c → s.forest.get? k = some d →
    c.identifier = d.identifier → h = k

theorem Reachable.sound (reachable : s.Reachable) : s.Sound := by
  obtain ⟨⟨tidy, current, topLevel⟩, lasts⟩ := reachable.atRest
  have orderly : ∀ {h c}, s.forest.get? h = some c → s.forest.Orderly (fun _ => False) c := by
    intro h c live
    exact tidy.orderly h c live id
  have identifier : ∀ {h c}, s.forest.get? h = some c → c.identifier = .assigned h := by
    intro h c live
    rw [(orderly live).identifier_eq, tidy.wellFormed.handle_eq live]
  constructor
  case wellFormed => exact tidy.wellFormed
  case lasts_seed => exact lasts
  case parent?_root => exact tidy.parent?_root
  case owns_root =>
    intro h live
    exact tidy.owns_root_of_stays ⟨live, id⟩
  case topLevel_eq => exact topLevel
  case contains_current => exact current.1
  case kind_ne =>
    intro h c live
    exact (orderly live).kind_ne
  case bound =>
    intro h c live name k mem
    exact ((orderly live).bound name k mem).1
  case owner_eq =>
    intro h c live d holds
    rw [(orderly live).owner_eq d holds, tidy.wellFormed.handle_eq live]
  case associations =>
    intro h c live a mem
    rcases List.mem_append.mp mem with mem | mem
    · exact ((orderly live).associations a mem).1
    · exact ((orderly live).associatedBy a mem).1
  case identifier_inj =>
    intro h k c d live live' same
    rw [identifier live, identifier live'] at same
    exact Identifier.assigned.inj same

/-- After any lines, whether they were refused or not, one more line leaves a sound session that
still has all the concepts that were there before the line. -/
theorem sound_afterLines (reachable : s.Reachable) (lines : List String) (line : String) :
    ((s.afterLines lines).interpret line).1.Sound ∧
      (s.afterLines lines).forest.Lasts ((s.afterLines lines).interpret line).1.forest := by
  have before := reachable.afterLines lines
  exact ⟨(before.interpret line).sound, lasts_interpret before.atRest.1 line⟩

theorem sound_afterLines_leave :
    let s := (Session.new (.withPython false) {}).afterLines ["a b", ":enter_concept a b"]
    (s.interpret ":leave_concept").1.Sound ∧
      s.forest.Lasts (s.interpret ":leave_concept").1.forest :=
  sound_afterLines (.new (.withPython false) {}) ["a b", ":enter_concept a b"] ":leave_concept"

end Session

end ConceptForest
