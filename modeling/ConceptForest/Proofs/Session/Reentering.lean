import ConceptForest.Proofs.Forest.Refound
import ConceptForest.Proofs.Session.EnteringParts
import ConceptForest.Proofs.Session.Lines

/-!
Parts that are entered again.

When a line that has lifted a part of the forest is interpreted again, its arguments are built anew
and mean at least what they meant before. A run of children has become one concept, so that is
entered and nothing is lifted; several whole children are found again below the concept that was put
over them, and are lifted once more.

* `exists_turns` — what one command that enters a part makes of a session.
* `interpret_enterPart_again` — what the same line makes of the session after it.
* `lifted_twice` — both conditions are needed: the forest does grow otherwise.
-/

namespace ConceptForest

open Grammar (Symbol Expression Program)
open Build (Resolves slotsOfSymbols startsFrom)

namespace Forest

variable {f g d : Forest} {c h new k : Handle} {e e' : Expansion} {m : Match}

/-! ### Entering again -/

/-- No text that was typed or given by a user names one of so many handles from the first one on. -/
def Unclaimed (f : Forest) (first size : Nat) : Prop :=
  f.Every fun c => ∀ r ∈ c.representations, (r.level = .inputMorphism ∨ r.level = .userSupplied) →
    ∀ n, first ≤ n → n < first + size → ¬ NamesConcept r.raw n

theorem Enters.of_whole (enters : f.Enters e g (.whole h) k) :
    (∀ x, g.get? x = f.get? x) ∧ k = h := by
  cases enters with
  | whole same => exact ⟨same, rfl⟩
  | neighbours _ several => exact absurd several (by simp)

/-- Several whole children that are all there are get a new concept over them. -/
theorem Enters.wraps_all (wf : f.WellFormed) (enters : f.Enters e g m k)
    (several : 2 ≤ m.concepts.length) (all : f.childrenOf c = m.concepts) :
    f.Wraps g k c [] m.concepts [] := by
  cases enters with
  | whole => exact absurd several (by simp [Match.whole])
  | part => exact absurd several (by simp)
  | @neighbours _ owner before run after _ wraps =>
    have all : f.childrenOf c = run := all
    obtain rfl : c = owner := wraps.eq_owner wf fun s mem => all ▸ mem
    have length := congrArg List.length (wraps.children.symm.trans all)
    simp only [List.length_append] at length
    obtain rfl : before = [] := List.eq_nil_of_length_eq_zero (by omega)
    obtain rfl : after = [] := List.eq_nil_of_length_eq_zero (by omega)
    exact wraps

/-- What has been lifted is found again: as the new concept if it was a part of one concept, and
otherwise below it. -/
theorem Enters.again (wf : f.WellFormed) (wf' : g.WellFormed) (enters : f.Enters e g m new)
    (lifted : f.contains new = false) (live : f.contains c = true) (found : f.FoundAt e c m)
    (rewords : f.Rewords e e') :
    m.concepts.length = 1 ∧ g.FoundAt e' new (.whole new) ∨
      2 ≤ m.concepts.length ∧ g.FoundAt e' new m ∧ g.childrenOf new = m.concepts := by
  cases enters with
  | whole =>
    cases found with
    | whole =>
      rw [live] at lifted
      cases lifted
    | spanning _ spans => exact absurd spans.several (by simp [Match.whole])
  | part wraps => exact .inl ⟨rfl, found.whole_of_part wf wf' wraps rewords⟩
  | neighbours wraps several _ whole =>
    exact .inr ⟨several, found.neighbours wf wf' wraps rewords several whole, wraps.childrenOf_new⟩

end Forest

namespace Session

variable {s t u : Session} {root : Handle} {word line : String} {args : List Symbol}
  {e e' : Expansion} {ms : List Match}

/-! ### The arguments -/

/-- The arguments of a command stand behind the command itself, one behind the other. -/
theorem holds_called (rest : s.AtRest root) (word : String)
    (resolves : Resolves s.registry (Grammar.snippetsOfSymbols args)) :
    (s.called word args).forest.Holds (s.forest.next + 1)
        (slotsOfSymbols s.registry s.forest.next (s.forest.next + 1) args) ∧
      (s.invocation word args).args = startsFrom (s.forest.next + 1) (args.map Symbol.size) := by
  have live := rest.stays_current.1
  have old := Forest.lt_next_of_contains live
  obtain ⟨g, c, granted, built, top, called, invocation⟩ := exists_called rest word resolves
  obtain ⟨g', granted', -, laid⟩ := Build.exists_lays_buildExpression rest.forest.wellFormed live
    (.command word args) resolves
  obtain ⟨⟩ := ((Edit.buildOne_eq live resolves).trans granted').symm.trans granted
  have made : g.get? s.forest.next =
      some (Build.builtCommand s.current s.forest.next word args) := laid.get?_new 0
  obtain rfl := Option.some.inj (made.symm.trans top)
  rw [called, invocation]
  refine ⟨Forest.holds_of_get? fun i _ => ?_, rfl⟩
  have beyond : s.forest.next < s.forest.next + 1 + i :=
    Nat.lt_of_lt_of_le (Nat.lt_succ_self _) (Nat.le_add_right _ i)
  rw [Forest.get?_detached ((Forest.parent?_of_get? top).trans rfl) (Nat.ne_of_lt old),
    if_neg (Nat.ne_of_gt beyond), if_neg (Nat.ne_of_gt (Nat.lt_trans old beyond)), Nat.add_assoc,
    Nat.add_comm 1]
  exact laid.get?_new (i + 1)

/-- What the user has not named before the arguments are built, nothing names. -/
theorem unnamed_of_unclaimed (reachable : s.Reachable) {size : Nat}
    (unclaimed : s.forest.Unclaimed (s.forest.next + 1) size) :
    ∀ n, s.forest.next + 1 ≤ n → n < s.forest.next + 1 + size → s.forest.Unnamed n := by
  intro n late within h c live r mem names
  have rest := reachable.atRest.1
  have own : c.identifier = .assigned h := by
    rw [(rest.forest.orderly _ c live id).identifier_eq, rest.forest.wellFormed.handle_eq live]
  have ne : h ≠ n :=
    Nat.ne_of_lt (Nat.lt_trans (Forest.lt_next_of_get? live) (Nat.lt_of_succ_le late))
  exact unclaimed h c live r mem ((reachable.labelled h c live r mem).level_eq own names ne) n late
    within names

/-- What the arguments of a command mean of a forest they mean of it in a later session as well. -/
theorem rewords_of_taken (reachable : s.Reachable) (taken : s.Taken t root)
    (resolves : Resolves s.registry (Grammar.snippetsOfSymbols args))
    (unclaimed : s.forest.Unclaimed (s.forest.next + 1) (Grammar.sizeAll args))
    (means : (s.called word args).forest.reference (s.invocation word args).args = .ok (some e))
    (means' : (t.called word args).forest.reference (t.invocation word args).args = .ok (some e')) :
    s.forest.Rewords e e' := by
  have rest := reachable.atRest.1
  have resolves' : Resolves t.registry (Grammar.snippetsOfSymbols args) :=
    taken.registry_eq ▸ resolves
  obtain ⟨holds, args_eq⟩ := holds_called rest word resolves
  obtain ⟨holds', args_eq'⟩ := holds_called taken.rest word resolves'
  rw [args_eq] at means
  rw [args_eq'] at means'
  rw [taken.registry_eq] at holds'
  exact Forest.rewords_reference rest.forest.wellFormed resolves holds holds'
    (unnamed_of_unclaimed reachable unclaimed) means means'

/-! ### One command -/

/-- What becomes of a session where the parts of its forest that are meant are looked for: the one
part that there is has been entered, or nothing has been done. -/
inductive Turns (s t : Session) (e : Expansion) (ms : List Match) : Outcome → Prop where
  | entered {c : Handle} {m : Match} {report : List Prompt} (only : ms = [m])
    (live : s.forest.contains c = true) (found : s.forest.FoundAt e c m)
    (enters : s.forest.Enters e t.forest m t.current) : Turns s t e ms (.completed report)
  | stayed {reason : Prompt} (same : ∀ k, t.forest.get? k = s.forest.get? k)
    (current_eq : t.current = s.current) : Turns s t e ms (.refused reason)

/-- A command with arguments that enters a part always comes to an outcome, and the parts that it
has looked for are all that there are. -/
theorem exists_turns (rest : s.AtRest 0) (enters : s.commands.lookup word = some .enterPart)
    (any : args ≠ []) (resolves : Resolves s.registry (Grammar.snippetsOfSymbols args)) :
    ∃ e ms outcome t,
      (s.called word args).forest.reference (s.invocation word args).args = .ok (some e) ∧
      s.forest.parts e 0 = .ok ms ∧
      (∀ c m, s.forest.contains c = true → s.forest.FoundAt e c m → m ∈ ms) ∧
      take (.command word args) s = .ok (some outcome) t ∧ s.Taken t 0 ∧
      s.Turns t e ms outcome := by
  have wf := rest.forest.wellFormed
  obtain ⟨e, reference⟩ := exists_reference_called rest word any resolves
  obtain ⟨ms, found, -, all⟩ := Forest.exists_parts wf e rest.forest.stays_root.1
  obtain ⟨outcome, t, took, taken, -⟩ := take_command rest word args resolves
  obtain ⟨u, dispatched, current_eq, after⟩ := sheds_take rest resolves took
  refine ⟨e, ms, outcome, t, reference, found, ?_, took, taken, ?_⟩
  · intro c m live here
    exact (all m).mpr ⟨c, rest.forest.owns_root_of_stays ⟨live, id⟩, here⟩
  have known : (s.called word args).commands.lookup (s.invocation word args).word =
      some .enterPart := enters
  have searched : (s.called word args).forest.resolveParts (s.called word args).topLevel e
      [(s.invocation word args).concept] = .ok ms := by
    refine (resolveParts_called rest word resolves e).trans ?_
    rwa [rest.topLevel_eq]
  have before := sheds_called rest word resolves
  rcases enterPart_cases reference searched with ⟨m, rfl, liftable, part⟩ | ⟨-, reason, refused, -⟩
  · obtain ⟨c, below, here⟩ := (all m).mp List.mem_cons_self
    have live : s.forest.contains c = true :=
      below.elim (fun same => same ▸ rest.forest.stays_root.1) Forest.Owns.contains
    obtain ⟨report, _, entered, becomes⟩ := exists_enterPart wf
      (wellFormed_called rest word resolves) before (fun made => Nat.lt_irrefl _ made.2) live
      (here.unitAt wf live liftable) liftable part
    obtain ⟨⟩ := ((dispatch_completed_iff known).mpr entered).symm.trans dispatched
    refine .entered rfl live here ?_
    rw [current_eq]
    exact becomes t.forest after taken.rest.forest.wellFormed
  · obtain ⟨⟩ := (dispatch_of_error known refused).symm.trans dispatched
    exact .stayed (before.get?_eq after) current_eq

/-- Without arguments nothing is entered. -/
theorem ne_nil_of_completed (rest : s.AtRest root)
    (enters : s.commands.lookup word = some .enterPart)
    (resolves : Resolves s.registry (Grammar.snippetsOfSymbols args)) {report : List Prompt}
    (completed : take (.command word args) s = .ok (some (.completed report)) t) : args ≠ [] := by
  rintro rfl
  obtain ⟨u, dispatched, -⟩ := sheds_take rest resolves completed
  have known : (s.called word []).commands.lookup (s.invocation word []).word =
      some .enterPart := enters
  have nothing : (s.invocation word []).args = [] := (holds_called rest word resolves).2
  have missing : (s.called word []).thePart (s.invocation word []) =
      .error (.usage ":enter_partial needs a concept or part of one to enter") := by
    rw [thePart, nothing]
    rfl
  have refused := dispatch_of_error known (bind_of_error (ask_of_error (thePart · _) missing))
  cases refused.symm.trans dispatched

/-! ### One line, twice -/

theorem resolves_of_interpret_ok {program : Program} {outcomes : List Outcome}
    (parsed : Program.parse line = .ok program) (granted : (s.interpret line).2 = .ok outcomes) :
    Resolves s.registry program.snippets := by
  by_contra missing
  obtain ⟨e, refused⟩ := interpret_of_rejects (.inr ⟨program, parsed, not_resolves_iff.mp missing⟩)
  rw [refused] at granted
  cases granted

/-- A line that is a single command is taken as the command. -/
theorem interpret_of_take (parsed : Program.parse line = .ok ⟨[.command word args]⟩)
    (resolves : Resolves s.registry (Program.snippets ⟨[.command word args]⟩)) {outcome : Outcome}
    (took : take (.command word args) s = .ok (some outcome) t) :
    s.interpret line = (t, .ok [outcome]) :=
  interpret_of_takeAll parsed resolves (bind_of_ok took)

/-- What has been lifted stays as it is, if it was a part of one concept or the command is refused
when it is given again. Otherwise one more concept is put over the same ones. -/
theorem take_enterPart_again (reachable : s.Reachable)
    (enters : s.commands.lookup word = some .enterPart) (any : args ≠ [])
    (resolves : Resolves s.registry (Grammar.snippetsOfSymbols args))
    (unclaimed : s.forest.Unclaimed (s.forest.next + 1) (Grammar.sizeAll args))
    {report : List Prompt} (took : take (.command word args) s = .ok (some (.completed report)) t)
    (lifted : s.forest.contains t.current = false) :
    ∃ e m outcome u,
      (s.called word args).forest.reference (s.invocation word args).args = .ok (some e) ∧
      s.forest.parts e 0 = .ok [m] ∧ s.forest.Enters e t.forest m t.current ∧
      take (.command word args) t = .ok (some outcome) u ∧
      (m.concepts.length = 1 ∨ outcome.isCompleted = false →
        (∀ k, u.forest.get? k = t.forest.get? k) ∧ u.current = t.current) ∧
      (m.concepts.length ≠ 1 → outcome.isCompleted = true →
        t.forest.Wraps u.forest u.current t.current [] m.concepts []) := by
  have rest := reachable.atRest.1
  have wf := rest.forest.wellFormed
  obtain ⟨e, ms, _, _, means, found, -, took', taken, turns⟩ :=
    exists_turns rest enters any resolves
  obtain ⟨⟩ := took'.symm.trans took
  have wf' := taken.rest.forest.wellFormed
  have known : t.commands.lookup word = some .enterPart := taken.commands_eq ▸ enters
  have resolves' : Resolves t.registry (Grammar.snippetsOfSymbols args) :=
    taken.registry_eq ▸ resolves
  obtain ⟨e', ms', outcome, u, means', -, all, took', -, turns'⟩ :=
    exists_turns taken.rest known any resolves'
  have rewords := rewords_of_taken reachable taken resolves unclaimed means means'
  cases turns with
  | @entered c m _ only live here entered =>
    subst only
    refine ⟨e, m, outcome, u, means, found, entered, took', ?_⟩
    cases turns' with
    | stayed same current_eq => exact ⟨fun _ => ⟨same, current_eq⟩, fun _ => nofun⟩
    | entered only _ _ entered' =>
      have now := taken.rest.stays_current.1
      rcases entered.again wf wf' lifted live here rewords with
        ⟨one, again⟩ | ⟨several, again, children⟩
      · obtain rfl := List.mem_singleton.mp (only ▸ all _ _ now again)
        exact ⟨fun _ => entered'.of_whole, fun other => absurd one other⟩
      · obtain rfl := List.mem_singleton.mp (only ▸ all _ _ now again)
        refine ⟨?_, fun _ _ => entered'.wraps_all wf' several children⟩
        rintro (one | incomplete)
        · rw [one] at several
          exact absurd several (by decide)
        · cases incomplete

/-- What becomes of a session in which a line that enters a part is interpreted again after it has
lifted one, if the user has not named the concepts of its arguments by their handles beforehand. The
line comes to an outcome. If what it lifted was a run of children, or if it is refused now, the
forest and the place in it stay as they are. Otherwise what it lifted was several whole concepts,
and one more concept is put over all of them, below the one that is over them already; nothing else
is changed. -/
theorem interpret_enterPart_again (reachable : s.Reachable)
    (enters : s.commands.lookup word = some .enterPart)
    (parsed : Program.parse line = .ok ⟨[.command word args]⟩)
    (unclaimed : s.forest.Unclaimed (s.forest.next + 1) (Grammar.sizeAll args))
    {report : List Prompt} (completed : (s.interpret line).2 = .ok [.completed report])
    (lifted : s.forest.contains (s.interpret line).1.current = false) :
    let t := (s.interpret line).1
    let u := (t.interpret line).1
    ∃ e m outcome,
      (s.called word args).forest.reference (s.invocation word args).args = .ok (some e) ∧
      s.forest.resolveParts s.topLevel e [] = .ok [m] ∧ s.forest.Enters e t.forest m t.current ∧
      (t.interpret line).2 = .ok [outcome] ∧
      (m.concepts.length = 1 ∨ outcome.isCompleted = false →
        (∀ k, u.forest.get? k = t.forest.get? k) ∧ u.current = t.current) ∧
      (m.concepts.length ≠ 1 → outcome.isCompleted = true →
        t.forest.Wraps u.forest u.current t.current [] m.concepts []) := by
  have rest := reachable.atRest.1
  have whole := resolves_of_interpret_ok parsed completed
  obtain ⟨resolves, -⟩ := Build.resolves_append.mp whole
  obtain ⟨_, t, took, taken, -⟩ := take_command rest word args resolves
  have first := interpret_of_take parsed whole took
  rw [first] at completed lifted
  obtain ⟨⟩ := completed
  have any := ne_nil_of_completed rest enters resolves took
  obtain ⟨e, m, outcome, u, means, found, entered, took', ends⟩ :=
    take_enterPart_again reachable enters any resolves unclaimed took lifted
  have second := interpret_of_take parsed (taken.registry_eq ▸ whole) took'
  have searched : s.forest.resolveParts s.topLevel e [] = .ok [m] := by rwa [rest.topLevel_eq]
  rw [first]
  dsimp only
  rw [second]
  exact ⟨e, m, outcome, means, searched, entered, rfl, ends⟩

/-- The first two symbols of a statement are lifted once, though they are entered twice. -/
theorem interpret_enterPart_again_symbols :
    let s := (Session.new (.withPython false) {}).afterLines ["a b c"]
    let line := ":enter_partial a b"
    let t := (s.interpret line).1
    s.forest.contains t.current = false ∧
      ∀ k, (t.interpret line).1.forest.get? k = t.forest.get? k := by
  intro s line t
  let args : List Symbol := [.token "a", .token "b"]
  have reachable : s.Reachable := (Reachable.new (.withPython false) {}).afterLines ["a b c"]
  have parsed : Program.parse ":enter_partial a b" =
      .ok ⟨[.command "enter_partial" [.token "a", .token "b"]]⟩ := by with_unfolding_all rfl
  have unclaimed : s.forest.Unclaimed (s.forest.next + 1) (Grammar.sizeAll args) := by
    have plain : ∀ h ∈ s.forest.handles,
        ∀ r ∈ ((s.forest.get? h).map Concept.representations).getD [],
          r.level = .inputMorphism ∨ r.level = .userSupplied → '=' ∉ r.raw.toList := by
      decide +kernel
    intro h c live r mem level n _ _ names
    have there : r ∈ ((s.forest.get? h).map Concept.representations).getD [] := by
      rwa [live]
    obtain ⟨front, text, -⟩ := names.exists_toList
    have mark : '=' ∈ r.raw.toList := text ▸ List.mem_append_right _ List.mem_cons_self
    exact plain h (Forest.mem_handles.mpr (Forest.contains_of_get? live)) r there level mark
  have completed : (s.interpret line).2 = .ok [.completed
      [.info "lifted [a b c](0..2) into a new concept and entered it"]] := by decide +kernel
  have lifted : s.forest.contains t.current = false := by decide +kernel
  have parts : ((s.called "enter_partial" args).forest.reference
      (s.invocation "enter_partial" args).args).toOption.join.bind (fun e =>
        (s.forest.resolveParts s.topLevel e []).toOption) = some [⟨[1], [.span 0 2]⟩] := by
    decide +kernel
  obtain ⟨e, m, outcome, means, found, -, -, stays, -⟩ :=
    interpret_enterPart_again reachable (by decide +kernel) parsed unclaimed completed lifted
  have one : m.concepts.length = 1 := by
    rw [means] at parts
    have parts : (s.forest.resolveParts s.topLevel e []).toOption = _ := parts
    rw [found] at parts
    obtain ⟨⟩ := parts
    rfl
  exact ⟨lifted, (stays (.inl one)).1⟩

/-- A line lifts something, and when it is interpreted again it makes one more new concept. -/
def LiftsTwice (s : Session) (line : String) : Prop :=
  let t := (s.interpret line).1
  let u := (t.interpret line).1
  (∃ report, (s.interpret line).2 = .ok [.completed report]) ∧
    s.forest.contains t.current = false ∧
    t.forest.contains u.current = false ∧ u.forest.contains u.current = true

/-- Two whole statements are lifted twice. So are two symbols, if one of them was typed as the
handle that an argument gets, and one of another statement as the handle that it gets next. -/
theorem lifted_twice :
    let s := (Session.new (.withPython false) {}).afterLines ["a b; c d"]
    let s' := (Session.new (.withPython false) {}).afterLines ["#|id=10|# b c", "#|id=14|# b d"]
    (s.Reachable ∧ s.LiftsTwice ":enter_partial a b c d") ∧
      (s'.Reachable ∧ s'.LiftsTwice ":enter_partial foo b") := by
  intro s s'
  refine ⟨⟨(Reachable.new _ _).afterLines _, ⟨?report, ?_⟩, ?_⟩,
    ⟨(Reachable.new _ _).afterLines _, ⟨?report', ?_⟩, ?_⟩⟩
  case report => exact [.info "lifted [a b] + [c d] into a new concept and entered it"]
  case report' => exact [.info "lifted [#|id=10|# b c](0..2) into a new concept and entered it"]
  all_goals decide +kernel

end Session

end ConceptForest
