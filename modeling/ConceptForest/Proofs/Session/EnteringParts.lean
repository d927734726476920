import ConceptForest.Proofs.Forest.Layout
import ConceptForest.Proofs.Forest.LiftedParts
import ConceptForest.Proofs.Session.Entering

/-!
Parts that are entered.

The arguments of a command are looked for in the forest as it was before, since what the command was
built as is excluded from the search and gone after it. If they mean one part, and that is a unit,
then it is a concept or neighbours, and nothing can go wrong any more when it is entered.

* `resolveParts_called` — the search is one in the forest before the command.
* `enterPart_exact` — what is entered and what is refused, and what has become of the forest.
-/

namespace ConceptForest

open Grammar (Symbol Expression)
open Build (Resolves)

namespace Forest

variable {f f' g g' : Forest} {h new owner : Handle} {before run after : List Handle}
  {going : Handle → Prop}

/-! ### What becomes of a forest -/

/-- What becomes of a forest when a match of an expansion is entered, and the concept that is
current then. If the match is a concept, that is entered and nothing is changed. If it is
neighbours, a new concept is put over them and entered; where they are given as a part of their
owner, the expansion describes the new concept as well. -/
inductive Enters (f : Forest) (e : Expansion) (g : Forest) : Match → Handle → Prop where
  | whole {h : Handle} (same : ∀ k, g.get? k = f.get? k) : Enters f e g (.whole h) h
  | part {new owner : Handle} {before run after : List Handle}
    (wraps : f.Wraps g new owner before run after) (described : g.isDescribed e new = true) :
    Enters f e g ⟨[owner], [.span before.length (before.length + run.length)]⟩ new
  | neighbours {new owner : Handle} {before run after : List Handle} {extents : List Extent}
    (wraps : f.Wraps g new owner before run after) (several : 2 ≤ run.length)
    (length : run.length = extents.length) (whole : ∀ extent ∈ extents, extent = .whole) :
    Enters f e g ⟨run, extents⟩ new

theorem Sheds.childrenOf_eq (sheds : f'.Sheds f going) (live : f.contains h = true) :
    f'.childrenOf h = f.childrenOf h := by
  have stay : ¬ going h := by
    intro goes
    rw [contains, sheds.get?_gone h goes] at live
    cases live
  rw [childrenOf, childrenOf, sheds.get?_kept h stay]

/-- Neighbours are put under a new concept in the same way whether or not there is something else,
which goes. -/
theorem Wraps.sheds (wraps : f'.Wraps g' new owner before run after) (first : f'.Sheds f going)
    (second : g'.Sheds g going) (owner_live : f.contains owner = true) (stays : ¬ going new) :
    f.Wraps g new owner before run after where
  children := (first.childrenOf_eq owner_live).symm.trans wraps.children
  run_ne_nil := wraps.run_ne_nil
  fresh := (first.get?_kept new stays).trans wraps.fresh
  get?_new := (second.get?_kept new stays).trans wraps.get?_new
  get?_old k old := by
    by_cases goes : going k
    · rw [first.get?_gone k goes, second.get?_gone k goes]
      rfl
    · rw [first.get?_kept k goes, second.get?_kept k goes, wraps.get?_old k old]

/-- Live concepts mean something as arguments, as long as there are any. -/
theorem exists_reference (wf : f.WellFormed) {hs : List Handle}
    (live : ∀ h ∈ hs, f.contains h = true) (some : hs ≠ []) :
    ∃ e, f.reference hs = .ok (.some e) := by
  have expanded : ∀ {h}, f.contains h = true → ∃ e, f.expand h = .ok e := by
    intro h there
    obtain ⟨t, tree, -⟩ := exists_tree wf there
    exact ⟨.ofTree t, by rw [expand, tree]; rfl⟩
  rcases hs with _ | ⟨h, _ | ⟨k, more⟩⟩
  · exact absurd rfl some
  · obtain ⟨e, one⟩ := expanded (live h List.mem_cons_self)
    exact ⟨e, bind_eq_ok_iff.mpr ⟨e, one, rfl⟩⟩
  · obtain ⟨es, all⟩ := exists_mapM fun h mem => expanded (live h mem)
    exact ⟨.sequence es, bind_eq_ok_iff.mpr ⟨es, all, rfl⟩⟩

end Forest

namespace Session

variable {s t u : Session} {root : Handle} {word : String} {args : List Symbol}
  {call : Invocation} {e : Expansion} {m : Match} {ms : List Match}

/-! ### The search -/

theorem wellFormed_called (rest : s.AtRest root) (word : String)
    (resolves : Resolves s.registry (Grammar.snippetsOfSymbols args)) :
    (s.called word args).forest.WellFormed := by
  obtain ⟨g, c, -, built, -, called, -⟩ := exists_called rest word resolves
  rw [called]
  exact (rest.calling built).forest.wellFormed

theorem exists_reference_called (rest : s.AtRest root) (word : String) (some : args ≠ [])
    (resolves : Resolves s.registry (Grammar.snippetsOfSymbols args)) :
    ∃ e, (s.called word args).forest.reference (s.invocation word args).args = .ok (.some e) := by
  have live := rest.stays_current.1
  obtain ⟨g, c, granted, built, top, called, invocation⟩ := exists_called rest word resolves
  obtain ⟨g', granted', -, laid⟩ := Build.exists_lays_buildExpression rest.forest.wellFormed live
    (.command word args) resolves
  obtain ⟨⟩ := ((Edit.buildOne_eq live resolves).trans granted').symm.trans granted
  have made : g.get? s.forest.next =
      .some (Build.builtCommand s.current s.forest.next word args) := laid.get?_new 0
  obtain rfl := Option.some.inj (made.symm.trans top)
  have wf := wellFormed_called rest word resolves
  have any : (s.invocation word args).args ≠ [] := by
    rw [invocation]
    cases args with
    | nil => exact absurd rfl some
    | cons => exact List.cons_ne_nil _ _
  exact Forest.exists_reference wf (fun h mem => wf.contains_child mem) any

/-- What the arguments of a command mean is looked for in the forest as it was before. -/
theorem resolveParts_called (rest : s.AtRest root) (word : String)
    (resolves : Resolves s.registry (Grammar.snippetsOfSymbols args)) (e : Expansion) :
    (s.called word args).forest.resolveParts s.topLevel e [s.forest.next] =
      s.forest.resolveParts s.topLevel e [] := by
  apply Forest.resolveParts_congr rest.forest.wellFormed (wellFormed_called rest word resolves)
  · intro k there
    have sheds := sheds_called rest word resolves
    exact (sheds.get?_kept k (Forest.not_made_of_lt (Forest.lt_next_of_contains there))).symm
  · rw [rest.topLevel_eq]
    exact List.forall_mem_singleton.mpr rest.forest.stays_root.1
  · intro x mem
    obtain rfl := List.mem_singleton.mp mem
    rw [Forest.contains, Forest.get?_eq_none_of_next_le (Nat.le_refl _)]
    rfl

/-! ### What is refused and what is granted -/

/-- Why a session does not enter what the arguments of a command mean, where these are the parts of
the forest that they mean. -/
inductive RefusesPart (s : Session) (call : Invocation) : List Match → Prompt → Prop where
  | nothing : RefusesPart s call []
      ⟨.notFound, s!"could not find concept to enter {s.forest.describeArgs call.args}"⟩
  | several {ms : List Match} (several : 2 ≤ ms.length) : RefusesPart s call ms
      (let candidates := String.intercalate "; " (ms.map fun m => m.describe s.forest)
      ⟨.ambiguous, s!"concept to enter is ambiguous: found {ms.length} matches ({candidates})"⟩)
  | broken {m : Match} (broken : m.isLiftable = false) : RefusesPart s call [m]
      ⟨.notLiftable, s!"{m.describe s.forest} cannot be treated as a unit without breaking the " ++
        "concept graph; enter a larger structure that contains all of it"⟩

/-- The arguments mean one part, or the session says that they do not. -/
theorem thePart_cases (reference : s.forest.reference call.args = .ok (some e))
    (found : s.forest.resolveParts s.topLevel e [call.concept] = .ok ms) :
    (∃ m, ms = [m] ∧ s.thePart call = .ok m) ∨
      ms.length ≠ 1 ∧ ∃ reason, s.thePart call = .error reason ∧ s.RefusesPart call ms reason := by
  unfold thePart
  simp only [orPrompt_eq_ok_iff.mpr reference, orPrompt_eq_ok_iff.mpr found, ok_bind]
  match ms with
  | [m] => exact .inl ⟨m, rfl, rfl⟩
  | [] => exact .inr ⟨by simp, _, rfl, .nothing⟩
  | _ :: _ :: _ => exact .inr ⟨by simp, _, rfl, .several (by simp)⟩

/-- A concept is entered. -/
theorem enterPart_of_whole {h : Handle} (found : s.thePart call = .ok (.whole h)) :
    ∃ report, enterPart call s = .ok report { s with current := h } :=
  ⟨_, bind_of_ok (ask_of_ok (thePart · call) found)⟩

/-- A part that is a unit is lifted, and then entered. -/
theorem enterPart_of_lift (found : s.thePart call = .ok m) (part : m.single? = none)
    (liftable : m.isLiftable = true) {k : Handle} {g : Forest}
    (granted : Edit.lift m s.forest = .ok k g) :
    ∃ report, enterPart call s = .ok report { s with forest := g, current := k } := by
  have started : enterPart call s = _ := bind_of_ok (ask_of_ok (thePart · call) found)
  simp only [part, liftable, if_true] at started
  exact ⟨_, started.trans ((bind_of_ok (run_get s)).trans
    (bind_of_ok (edit_of_ok (adaptExcept_of_ok granted))))⟩

theorem enterPart_of_broken (found : s.thePart call = .ok m) (broken : m.isLiftable = false) :
    ∃ reason, enterPart call s = .error reason s ∧ s.RefusesPart call [m] reason := by
  have part : m.single? = none := by
    rw [Option.eq_none_iff_forall_ne_some]
    intro h single
    obtain rfl := Match.single?_eq_some_iff.mp single
    cases broken
  have started : enterPart call s = _ := bind_of_ok (ask_of_ok (thePart · call) found)
  simp only [part, broken] at started
  exact ⟨_, started, .broken broken⟩

/-- The arguments mean one part that can be lifted, or the command is refused. -/
theorem enterPart_cases (reference : s.forest.reference call.args = .ok (some e))
    (found : s.forest.resolveParts s.topLevel e [call.concept] = .ok ms) :
    (∃ m, ms = [m] ∧ m.isLiftable = true ∧ s.thePart call = .ok m) ∨
      (∀ m, ms = [m] → m.isLiftable = false) ∧
        ∃ reason, enterPart call s = .error reason s ∧ s.RefusesPart call ms reason := by
  rcases thePart_cases reference found with ⟨m, rfl, part⟩ | ⟨several, reason, refused, why⟩
  · cases liftable : m.isLiftable with
    | true => exact .inl ⟨m, rfl, liftable, part⟩
    | false =>
      refine .inr ⟨?_, enterPart_of_broken part liftable⟩
      rintro _ ⟨⟩
      exact liftable
  · refine .inr ⟨?_, reason, bind_of_error (ask_of_error (thePart · call) refused), why⟩
    rintro m rfl
    exact absurd rfl several

/-- A unit is entered, while there is something else, which goes. -/
theorem exists_enterPart {f : Forest} {going : Handle → Prop} {c : Handle} (wf : f.WellFormed)
    (wf' : s.forest.WellFormed) (sheds : s.forest.Sheds f going) (stays : ¬ going s.forest.next)
    (live : f.contains c = true) (unit : f.UnitAt e c m) (liftable : m.isLiftable = true)
    (found : s.thePart call = .ok m) :
    ∃ report u, enterPart call s = .ok report u ∧
      ∀ g : Forest, u.forest.Sheds g going → g.WellFormed → f.Enters e g m u.current := by
  have children : s.forest.childrenOf c = f.childrenOf c := sheds.childrenOf_eq live
  cases unit with
  | whole =>
    obtain ⟨report, entered⟩ := enterPart_of_whole found
    exact ⟨report, _, entered, fun g after _ => .whole (sheds.get?_eq after)⟩
  | run offers described some parts =>
    obtain ⟨_, granted, wraps⟩ := Forest.lift_run wf' (children.trans parts) some
    obtain ⟨report, entered⟩ := enterPart_of_lift found rfl liftable granted
    refine ⟨report, _, entered, fun g after wf'' => ?_⟩
    have wraps := wraps.sheds sheds after live stays
    exact .part wraps (wraps.isDescribed_new wf wf'' offers described)
  | @neighbours _ run _ extents parts several length whole =>
    have part : (⟨run, extents⟩ : Match).single? = none := by
      rw [Option.eq_none_iff_forall_ne_some]
      intro h single
      obtain ⟨⟩ := Match.single?_eq_some_iff.mp single
      exact absurd several (by simp)
    obtain ⟨_, granted, wraps⟩ :=
      Forest.lift_neighbours wf' (children.trans parts) several length whole
    obtain ⟨report, entered⟩ := enterPart_of_lift found part liftable granted
    exact ⟨report, _, entered, fun g after _ =>
      .neighbours (wraps.sheds sheds after live stays) several length whole⟩

/-- What becomes of a command with arguments that enters a part of the forest, in any session that
can come about. If a snippet among the arguments has no analyzer, nothing is done. Otherwise the
parts that the arguments mean are looked for in the forest as it was before. The command is carried
out exactly if there is one part, and that is a concept or can be lifted; then it is entered. The
command is refused for no other reason than that there is no part, that there are several, or that
the one is not a unit. -/
theorem enterPart_exact (reachable : s.Reachable)
    (enters : s.commands.lookup word = some .enterPart) (some : args ≠ []) :
    (¬ Resolves s.registry (Grammar.snippetsOfSymbols args) →
      ∃ error, take (.command word args) s = .error error s) ∧
    (Resolves s.registry (Grammar.snippetsOfSymbols args) → ∃ e ms outcome t,
      (s.called word args).forest.reference (s.invocation word args).args = .ok (.some e) ∧
      s.forest.resolveParts s.topLevel e [] = .ok ms ∧
      take (.command word args) s = .ok (.some outcome) t ∧
      (outcome.isCompleted = true ↔
        ∃ m, ms = [m] ∧ ((∃ h, m = .whole h) ∨ m.isLiftable = true)) ∧
      (outcome.isCompleted = true → ∃ m, ms = [m] ∧ s.forest.Enters e t.forest m t.current) ∧
      (outcome.isCompleted = false → ∃ reason, outcome = .refused reason ∧
        (s.called word args).RefusesPart (s.invocation word args) ms reason)) := by
  have rest := reachable.atRest.1
  have wf := rest.forest.wellFormed
  refine ⟨take_of_not_resolves (.command word args), fun resolves => ?_⟩
  obtain ⟨e, reference⟩ := exists_reference_called rest word some resolves
  obtain ⟨ms, found, -, all⟩ := Forest.exists_parts wf e rest.forest.stays_root.1
  have found : s.forest.resolveParts s.topLevel e [] = .ok ms := by rwa [rest.topLevel_eq]
  obtain ⟨outcome, t, took, taken, -⟩ := take_command rest word args resolves
  obtain ⟨u, dispatched, current_eq, after⟩ := sheds_take rest resolves took
  refine ⟨e, ms, outcome, t, reference, found, took, ?_⟩
  have known : (s.called word args).commands.lookup (s.invocation word args).word =
      .some .enterPart := enters
  -- what is looked for while the command is carried out is looked for in the forest before it
  have searched : (s.called word args).forest.resolveParts (s.called word args).topLevel e
      [(s.invocation word args).concept] = .ok ms :=
    (resolveParts_called rest word resolves e).trans found
  rcases enterPart_cases reference searched with
    ⟨m, rfl, liftable, part⟩ | ⟨broken, reason, refused, why⟩
  · obtain ⟨c, below, here⟩ := (all m).mp List.mem_cons_self
    have live : s.forest.contains c = true :=
      below.elim (fun same => same ▸ rest.forest.stays_root.1) Forest.Owns.contains
    obtain ⟨report, _, entered, becomes⟩ := exists_enterPart wf
      (wellFormed_called rest word resolves) (sheds_called rest word resolves)
      (fun made => Nat.lt_irrefl _ made.2) live (here.unitAt wf live liftable) liftable part
    obtain ⟨⟩ := ((dispatch_completed_iff known).mpr entered).symm.trans dispatched
    refine ⟨⟨fun _ => ⟨m, rfl, .inr liftable⟩, fun _ => rfl⟩, fun _ => ⟨m, rfl, ?_⟩, nofun⟩
    rw [current_eq]
    exact becomes t.forest after taken.rest.forest.wellFormed
  · obtain ⟨⟩ := (dispatch_of_error known refused).symm.trans dispatched
    refine ⟨⟨nofun, ?_⟩, nofun, fun _ => ⟨reason, rfl, why⟩⟩
    rintro ⟨m, rfl, ⟨h, rfl⟩ | liftable⟩
    · cases broken _ rfl
    · cases liftable.symm.trans (broken m rfl)

/-- The first two symbols of a statement become one concept, which the arguments describe. -/
theorem enterPart_exact_symbols :
    let s := (Session.new (.withPython false) {}).afterLines ["a b c"]
    let args : List Symbol := [.token "a", .token "b"]
    ∃ e report t, s.forest.resolveParts s.topLevel e [] = .ok [⟨[1], [.span 0 2]⟩] ∧
      take (.command "enter_partial" args) s = .ok (some (.completed report)) t ∧
      s.forest.Enters e t.forest ⟨[1], [.span 0 2]⟩ t.current := by
  intro s args
  have reachable : s.Reachable := (Reachable.new (.withPython false) {}).afterLines ["a b c"]
  have enters : s.commands.lookup "enter_partial" = some .enterPart := by decide +kernel
  have any : args ≠ [] := List.cons_ne_nil _ _
  have parts : ((s.called "enter_partial" args).forest.reference
      (s.invocation "enter_partial" args).args).toOption.join.bind (fun e =>
        (s.forest.resolveParts s.topLevel e []).toOption) = some [⟨[1], [.span 0 2]⟩] := by
    decide +kernel
  obtain ⟨e, ms, outcome, t, reference, found, took, completes, becomes, -⟩ :=
    (enterPart_exact reachable enters any).2 nofun
  rw [reference] at parts
  obtain rfl : ms = [⟨[1], [.span 0 2]⟩] := by
    have parts : (s.forest.resolveParts s.topLevel e []).toOption = _ := parts
    rw [found] at parts
    exact Option.some.inj parts
  have completed : outcome.isCompleted = true := completes.mpr ⟨_, rfl, .inr rfl⟩
  obtain ⟨m, same, entered⟩ := becomes completed
  obtain rfl := (List.cons.inj same).1
  cases outcome with
  | completed report => exact ⟨e, report, t, found, took, entered⟩
  | refused | unknownCommand => cases completed

end Session

end ConceptForest
