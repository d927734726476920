import ConceptForest.Proofs.Console.Sessions
import ConceptForest.Proofs.Session.Lines

/-!
What is said in the headers of a run.

What is said about the commands of a line waits in the session that took it, and is shown in the
next header of that session. `course` lists the rounds of a run, each with what its header shows and
what its line gives the session to say.

* `prompts_interpret` — a line adds to what waits in a session just what is said about its commands.
* `accounted` — the run: whatever waits is shown first, and then all that is said on the way, in
  order and by the session that has it to say; and nothing is left to be said.
-/

namespace ConceptForest

open Grammar (Expression)

namespace Session

variable {s t : Session} {root : Handle}

/-! ### What a line adds -/

/-- What is said about the commands of a line. -/
def saidAbout (s : Session) (line : String) : List Prompt :=
  match (s.interpret line).2 with
  | .ok outcomes => outcomes.flatMap Outcome.prompts
  | .error _ => []

theorem prompts_take (rest : s.AtRest root) {e : Expression} {outcome? : Option Outcome}
    (took : take e s = .ok outcome? t) :
    t.prompts = s.prompts ++ outcome?.toList.flatMap Outcome.prompts := by
  have resolves : Build.Resolves s.registry e.snippets := by
    by_contra missing
    obtain ⟨error, refused⟩ := take_of_not_resolves e missing
    rw [refused] at took
    cases took
  have built : ∀ {g}, take e s = .ok none { s with forest := g } →
      t.prompts = s.prompts ++ outcome?.toList.flatMap Outcome.prompts := by
    intro g built
    obtain ⟨⟩ := built.symm.trans took
    simp
  cases e with
  | command name args =>
    obtain ⟨outcome, u, took', -, -, told, -⟩ := take_command rest name args resolves
    obtain ⟨⟩ := took'.symm.trans took
    simpa using told
  | statement symbols =>
    obtain ⟨g, edited, -⟩ := edit_buildOne rest (.statement symbols) resolves
    exact built ((bind_of_ok (run_get s)).trans (bind_of_ok edited))
  | snippet snippet =>
    obtain ⟨g, edited, -⟩ := edit_buildOne rest (.snippet snippet) resolves
    exact built ((bind_of_ok (run_get s)).trans (bind_of_ok edited))

theorem prompts_takeAll (reachable : s.Reachable) {es : List Expression} {outcomes : List Outcome}
    (took : takeAll es s = .ok outcomes t) :
    t.prompts = s.prompts ++ outcomes.flatMap Outcome.prompts := by
  induction es generalizing s outcomes with
  | nil =>
    obtain ⟨⟩ : EStateM.Result.ok [] s = .ok outcomes t := took
    simp
  | cons e es ih =>
    obtain ⟨outcome?, u, first, others⟩ := exists_of_bind_eq_ok took
    obtain ⟨more, v, others, done⟩ := exists_of_bind_eq_ok others
    obtain ⟨⟩ : EStateM.Result.ok (outcome?.toList ++ more) v = .ok outcomes t := done
    have next : u.Reachable := by
      have after := reachable.take e
      rwa [afterTake, leftBy_of_ok first] at after
    rw [ih next others, prompts_take reachable.atRest.1 first, List.flatMap_append,
      List.append_assoc]

/-- A line adds what is said about its commands to what waits to be said; a line that is refused
adds nothing. -/
theorem prompts_interpret (reachable : s.Reachable) (line : String) :
    (s.interpret line).1.prompts = s.prompts ++ s.saidAbout line := by
  by_cases rejects : s.Rejects line
  · obtain ⟨e, refused⟩ := interpret_of_rejects rejects
    simp [saidAbout, refused]
  · obtain ⟨_, outcomes, t, -, granted, took, -⟩ :=
      interpret_of_not_rejects reachable.atRest.1 rejects
    rw [saidAbout, granted]
    exact prompts_takeAll reachable took

end Session

/-- The session that a header is about, and what it shows of what the session has to say. -/
def Display.headed? : Display → Option (Nat × List Prompt)
  | header session _ prompts _ => some (session, prompts)
  | _ => none

namespace Console

variable {c d : Console} {index : Nat} {line : String} {s : Session}

/-! ### Rounds -/

/-- Sessions are told apart by when they were created: the numbers of those that are there, in their
order, and the number of the next one. -/
structure Roll where
  numbers : List Nat := [0]
  next : Nat := 1

/-- The sessions that are there after a line. -/
def Roll.after (roll : Roll) (index : Nat) (line : String) : Roll :=
  match asked? line with
  | some .create => { numbers := roll.numbers ++ [roll.next], next := roll.next + 1 }
  | some .finish => { roll with numbers := roll.numbers.eraseIdx index }
  | _ => roll

/-- A round of a run. -/
structure Round where
  /-- The place of the current session among the others, and its number. -/
  index : Nat
  session : Option Nat
  /-- What the header shows. -/
  shown : List Prompt
  /-- What the line gives the session to say. -/
  queued : List Prompt

/-- What a line gives the current session to say. A meta command is not about what a session has to
say. -/
def queuedBy (c : Console) (line : String) : List Prompt :=
  if isMarked line then [] else (c.currentSession?.map (·.saidAbout line)).getD []

/-- The rounds of a run. Each has a header; the last one has no line, or one that ends the run. -/
def course (c : Console) (roll : Roll) : List String → List Round
  | [] =>
    match c.current? with
    | none => []
    | some index =>
      match c.header index with
      | .error _ => []
      | .ok (_, header) => [⟨index, roll.numbers[index]?, header.prompts, []⟩]
  | line :: rest =>
    match c.current? with
    | none => []
    | some index =>
      match c.header index with
      | .error _ => []
      | .ok (d, header) =>
        let step := d.evaluate line
        ⟨index, roll.numbers[index]?, header.prompts, d.queuedBy line⟩ ::
          if step.quits then [] else step.console.course (roll.after index line) rest

/-- What is shown in the headers, each prompt with the session whose header it is. -/
def shownIn (rounds : List Round) : List (Option Nat × Prompt) :=
  rounds.flatMap fun r => r.shown.map (r.session, ·)

/-- What lines give sessions to say, each prompt with the session that has it to say. -/
def queuedIn (rounds : List Round) : List (Option Nat × Prompt) :=
  rounds.flatMap fun r => r.queued.map (r.session, ·)

theorem course_of_current?_eq_none (nobody : c.current? = none) (roll : Roll)
    (lines : List String) : c.course roll lines = [] := by
  cases lines <;> simp [course, nobody]

theorem course_nil (current : c.current? = some index) (there : c.sessions[index]? = some s)
    (roll : Roll) :
    c.course roll [] = [⟨index, roll.numbers[index]?, s.prompts, []⟩] := by
  simp [course, current, header_of_getElem? there, Display.prompts]

theorem course_cons (current : c.current? = some index) (there : c.sessions[index]? = some s)
    (roll : Roll) (line : String) (rest : List String) :
    let step := (c.heard index s).evaluate line
    c.course roll (line :: rest) =
      ⟨index, roll.numbers[index]?, s.prompts, (c.heard index s).queuedBy line⟩ ::
        if step.quits then [] else step.console.course (roll.after index line) rest := by
  simp [course, current, header_of_getElem? there, Display.prompts]

/-! ### What waits to be said -/

/-- Nothing waits to be said. -/
def Silent (c : Console) : Prop :=
  ∀ s ∈ c.sessions, s.prompts = []

/-- What waits in the current session. -/
def pending (c : Console) : List Prompt :=
  (c.currentSession?.map Session.prompts).getD []

/-- The sessions can come about, and nothing waits but in the current one. -/
structure Attentive (c : Console) : Prop where
  reachable : ∀ s ∈ c.sessions, s.Reachable
  others : ∀ i s, c.sessions[i]? = some s → c.current? ≠ some i → s.prompts = []

theorem Silent.pending_eq (silent : c.Silent) : c.pending = [] := by
  cases there : c.currentSession? with
  | none => simp [pending, there]
  | some s =>
    obtain ⟨index, -, there'⟩ := Option.bind_eq_some_iff.mp there
    simp [pending, there, silent s (List.mem_of_getElem? there')]

theorem Silent.attentive (silent : c.Silent) (reachable : ∀ s ∈ c.sessions, s.Reachable) :
    c.Attentive :=
  ⟨reachable, fun _ s there _ => silent s (List.mem_of_getElem? there)⟩

theorem pending_of_current? (current : c.current? = some index)
    (there : c.sessions[index]? = some s) : c.pending = s.prompts := by
  simp [pending, currentSession?_of_current? current, there]

/-- Once the header is shown nothing waits. -/
theorem Attentive.silent_heard (attentive : c.Attentive) (current : c.current? = some index)
    (s : Session) : (c.heard index s).Silent := by
  intro t mem
  obtain ⟨i, there⟩ := List.getElem?_of_mem mem
  rw [heard, List.getElem?_set] at there
  split at there
  · split at there
    · obtain rfl := Option.some.inj there
      rfl
    · cases there
  · next other =>
    apply attentive.others i t there
    rw [current]
    exact fun same => other (Option.some.inj same)

theorem Attentive.reachable_heard (attentive : c.Attentive) (there : c.sessions[index]? = some s) :
    ∀ t ∈ (c.heard index s).sessions, t.Reachable := by
  intro t mem
  rcases List.mem_or_eq_of_mem_set mem with old | rfl
  · exact attentive.reachable t old
  · exact (attentive.reachable s (List.mem_of_getElem? there)).takePrompts

/-! ### Single lines -/

theorem Takes.reachable {step : Step} (takes : c.Takes index line step)
    (reachable : ∀ s ∈ c.sessions, s.Reachable) : ∀ s ∈ step.console.sessions, s.Reachable := by
  intro t mem
  cases takes with
  | interprets _ there =>
    rcases List.mem_or_eq_of_mem_set mem with old | rfl
    · exact reachable t old
    · exact (reachable _ (List.mem_of_getElem? there)).interpret line
  | shows | switches => exact reachable t mem
  | creates _ _ made =>
    rcases List.mem_append.mp mem with old | new
    · exact reachable t old
    · obtain rfl := List.mem_singleton.mp new
      obtain ⟨registry, -, made⟩ := bind_eq_ok_iff.mp made
      obtain rfl := Except.ok.inj made
      exact .new registry _
  | finishes => exact reachable t (List.mem_of_mem_eraseIdx mem)

/-- A meta command gives no session anything to say. -/
theorem Takes.silent {step : Step} (takes : c.Takes index line step)
    (marked : isMarked line = true) (silent : c.Silent) : step.console.Silent := by
  intro t mem
  cases takes with
  | interprets unmarked =>
    rw [marked] at unmarked
    cases unmarked
  | shows | switches => exact silent t mem
  | creates _ _ made =>
    rcases List.mem_append.mp mem with old | new
    · exact silent t old
    · obtain rfl := List.mem_singleton.mp new
      obtain ⟨registry, -, made⟩ := bind_eq_ok_iff.mp made
      obtain rfl := Except.ok.inj made
      rfl
  | finishes => exact silent t (List.mem_of_mem_eraseIdx mem)

theorem exists_line_of_showExpanded {args : List String} {shown : List Display}
    (done : c.showExpanded args = .ok shown) : ∃ text, shown = [.line text] := by
  obtain ⟨s, -, done⟩ := bind_eq_ok_iff.mp done
  obtain ⟨sight, -, done⟩ := bind_eq_ok_iff.mp done
  dsimp only at done
  split at done
  · obtain ⟨concept, -, done⟩ := bind_eq_ok_iff.mp done
    obtain ⟨es, -, done⟩ := bind_eq_ok_iff.mp done
    exact ⟨_, (Except.ok.inj done).symm⟩
  · obtain ⟨e, -, done⟩ := bind_eq_ok_iff.mp done
    exact ⟨_, (Except.ok.inj done).symm⟩

theorem exists_line_of_showFlattened {args : List String} {shown : List Display}
    (done : c.showFlattened args = .ok shown) : ∃ text, shown = [.line text] := by
  obtain ⟨s, -, done⟩ := bind_eq_ok_iff.mp done
  obtain ⟨sight, -, done⟩ := bind_eq_ok_iff.mp done
  obtain ⟨-, done⟩ := refuse_else_eq_ok_iff.mp done
  obtain ⟨e, -, done⟩ := bind_eq_ok_iff.mp done
  exact ⟨_, (Except.ok.inj done).symm⟩

/-- A meta command that is carried out shows lines only. -/
theorem headed?_carryOut (args : List String) (m : MetaCommand) {step : Step}
    (done : c.carryOut args m = .ok step) : step.shown.filterMap Display.headed? = [] := by
  cases m with
  | list =>
    obtain ⟨⟩ := done
    simp [listing, Display.headed?]
  | switch =>
    obtain ⟨_, granted, done⟩ := bind_eq_ok_iff.mp done
    obtain ⟨⟩ := done
    rcases c.switchTo_cases args with ⟨e, refused⟩ | ⟨other, -, granted'⟩
    · rw [refused] at granted
      cases granted
    · obtain ⟨⟩ := granted'.symm.trans granted
      rfl
  | create =>
    obtain ⟨_, granted, done⟩ := bind_eq_ok_iff.mp done
    obtain ⟨⟩ := done
    obtain ⟨s, -, granted⟩ := bind_eq_ok_iff.mp granted
    obtain ⟨⟩ := granted
    rfl
  | finish =>
    obtain ⟨⟩ := done
    unfold finish
    split <;> rfl
  | showExpanded =>
    obtain ⟨shown, granted, done⟩ := bind_eq_ok_iff.mp done
    obtain ⟨⟩ := done
    obtain ⟨text, rfl⟩ := exists_line_of_showExpanded granted
    rfl
  | flatten =>
    obtain ⟨shown, granted, done⟩ := bind_eq_ok_iff.mp done
    obtain ⟨⟩ := done
    obtain ⟨text, rfl⟩ := exists_line_of_showFlattened granted
    rfl
  | help =>
    obtain ⟨⟩ := done
    rw [List.filterMap_eq_nil_iff]
    intro d mem
    rcases List.mem_append.mp mem with about | names
    · rcases List.mem_cons.mp about with rfl | about
      · rfl
      · obtain ⟨m, -, rfl⟩ := List.mem_map.mp about
        rfl
    · split at names
      · obtain rfl := List.mem_singleton.mp names
        rfl
      · cases names
  | quit =>
    obtain ⟨⟩ := done
    rfl

/-- A line shows no header. -/
theorem headed?_evaluate (c : Console) (line : String) :
    (c.evaluate line).shown.filterMap Display.headed? = [] := by
  unfold evaluate
  split
  · next text _ =>
    rw [metaCommand_eq]
    split
    · next m _ =>
      split
      · next step done => exact headed?_carryOut _ m done
      · rfl
    · rfl
  · split
    · rfl
    · next s _ =>
      dsimp only
      split <;> rfl

/-! ### Runs -/

/-- The number of the current session. -/
def label (c : Console) (roll : Roll) : Option Nat :=
  c.current?.bind (roll.numbers[·]?)

/-- All prompts of a run are accounted for: the headers are those of the rounds, what is shown is
what waited at first and then all that has been given to sessions to say, in order, and in the end
nothing waits. -/
structure Accounted (c : Console) (roll : Roll) (lines : List String) : Prop where
  headers_eq : (c.run lines).shown.filterMap Display.headed? =
    (c.course roll lines).map fun r => (r.index, r.shown)
  shownIn_eq : shownIn (c.course roll lines) =
    c.pending.map (c.label roll, ·) ++ queuedIn (c.course roll lines)
  silent : (c.run lines).console.Silent

/-- After the header a line is taken. Either it is for the session, and what that has to say then
will be shown next in a header of the same session, or nothing waits. -/
theorem Takes.waits {step : Step} (takes : d.Takes index line step) (silent : d.Silent)
    (reachable : ∀ s ∈ d.sessions, s.Reachable) (current : d.current? = some index)
    (roll : Roll) :
    step.console.Attentive ∧ (step.quits = true → d.queuedBy line = [] ∧ step.console.Silent) ∧
      step.console.pending.map (step.console.label (roll.after index line), ·) =
        (d.queuedBy line).map (roll.numbers[index]?, ·) := by
  cases mark : isMarked line with
  | true =>
    have silent := takes.silent mark silent
    refine ⟨silent.attentive (takes.reachable reachable), fun _ => ⟨?_, silent⟩, ?_⟩
    · simp [queuedBy, mark]
    · simp [queuedBy, mark, silent.pending_eq]
  | false =>
    cases takes with
    | @interprets s _ _ there =>
      have mem := List.mem_of_getElem? there
      have said : (s.interpret line).1.prompts = s.saidAbout line := by
        rw [Session.prompts_interpret (reachable s mem), silent s mem, List.nil_append]
      have within := (List.getElem?_eq_some_iff.mp there).1
      have now : (d.sessions.set index (s.interpret line).1)[index]? = some (s.interpret line).1 :=
        List.getElem?_set_self within
      refine ⟨⟨?_, ?_⟩, nofun, ?_⟩
      · intro t inside
        rcases List.mem_or_eq_of_mem_set inside with old | rfl
        · exact reachable t old
        · exact (reachable s mem).interpret line
      · intro i t there' other
        have ne : index ≠ i := fun same => other (current.trans (congrArg some same))
        rw [List.getElem?_set_ne ne] at there'
        exact silent t (List.mem_of_getElem? there')
      · have queued : d.queuedBy line = s.saidAbout line := by
          simp [queuedBy, mark, currentSession?_of_current? current, there]
        have same : roll.after index line = roll := by
          simp [Roll.after, asked?_eq_none mark]
        have still : ({ d with sessions := d.sessions.set index (s.interpret line).1 } :
            Console).current? = some index := current
        rw [pending_of_current? still now, said, queued, same, label, current, Option.bind_some]
    | shows marked | switches marked | creates marked | finishes marked =>
      rw [mark] at marked
      cases marked

/-- Where no session is left nothing is shown and nothing waits. -/
theorem accounted_of_current?_eq_none (intact : c.Intact) (nobody : c.current? = none)
    (roll : Roll) (lines : List String) : c.Accounted roll lines := by
  have empty : c.sessions = [] := intact.current?_eq_none_iff.mp nobody
  constructor
  case headers_eq =>
    rw [run_of_current?_eq_none nobody, course_of_current?_eq_none nobody]
    rfl
  case shownIn_eq =>
    rw [course_of_current?_eq_none nobody]
    simp [shownIn, queuedIn, pending, currentSession?, nobody]
  case silent =>
    rw [run_of_current?_eq_none nobody, Silent, empty]
    exact List.forall_mem_nil _

/-- At the end of the input what waits in the current session is shown. -/
theorem accounted_nil (attentive : c.Attentive) (current : c.current? = some index)
    (there : c.sessions[index]? = some s) (roll : Roll) : c.Accounted roll [] := by
  constructor
  case headers_eq =>
    rw [run_nil current there, course_nil current there]
    rfl
  case shownIn_eq =>
    rw [course_nil current there]
    simp [shownIn, queuedIn, pending_of_current? current there, label, current]
  case silent =>
    rw [run_nil current there]
    exact attentive.silent_heard current s

/-- A line comes after a header, and before the rest of the run unless it ends the run. -/
theorem accounted_cons (current : c.current? = some index)
    (there : c.sessions[index]? = some s) (roll : Roll) (line : String) (lines : List String)
    (waits : let step := (c.heard index s).evaluate line
      (step.quits = true → (c.heard index s).queuedBy line = [] ∧ step.console.Silent) ∧
        step.console.pending.map (step.console.label (roll.after index line), ·) =
          ((c.heard index s).queuedBy line).map (roll.numbers[index]?, ·))
    (rest : ((c.heard index s).evaluate line).console.Accounted (roll.after index line) lines) :
    c.Accounted roll (line :: lines) := by
  obtain ⟨quits, waits⟩ := waits
  have no_header := headed?_evaluate (c.heard index s) line
  constructor
  case headers_eq =>
    rw [run_cons current there, course_cons current there]
    dsimp only
    split
    · simp [Display.headed?, no_header]
    · simp [Display.headed?, no_header, rest.headers_eq]
  case shownIn_eq =>
    have first : c.pending.map (c.label roll, ·) = s.prompts.map (roll.numbers[index]?, ·) := by
      rw [pending_of_current? current there, label, current, Option.bind_some]
    rw [course_cons current there, first]
    split
    · next ends => simp [shownIn, queuedIn, (quits ends).1]
    · calc shownIn (_ :: _)
          = s.prompts.map (roll.numbers[index]?, ·) ++ shownIn _ := rfl
        _ = _ := by rw [rest.shownIn_eq, waits]; rfl
  case silent =>
    rw [run_cons current there]
    split
    · next ends => exact (quits ends).2
    · exact rest.silent

/-- Nothing that is given to a session to say is lost or said twice, by induction on the lines. -/
theorem accounted (intact : c.Intact) (attentive : c.Attentive) (roll : Roll)
    (lines : List String) : c.Accounted roll lines := by
  induction lines generalizing c roll with
  | nil =>
    cases current : c.current? with
    | none => exact accounted_of_current?_eq_none intact current roll []
    | some index =>
      obtain ⟨s, there⟩ := intact.exists_session current
      exact accounted_nil attentive current there roll
  | cons line lines ih =>
    cases current : c.current? with
    | none => exact accounted_of_current?_eq_none intact current roll (line :: lines)
    | some index =>
      obtain ⟨s, there⟩ := intact.exists_session current
      have takes := takes_evaluate (intact.heard index s) current line
      obtain ⟨attentive', waits⟩ := takes.waits (attentive.silent_heard current s)
        (attentive.reachable_heard there) current roll
      have rest := ih (intact.evaluate current s line) attentive' (roll.after index line)
      exact accounted_cons current there roll line lines waits rest

/-! ### Numbers -/

/-- Each of the sessions has a number. -/
def Roll.Covers (roll : Roll) (c : Console) : Prop :=
  roll.numbers.length = c.sessions.length

theorem Takes.covers {step : Step} (takes : c.Takes index line step) {roll : Roll}
    (covers : roll.Covers c) : (roll.after index line).Covers step.console := by
  unfold Roll.Covers at covers ⊢
  cases takes with
  | interprets unmarked => simp [Roll.after, asked?_eq_none unmarked, covers]
  | shows _ no_create no_finish =>
    unfold Roll.after
    split
    · next asks => exact absurd asks no_create
    · next asks => exact absurd asks no_finish
    · exact covers
  | switches _ asks => simp [Roll.after, asks, covers]
  | creates _ asks => simp [Roll.after, asks, covers]
  | finishes _ asks => simp [Roll.after, asks, covers, List.length_eraseIdx]

/-- The session of every round has a number. -/
theorem exists_number (intact : c.Intact) {roll : Roll} (covers : roll.Covers c)
    (lines : List String) : ∀ r ∈ c.course roll lines, ∃ number, r.session = some number := by
  induction lines generalizing c roll with
  | nil =>
    cases current : c.current? with
    | none =>
      rw [course_of_current?_eq_none current]
      nofun
    | some index =>
      obtain ⟨s, there⟩ := intact.exists_session current
      rw [course_nil current there]
      intro r mem
      obtain rfl := List.mem_singleton.mp mem
      exact ⟨_, List.getElem?_eq_getElem (covers ▸ intact.lt_length index current)⟩
  | cons line lines ih =>
    cases current : c.current? with
    | none =>
      rw [course_of_current?_eq_none current]
      nofun
    | some index =>
      obtain ⟨s, there⟩ := intact.exists_session current
      have takes := takes_evaluate (intact.heard index s) current line
      have covers' : roll.Covers (c.heard index s) := covers.trans (List.length_set ..).symm
      rw [course_cons current there]
      intro r mem
      rcases List.mem_cons.mp mem with rfl | later
      · exact ⟨_, List.getElem?_eq_getElem (covers ▸ intact.lt_length index current)⟩
      · split at later
        · cases later
        · exact ih (intact.evaluate current s line) (takes.covers covers') r later

/-! ### What is promised of every run -/

/-- No prompt is lost or shown twice in a run of a new front end. The headers of the run are those
of its rounds; the prompts in them are those that the lines give sessions to say, in the same order
and each in a header of the session that has it to say; and when the run has ended, however it has
ended, nothing waits to be said in any session. -/
theorem run_prompts {config : Config} {registry : Script.Registry}
    (accepted : config.registry = .ok registry) (format : Format) (input : String) :
    ∃ c, start config format = .ok c ∧
      let rounds := c.course {} (inputLines input)
      let run := c.run (inputLines input)
      run.shown.filterMap Display.headed? = (rounds.map fun r => (r.index, r.shown)) ∧
        shownIn rounds = queuedIn rounds ∧
          (∀ r ∈ rounds, ∃ number, r.session = some number) ∧
            ∀ s ∈ run.console.sessions, s.prompts = [] := by
  have intact := intact_of_registry accepted format (.new registry config.settings)
  refine ⟨_, start_of_registry format accepted, ?_⟩
  have silent : Silent
      { sessions := [.new registry config.settings], current? := some 0, config, format } := by
    intro s mem
    obtain rfl := List.mem_singleton.mp mem
    rfl
  have attentive := silent.attentive fun s mem => by
    obtain rfl := List.mem_singleton.mp mem
    exact .new registry config.settings
  obtain ⟨headers, shown, silent_end⟩ := accounted intact attentive {} (inputLines input)
  rw [silent.pending_eq] at shown
  have covers : Roll.Covers {}
      { sessions := [.new registry config.settings], current? := some 0, config, format } := rfl
  exact ⟨headers, shown, exists_number intact covers (inputLines input), silent_end⟩

theorem run_prompts_finish :
    ∃ c, start {} .text = .ok c ∧
      let lines := inputLines ":frobnicate\n:/create\n:/switch 1\n:lookup ab\n:/finish\n:/finish\n"
      shownIn (c.course {} lines) = queuedIn (c.course {} lines) := by
  obtain ⟨c, started, -, shown, -⟩ :=
    run_prompts (show ({} : Config).registry = .ok _ from rfl) .text
      ":frobnicate\n:/create\n:/switch 1\n:lookup ab\n:/finish\n:/finish\n"
  exact ⟨c, started, shown⟩

end Console

end ConceptForest
