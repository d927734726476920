import ConceptForest.Console.Run
import ConceptForest.Proofs.Steps
import Mathlib

/-!
The sessions of a front end.

A line that is read is about the session that is current then. `Takes` says once what can become of
it; everything else about single lines follows from that.

* `takes_evaluate` — the step: what a line makes of a front end.
* `Intact` — the number of the current session is always one of a session, and there is none only
  where no session is left.
* `run_of_intact` — the run: no run of such a front end ends with an error.
-/

namespace ConceptForest

namespace Console

variable {c d : Console} {index : Nat} {line : String} {s : Session}

/-! ### What is asked by a line -/

/-- Does a line have the mark of meta commands? -/
def isMarked (line : String) : Bool :=
  (metaMark.isPrefixOf? (Text.trimStart line.toList)).isSome

/-- The meta command that a line calls, if there is one. -/
def asked? (line : String) : Option MetaCommand :=
  (metaMark.isPrefixOf? (Text.trimStart line.toList)).bind fun text =>
    MetaCommand.ofWord? ((splitBlanks text).headD "")

theorem asked?_eq_none (unmarked : isMarked line = false) : asked? line = none := by
  rw [isMarked, Option.isSome_eq_false_iff, Option.isNone_iff_eq_none] at unmarked
  rw [asked?, unmarked, Option.bind_none]

/-- What can become of a line where the session with the number is current. Whatever is shown
besides is left open. -/
inductive Takes (c : Console) (index : Nat) (line : String) : Step → Prop where
  /-- The session takes the line. -/
  | interprets {s : Session} {shown : List Display} (unmarked : isMarked line = false)
    (there : c.sessions[index]? = some s) :
    Takes c index line
      ⟨{ c with sessions := c.sessions.set index (s.interpret line).1 }, shown, false⟩
  /-- Something is shown and nothing done, or the front end is left. -/
  | shows {shown : List Display} {quits : Bool} (marked : isMarked line = true)
    (no_create : asked? line ≠ some .create) (no_finish : asked? line ≠ some .finish) :
    Takes c index line ⟨c, shown, quits⟩
  /-- Another session becomes the current one. -/
  | switches {other : Nat} {shown : List Display} (marked : isMarked line = true)
    (asks : asked? line = some .switch) (lt : other < c.sessions.length) :
    Takes c index line ⟨{ c with current? := some other }, shown, false⟩
  /-- There is a new session behind the others. -/
  | creates {s : Session} {shown : List Display} (marked : isMarked line = true)
    (asks : asked? line = some .create) (made : newSession c.config = .ok s) :
    Takes c index line ⟨{ c with sessions := c.sessions ++ [s] }, shown, false⟩
  /-- The current session is closed. -/
  | finishes {shown : List Display} (marked : isMarked line = true)
    (asks : asked? line = some .finish) :
    Takes c index line ⟨{ c with
      sessions := c.sessions.eraseIdx index
      current? := if (c.sessions.eraseIdx index).isEmpty then none else some (index - 1) },
      shown, false⟩

/-! ### Front ends that can go on -/

/-- A front end that can go on: there are settings for new sessions, and one of the sessions is
current unless there are none. -/
structure Intact (c : Console) : Prop where
  accepted : ∃ registry, c.config.registry = .ok registry
  current?_eq_none_iff : c.current? = none ↔ c.sessions = []
  lt_length : ∀ index, c.current? = some index → index < c.sessions.length

theorem newSession_of_registry {config : Config} {registry : Script.Registry}
    (accepted : config.registry = .ok registry) :
    newSession config = .ok (.new registry config.settings) := by
  rw [newSession, accepted]
  rfl

theorem start_of_registry {config : Config} {registry : Script.Registry} (format : Format)
    (accepted : config.registry = .ok registry) :
    start config format =
      .ok { sessions := [.new registry config.settings], current? := some 0, config, format } := by
  rw [start, newSession_of_registry accepted]
  rfl

/-- What is asked for behind the mark is carried out; where it is refused, that is told. -/
theorem metaCommand_eq (c : Console) (text : List Char) :
    c.metaCommand text =
      match MetaCommand.ofWord? ((splitBlanks text).headD "") with
      | some m =>
        match c.carryOut (splitBlanks text).tail m with
        | .ok step => step
        | .error e => ⟨c, [.failure e.message], false⟩
      | none =>
        ⟨c, [.failure (ConsoleError.unknownMetaCommand ((splitBlanks text).headD "")).message],
          false⟩ := by
  rw [metaCommand]
  cases splitBlanks text with
  | nil => cases MetaCommand.ofWord? "" <;> rfl
  | cons word args => 
    simp only [List.headD_cons, List.tail_cons]
    cases MetaCommand.ofWord? word <;> rfl

theorem currentSession?_of_current? (current : c.current? = some index) :
    c.currentSession? = c.sessions[index]? := by
  simp [currentSession?, current]

theorem setCurrent_of_current? (current : c.current? = some index) (s : Session) :
    c.setCurrent s = { c with sessions := c.sessions.set index s } := by
  rw [setCurrent, current]

theorem Intact.exists_session (intact : c.Intact) (current : c.current? = some index) :
    ∃ s, c.sessions[index]? = some s :=
  ⟨_, List.getElem?_eq_getElem (intact.lt_length index current)⟩

theorem switchTo_cases (c : Console) (args : List String) :
    (∃ e, c.switchTo args = .error e) ∨
      ∃ other, other < c.sessions.length ∧ c.switchTo args =
        .ok ({ c with current? := some other }, [.line s!"switched to session {other}"]) := by
  unfold switchTo
  split
  · next word =>
    split
    · next other found =>
      have within := (Option.filter_eq_some_iff.mp found).2
      exact .inr ⟨other, of_decide_eq_true within, rfl⟩
    · exact .inl ⟨_, rfl⟩
  · exact .inl ⟨_, rfl⟩

/-- A meta command is carried out or refused. -/
theorem takes_carryOut (intact : c.Intact) (current : c.current? = some index) (args : List String)
    {m : MetaCommand} (marked : isMarked line = true) (asks : asked? line = some m) :
    Takes c index line (match c.carryOut args m with
      | .ok step => step
      | .error e => ⟨c, [.failure e.message], false⟩) := by
  have looks : m ≠ .create → m ≠ .finish → ∀ {shown quits},
      Takes c index line ⟨c, shown, quits⟩ := by
    intro no_create no_finish shown quits
    refine .shows marked ?_ ?_ <;> simp [asks, no_create, no_finish]
  cases m with
  | list | help | quit => exact looks nofun nofun
  | switch =>
    rcases c.switchTo_cases args with ⟨e, refused⟩ | ⟨other, lt, granted⟩
    · rw [carryOut, refused]
      exact looks nofun nofun
    · rw [carryOut, granted]
      exact .switches marked asks lt
  | create =>
    obtain ⟨registry, accepted⟩ := intact.accepted
    have made := newSession_of_registry accepted
    rw [carryOut, create, made]
    exact .creates marked asks made
  | finish =>
    rw [carryOut, finish, current]
    exact .finishes marked asks
  | showExpanded =>
    rw [carryOut]
    cases c.showExpanded args <;> exact looks nofun nofun
  | flatten =>
    rw [carryOut]
    cases c.showFlattened args <;> exact looks nofun nofun

/-- What a line makes of a front end. -/
theorem takes_evaluate (intact : c.Intact) (current : c.current? = some index) (line : String) :
    Takes c index line (c.evaluate line) := by
  cases mark : metaMark.isPrefixOf? (Text.trimStart line.toList) with
  | none =>
    have unmarked : isMarked line = false := by rw [isMarked, mark, Option.isSome_none]
    obtain ⟨s, there⟩ := intact.exists_session current
    simp only [evaluate, mark, currentSession?_of_current? current, there,
      setCurrent_of_current? current]
    exact .interprets unmarked there
  | some text =>
    have marked : isMarked line = true := by rw [isMarked, mark, Option.isSome_some]
    have asks : asked? line = MetaCommand.ofWord? ((splitBlanks text).headD "") := by
      rw [asked?, mark, Option.bind_some]
    simp only [evaluate, mark, metaCommand_eq]
    cases called : MetaCommand.ofWord? ((splitBlanks text).headD "") with
    | none => refine .shows marked ?_ ?_ <;> rw [asks, called] <;> nofun
    | some m => exact takes_carryOut intact current _ marked (asks.trans called)

/-! ### What lines keep -/

theorem Intact.setSession (intact : c.Intact) (index : Nat) (s : Session) :
    ({ c with sessions := c.sessions.set index s } : Console).Intact where
  accepted := intact.accepted
  current?_eq_none_iff := intact.current?_eq_none_iff.trans (by simp)
  lt_length other current := by
    rw [List.length_set]
    exact intact.lt_length other current

/-- Where the current session is closed, the one before it becomes the current one, or the one that
is first now. -/
theorem Intact.finished (intact : c.Intact) (current : c.current? = some index) :
    ({ c with
      sessions := c.sessions.eraseIdx index
      current? := if (c.sessions.eraseIdx index).isEmpty then none else some (index - 1) } :
      Console).Intact where
  accepted := intact.accepted
  current?_eq_none_iff := by
    dsimp only
    split
    · next closed => exact iff_of_true rfl (List.isEmpty_iff.mp closed)
    · next left => exact iff_of_false nofun (mt List.isEmpty_iff.mpr left)
  lt_length other now := by
    have there := intact.lt_length index current
    simp only [List.isEmpty_iff] at now
    split at now
    · cases now
    · next left =>
      obtain rfl := Option.some.inj now
      have some_left := List.length_pos_iff.mpr left
      simp only [List.length_eraseIdx_of_lt there] at some_left ⊢
      omega

theorem Takes.intact {step : Step} (takes : c.Takes index line step) (intact : c.Intact)
    (current : c.current? = some index) : step.console.Intact := by
  cases takes with
  | interprets => exact intact.setSession _ _
  | shows => exact intact
  | switches _ _ lt =>
    refine ⟨intact.accepted, ?_, ?_⟩
    · simp [List.ne_nil_of_length_pos (Nat.zero_lt_of_lt lt)]
    · rintro _ ⟨⟩
      exact lt
  | creates =>
    refine ⟨intact.accepted, ?_, ?_⟩
    · simp [current]
    · intro other now
      rw [List.length_append]
      exact Nat.lt_add_right _ (intact.lt_length other now)
  | finishes => exact intact.finished current

theorem Takes.config_eq {step : Step} (takes : c.Takes index line step) :
    step.console.config = c.config := by
  cases takes <;> rfl

/-- What a line makes of the sessions: the current one takes it, or one comes or goes, or they stay
as they are. -/
theorem Takes.sessions_eq {step : Step} (takes : c.Takes index line step)
    (there : c.sessions[index]? = some s) :
    (isMarked line = false → step.console.sessions = c.sessions.set index (s.interpret line).1) ∧
      (asked? line = some .create → ∃ new, newSession c.config = .ok new ∧
        step.console.sessions = c.sessions ++ [new]) ∧
      (asked? line = some .finish → step.console.sessions = c.sessions.eraseIdx index) ∧
      (isMarked line = true → asked? line ≠ some .create → asked? line ≠ some .finish →
        step.console.sessions = c.sessions) := by
  cases takes with
  | interprets unmarked there' =>
    obtain rfl := Option.some.inj (there.symm.trans there')
    simp [unmarked, asked?_eq_none unmarked]
  | shows marked no_create no_finish => simp [marked, no_create, no_finish]
  | switches marked asks => simp [marked, asks]
  | creates marked asks made => simp [marked, asks, made]
  | finishes marked asks => simp [marked, asks]

/-! ### Runs -/

/-- The front end when a session has said what it had to say. -/
def heard (c : Console) (index : Nat) (s : Session) : Console :=
  { c with sessions := c.sessions.set index { s with prompts := [] } }

theorem header_of_getElem? (there : c.sessions[index]? = some s) :
    c.header index =
      .ok (c.heard index s, .header index s.label s.prompts c.config.invitation) := by
  simp [header, there, heard, Session.takePrompts]

theorem run_of_current?_eq_none (nobody : c.current? = none) (lines : List String) :
    c.run lines = ⟨c, [], none⟩ := by
  cases lines <;> simp [run, nobody]

/-- At the end of the input the current session still says what it has to say. -/
theorem run_nil (current : c.current? = some index) (there : c.sessions[index]? = some s) :
    c.run [] = ⟨c.heard index s,
      [.header index s.label s.prompts c.config.invitation, .ending], none⟩ := by
  simp [run, current, header_of_getElem? there]

theorem run_cons (current : c.current? = some index) (there : c.sessions[index]? = some s)
    (line : String) (rest : List String) :
    let step := (c.heard index s).evaluate line
    let header := Display.header index s.label s.prompts c.config.invitation
    c.run (line :: rest) =
      if step.quits then ⟨step.console, header :: step.shown, none⟩
      else { step.console.run rest with
        shown := header :: step.shown ++ (step.console.run rest).shown } := by
  simp [run, current, header_of_getElem? there]

/-- A run of the first front end comes to the second one, with these lines of its input left. -/
inductive Reaches : Console → List String → Console → List String → Prop where
  | refl (c : Console) (lines : List String) : Reaches c lines c lines
  | line {c d e : Console} {index : Nat} {header : Display} {line : String}
    {rest later : List String} (current : c.current? = some index)
    (shown : c.header index = .ok (d, header)) (goes_on : (d.evaluate line).quits = false)
    (onward : Reaches (d.evaluate line).console rest e later) : Reaches c (line :: rest) e later

theorem Intact.heard (intact : c.Intact) (index : Nat) (s : Session) :
    (c.heard index s).Intact :=
  intact.setSession index _

/-- A front end that can go on can go on after the next line. -/
theorem Intact.evaluate (intact : c.Intact) (current : c.current? = some index) (s : Session)
    (line : String) : ((c.heard index s).evaluate line).console.Intact :=
  (takes_evaluate (intact.heard index s) current line).intact (intact.heard index s) current

theorem Reaches.intact {lines later : List String} (reaches : Reaches c lines d later)
    (intact : c.Intact) : d.Intact := by
  induction reaches with
  | refl => exact intact
  | line current shown _ _ ih =>
    obtain ⟨s, there⟩ := intact.exists_session current
    obtain ⟨rfl, -⟩ := Prod.mk.inj (Except.ok.inj ((header_of_getElem? there).symm.trans shown))
    exact ih (intact.evaluate current s _)

/-- A run of a front end that can go on ends without an error, and the front end could go on. -/
theorem run_of_intact (intact : c.Intact) (lines : List String) :
    (c.run lines).error? = none ∧ (c.run lines).console.Intact := by
  induction lines generalizing c with
  | nil =>
    cases current : c.current? with
    | none =>
      rw [run_of_current?_eq_none current]
      exact ⟨rfl, intact⟩
    | some index =>
      obtain ⟨s, there⟩ := intact.exists_session current
      rw [run_nil current there]
      exact ⟨rfl, intact.heard index s⟩
  | cons line rest ih =>
    cases current : c.current? with
    | none =>
      rw [run_of_current?_eq_none current]
      exact ⟨rfl, intact⟩
    | some index =>
      obtain ⟨s, there⟩ := intact.exists_session current
      have next := intact.evaluate current s line
      rw [run_cons current there]
      dsimp only
      split
      · exact ⟨rfl, next⟩
      · exact ih next

theorem Reaches.config_eq {lines later : List String} (reaches : Reaches c lines d later)
    (intact : c.Intact) : d.config = c.config := by
  induction reaches with
  | refl => rfl
  | line current shown _ _ ih =>
    obtain ⟨s, there⟩ := intact.exists_session current
    obtain ⟨rfl, -⟩ := Prod.mk.inj (Except.ok.inj ((header_of_getElem? there).symm.trans shown))
    rw [ih (intact.evaluate current s _)]
    exact (takes_evaluate (intact.heard _ s) current _).config_eq

/-- What a run has come to it goes on from. -/
theorem Reaches.run_eq {lines later : List String} (reaches : Reaches c lines d later) :
    (c.run lines).console = (d.run later).console ∧
      (c.run lines).error? = (d.run later).error? := by
  induction reaches with
  | refl => exact ⟨rfl, rfl⟩
  | line current shown goes_on _ ih => simpa [run, current, shown, goes_on] using ih

/-- A run goes on by one line more. -/
theorem Reaches.next {e : Console} {header : Display} {lines rest : List String}
    (reaches : Reaches c lines d (line :: rest)) (current : d.current? = some index)
    (shown : d.header index = .ok (e, header)) (goes_on : (e.evaluate line).quits = false) :
    Reaches c lines (e.evaluate line).console rest := by
  generalize left : line :: rest = later at reaches
  induction reaches with
  | refl =>
    subst left
    exact .line current shown goes_on (.refl _ rest)
  | line current' shown' goes_on' _ ih =>
    exact .line current' shown' goes_on' (ih current shown left)

theorem intact_of_registry {config : Config} {registry : Script.Registry}
    (accepted : config.registry = .ok registry) (format : Format) (s : Session) :
    ({ sessions := [s], current? := some 0, config, format } : Console).Intact where
  accepted := ⟨registry, accepted⟩
  current?_eq_none_iff := by simp
  lt_length := by
    rintro _ ⟨⟩
    exact Nat.one_pos

/-- With a configuration that is accepted the front end can be started, and no run of it ends with an
error. Wherever a run comes, a session is current unless there is none, before and after its header
is shown and after the next line; and whatever the next line is, it changes no session but the
current one, `create` puts a new one behind the others, `finish` takes the current one away, and no
other line makes sessions come, go or change places. -/
theorem run_sessions {config : Config} {registry : Script.Registry}
    (accepted : config.registry = .ok registry) (format : Format) (input : String) :
    ∃ c, start config format = .ok c ∧ (c.run (inputLines input)).error? = none ∧
      (c.run (inputLines input)).console.Intact ∧
        ∀ d rest, Reaches c (inputLines input) d rest →
          (c.run (inputLines input)).console = (d.run rest).console ∧ d.Intact ∧
          ∀ index, d.current? = some index → ∃ s, d.sessions[index]? = some s ∧
            let e := d.heard index s
            d.header index = .ok (e, .header index s.label s.prompts config.invitation) ∧
              e.Intact ∧ ∀ line,
                let after := (e.evaluate line).console
                after.Intact ∧
                  (isMarked line = false → after.sessions =
                    d.sessions.set index (({ s with prompts := [] } : Session).interpret line).1) ∧
                  (asked? line = some .create → ∃ new, newSession config = .ok new ∧
                    after.sessions = e.sessions ++ [new]) ∧
                  (asked? line = some .finish → after.sessions = e.sessions.eraseIdx index) ∧
                  (isMarked line = true → asked? line ≠ some .create →
                    asked? line ≠ some .finish → after.sessions = e.sessions) := by
  have intact := intact_of_registry accepted format (.new registry config.settings)
  obtain ⟨no_error, intact_end⟩ := run_of_intact intact (inputLines input)
  refine ⟨_, start_of_registry format accepted, no_error, intact_end, ?_⟩
  intro d rest reaches
  have config_eq : d.config = config := reaches.config_eq intact
  have intact := reaches.intact intact
  refine ⟨reaches.run_eq.1, intact, ?_⟩
  intro index current
  obtain ⟨s, there⟩ := intact.exists_session current
  refine ⟨s, there, ?_, intact.heard index s, ?_⟩
  · rw [← config_eq]
    exact header_of_getElem? there
  · intro line
    have within := intact.lt_length index current
    have there' : (d.heard index s).sessions[index]? = some { s with prompts := [] } :=
      List.getElem?_set_self within
    obtain ⟨unmarked, create, finish, other⟩ :=
      (takes_evaluate (intact.heard index s) current line).sessions_eq there'
    refine ⟨intact.evaluate current s line, ?_, ?_, finish, other⟩
    · intro plain
      rw [unmarked plain]
      exact List.set_set ..
    · rw [← config_eq]
      exact create

/-- A line for the first session, a second session behind it, and the first one closed. -/
theorem run_sessions_create_finish :
    let lines := ["a b", ":/create", ":/finish"]
    ∃ c s new entered created finished, start {} .text = .ok c ∧ c.sessions = [s] ∧
      newSession {} = .ok new ∧ (c.run lines).error? = none ∧
      (Reaches c lines entered [":/create", ":/finish"] ∧
        entered.sessions = [(s.interpret "a b").1]) ∧
      (Reaches c lines created [":/finish"] ∧
        created.sessions = [(s.interpret "a b").1.takePrompts.1, new]) ∧
      Reaches c lines finished [] ∧ finished.sessions = [new] := by
  intro lines
  have split : inputLines "a b\n:/create\n:/finish\n" = lines := by decide +kernel
  obtain ⟨c, started, no_error, -, each⟩ :=
    run_sessions (show ({} : Config).registry = .ok _ from rfl) .text "a b\n:/create\n:/finish\n"
  have begun := Reaches.refl c lines
  obtain rfl := Except.ok.inj ((start_of_registry .text rfl).symm.trans started)
  rw [split] at no_error each
  obtain ⟨s, there, shown, -, takes⟩ := (each _ _ begun).2.2 0 rfl
  obtain ⟨⟩ := there
  have entered := (takes "a b").2.1 (by decide +kernel)
  have reached := begun.next rfl shown (by decide +kernel)
  obtain ⟨s, there, shown, -, takes⟩ := (each _ _ reached).2.2 0 (by decide +kernel)
  rw [entered] at there
  obtain ⟨⟩ := there
  obtain ⟨new, made, created⟩ := (takes ":/create").2.2.1 (by decide +kernel)
  have reached' := reached.next (by decide +kernel) shown (by decide +kernel)
  obtain ⟨s, there, shown, -, takes⟩ := (each _ _ reached').2.2 0 (by decide +kernel)
  rw [created, heard, entered] at there
  obtain ⟨⟩ := there
  have finished := (takes ":/finish").2.2.2.1 (by decide +kernel)
  have reached'' := reached'.next (by decide +kernel) shown (by decide +kernel)
  refine ⟨_, _, new, _, _, _, started, rfl, made, no_error, ⟨reached, entered⟩, ⟨reached', ?_⟩,
    reached'', ?_⟩
  · rw [created, heard, entered]
    rfl
  · rw [finished, heard, created, heard, entered]
    rfl

end Console

end ConceptForest
