import ConceptForest.Proofs.Session.References
import ConceptForest.Session.Interpreter

/-!
What commands do to a session.

A command is refused, and then with a prompt that tells of a failure and without anything done, or
it is carried out and leaves the session tidy (`Serves`). Each command asks first and changes then,
and no change is ever refused.

* `serves_run` — the same for all commands.
* `run_of_readsOnly` — some commands change nothing even when they are carried out.
-/

namespace ConceptForest

theorem Match.single?_eq_some_iff {m : Match} {h : Handle} :
    m.single? = some h ↔ m = .whole h := by
  constructor
  · intro whole
    unfold single? at whole
    split at whole
    · obtain rfl := Option.some.inj whole
      rfl
    · cases whole
  · rintro rfl
    rfl

namespace Session

variable {s t : Session} {root top h : Handle} {going : Handle → Prop} {call : Invocation}

/-- What a command may make of a session. -/
structure Served (s t : Session) (root top : Handle) (going : Handle → Prop) : Prop where
  tidy : t.Tidy root top going
  lasts : s.forest.Lasts t.forest
  next_le : s.forest.next ≤ t.forest.next
  prompts_eq : t.prompts = s.prompts
  settings_eq : t.settings = s.settings
  commands_eq : t.commands = s.commands
  registry_eq : t.registry = s.registry

theorem Served.refl (tidy : s.Tidy root top going) : s.Served s root top going :=
  ⟨tidy, .refl _, Nat.le_refl _, rfl, rfl, rfl, rfl⟩

theorem Served.trans {u : Session} (first : s.Served t root top going)
    (second : t.Served u root top going) : s.Served u root top going where
  tidy := second.tidy
  lasts := first.lasts.trans second.lasts
  next_le := Nat.le_trans first.next_le second.next_le
  prompts_eq := second.prompts_eq.trans first.prompts_eq
  settings_eq := second.settings_eq.trans first.settings_eq
  commands_eq := second.commands_eq.trans first.commands_eq
  registry_eq := second.registry_eq.trans first.registry_eq

/-- The session may go to a concept that stays. -/
theorem Served.goTo (served : s.Served t root top going) (stays : t.forest.Stays going h) :
    s.Served { t with current := h } root top going :=
  { served with tidy := { served.tidy with stays_current := stays } }

/-- The forest may be changed into one that is tidy and keeps the concepts. -/
theorem Tidy.edited (tidy : s.Tidy root top going) {g : Forest} (tidy' : g.Tidy root top going)
    (lasts : s.forest.Lasts g) (next_le : s.forest.next ≤ g.next) :
    s.Served { s with forest := g } root top going := by
  refine ⟨⟨tidy', ?_, tidy.topLevel_eq⟩, lasts, next_le, rfl, rfl, rfl, rfl⟩
  obtain ⟨c, live⟩ := Forest.contains_iff.mp tidy.stays_current.1
  obtain ⟨d, live, -⟩ := lasts _ c live
  exact ⟨Forest.contains_of_get? live, tidy.stays_current.2⟩

/-- A concept may be changed in its place as long as it stays what it is, orderly if it stays. -/
theorem Tidy.updated (tidy : s.Tidy root top going) (h : Handle) {change : Concept → Concept}
    (keeps : Forest.KeepsPlace change)
    (same : ∀ c, (change c).kind = c.kind ∧ (change c).identifier = c.identifier ∧
      (change c).associations = c.associations ∧ (change c).associatedBy = c.associatedBy)
    (orderly : ∀ c, s.forest.get? h = some c → s.forest.Orderly going c →
      s.forest.Orderly going (change c)) :
    s.Served { s with forest := s.forest.update h change } root top going := by
  apply tidy.edited
  · apply tidy.forest.update h keeps
    · intro c live _
      exact orderly c live
    · intro c _ _
      exact (same c).2.2
  · apply Forest.lasts_update
    · intro c
      exact (same c).1
    · intro c
      exact (same c).2.1
  · rw [Forest.next_update]

/-! ### Refused or carried out -/

/-- No prompt tells of a failure. -/
def Quiet (report : List Prompt) : Prop :=
  ∀ p ∈ report, p.kind.isFailure = false

theorem quiet_infos (messages : List String) : Quiet (messages.map .info) := by
  intro p mem
  obtain ⟨message, -, rfl⟩ := List.mem_map.mp mem
  rfl

/-- What is asked of the session is refused with a failure and without anything done, or it is done
and no failure is told of. -/
def Serves (root top : Handle) (going : Handle → Prop) (action : Action Prompt (List Prompt))
    (s : Session) : Prop :=
  (∃ p, action s = .error p s ∧ p.kind.isFailure = true) ∨
    ∃ report t, action s = .ok report t ∧ Quiet report ∧ s.Served t root top going

/-- A question that comes first refuses the command, or the rest is what matters. -/
theorem serves_ask {α : Type} {question : Session → Except Prompt α}
    {rest : α → Action Prompt (List Prompt)} (fails : Fails (question s))
    (serves : ∀ a, question s = .ok a → Serves root top going (rest a) s) :
    Serves root top going (ask question >>= rest) s := by
  unfold Serves
  cases answer : question s with
  | error p => exact .inl ⟨p, bind_of_error (ask_of_error _ answer), fails p answer⟩
  | ok a =>
    rw [bind_of_ok (ask_of_ok _ answer)]
    exact serves a answer

/-- A command may be nothing but a question. -/
theorem serves_report (tidy : s.Tidy root top going)
    {question : Session → Except Prompt (List Prompt)} (fails : Fails (question s))
    (quiet : ∀ report, question s = .ok report → Quiet report) :
    Serves root top going (ask question) s := by
  cases answer : question s with
  | error p => exact .inl ⟨p, ask_of_error _ answer, fails p answer⟩
  | ok report => exact .inr ⟨report, s, ask_of_ok _ answer, quiet report answer, .refl tidy⟩

theorem serves_throw {p : Prompt} (failure : p.kind.isFailure = true) :
    Serves root top going (throw p) s := by
  left
  exact ⟨p, rfl, failure⟩

theorem edit_of_ok {ε α : Type} {e : Edit ε α} {a : α} {g : Forest}
    (granted : e s.forest = .ok a g) : edit e s = .ok a { s with forest := g } := by
  simp [edit, granted]

theorem edit_of_error {ε α : Type} {e : Edit ε α} {error : ε}
    (refused : e s.forest = .error error s.forest) : edit e s = .error error s := by
  simp [edit, refused]

theorem change_of_ok {α : Type} {e : Edit ForestError α} {a : α} {g : Forest}
    (granted : e s.forest = .ok a g) : change e s = .ok a { s with forest := g } :=
  edit_of_ok (adaptExcept_of_ok granted)

/-! ### Commands that move -/

theorem serves_enter (tidy : s.Tidy root top going) (call : Invocation) :
    Serves root top going (enter call) s := by
  apply serves_ask (fails_theOne s call _)
  intro h found
  right
  exact ⟨_, _, rfl, quiet_infos [_], (Served.refl tidy).goTo (tidy.stays_of_theOne found)⟩

theorem fails_thePart (s : Session) (call : Invocation) : Fails (s.thePart call) := by
  apply (fails_orPrompt _).bind
  intro e?
  cases e? with
  | none => exact fails_error rfl
  | some e =>
    apply (fails_orPrompt _).bind
    intro found
    match found with
    | [m] => exact fails_ok m
    | [] => exact fails_error rfl
    | _ :: _ :: _ => exact fails_error rfl

/-- The concepts of which the arguments mean a part stay. -/
theorem Tidy.stays_of_thePart (tidy : s.Tidy root top going) {m : Match}
    (found : s.thePart call = .ok m) (named : h ∈ m.concepts) : s.forest.Stays going h := by
  obtain ⟨e?, -, found⟩ := bind_eq_ok_iff.mp found
  cases e? with
  | none => cases found
  | some e =>
    obtain ⟨ms, parts, found⟩ := bind_eq_ok_iff.mp found
    match ms with
    | [k] =>
      obtain rfl := Except.ok.inj found
      obtain ⟨r, inside, below⟩ := Forest.mem_resolveParts tidy.forest.wellFormed
        (orPrompt_eq_ok_iff.mp parts) List.mem_cons_self named
      rw [tidy.topLevel_eq, List.mem_singleton] at inside
      exact tidy.forest.stays_of_owns_root (inside ▸ below)
    | [] => cases found
    | _ :: _ :: _ => cases found

/-- A lift of concepts that stay leaves a tidy forest, in which the new concept stays. -/
theorem tidy_lifted {f : Forest} (tidy : f.Tidy root top going) {members : List Handle}
    {owner : Handle} {place : Nat} {moved : List (Handle × Handle)}
    (gathers : f.Gathers members owner place) (owner_stays : ¬ going owner)
    (owned : ∀ pair ∈ moved, pair.1 ∈ members ∧ f.Owns pair.2 pair.1) :
    let g := (f.gathered members owner place).pieced moved
    g.Tidy root top going ∧ f.Lasts g ∧ f.next ≤ g.next ∧ g.Stays going f.next := by
  intro g
  have wf := tidy.wellFormed
  have later := Forest.extends_gathered wf gathers
  have stay : ∀ pair ∈ moved, (f.gathered members owner place).Stays going pair.1 ∧
      (f.gathered members owner place).Stays going pair.2 := by
    intro pair mem
    obtain ⟨member, owns⟩ := owned pair mem
    have stays : ¬ going pair.1 := by
      intro goes
      exact owner_stays ((tidy.going_iff_of_owns (gathers.owns pair.1 member)).mpr goes)
    refine ⟨⟨later.contains (gathers.admits.contains pair.1 member), stays⟩,
      later.contains (wf.contains_owner owns), ?_⟩
    intro goes
    exact stays ((tidy.going_iff_of_owns owns).mp goes)
  obtain ⟨tidy', lasts⟩ := (tidy.gathered gathers owner_stays).pieced stay
  have kept := Forest.kept_pieced (f.gathered members owner place) moved
  refine ⟨tidy', (Forest.lasts_gathered f members owner place).trans lasts, ?_, ?_, ?_⟩
  · rw [kept.next_eq]
    exact later.next_le
  · rw [kept.contains_eq]
    simp
  · intro goes
    exact Nat.lt_irrefl _ (tidy.lt_next f.next goes)

theorem serves_enterLifted (tidy : s.Tidy root top going) {m : Match}
    (stay : ∀ h ∈ m.concepts, s.forest.Stays going h) :
    Serves root top going (enterLifted m) s := by
  rcases Edit.lift_cases tidy.forest.wellFormed m with
    ⟨e, refused⟩ | ⟨h, rfl, -, granted⟩ |
      ⟨members, owner, place, moved, gathers, ⟨x, named, above⟩, owned, granted⟩
  · left
    exact ⟨_, (bind_of_ok (run_get s)).trans
      (bind_of_error (edit_of_error (adaptExcept_of_error refused))), rfl⟩
  · right
    exact ⟨_, _, (bind_of_ok (run_get s)).trans
      (bind_of_ok (edit_of_ok (adaptExcept_of_ok granted))), quiet_infos [_],
      (Served.refl tidy).goTo (stay h List.mem_cons_self)⟩
  · right
    have owner_stays : ¬ going owner := by
      rcases above with rfl | owns
      · exact (stay x named).2
      · intro goes
        exact (stay x named).2 ((tidy.forest.going_iff_of_owns owns).mp goes)
    obtain ⟨tidy', lasts, next_le, new⟩ := tidy_lifted tidy.forest gathers owner_stays owned
    exact ⟨_, _, (bind_of_ok (run_get s)).trans
      (bind_of_ok (edit_of_ok (adaptExcept_of_ok granted))), quiet_infos [_],
      (tidy.edited tidy' lasts next_le).goTo new⟩

theorem serves_enterPart (tidy : s.Tidy root top going) (call : Invocation) :
    Serves root top going (enterPart call) s := by
  apply serves_ask (fails_thePart s call)
  intro m found
  have stay : ∀ h ∈ m.concepts, s.forest.Stays going h := by
    intro h named
    exact tidy.stays_of_thePart found named
  split
  · next h whole =>
    right
    obtain rfl := Match.single?_eq_some_iff.mp whole
    exact ⟨_, _, rfl, quiet_infos [_], (Served.refl tidy).goTo (stay h List.mem_cons_self)⟩
  · split
    · exact serves_enterLifted tidy stay
    · exact serves_throw rfl

theorem serves_leave (tidy : s.Tidy root top going) (call : Invocation) :
    Serves root top going (leave call) s := by
  unfold leave
  split
  · exact serves_throw rfl
  · apply serves_ask (fails_orPrompt _)
    intro c found
    have live := Forest.node_eq_ok_iff.mp (orPrompt_eq_ok_iff.mp found)
    split
    · next p parent =>
      right
      have owned := (Forest.parent?_of_get? live).trans parent
      have stays : s.forest.Stays going p := by
        refine ⟨tidy.forest.wellFormed.contains_parent owned, ?_⟩
        intro goes
        exact tidy.stays_current.2 ((tidy.forest.going_iff p _ owned).mp goes)
      exact ⟨_, _, rfl, quiet_infos [_], (Served.refl tidy).goTo stays⟩
    · right
      exact ⟨_, _, rfl, quiet_infos [], .refl tidy⟩

/-! ### Commands about what the current concept is known by -/

theorem serves_name (tidy : s.Tidy root top going) (call : Invocation) :
    Serves root top going (name call) s := by
  unfold name
  split
  · exact serves_throw rfl
  · right
    obtain ⟨c, live⟩ := Forest.contains_iff.mp tidy.stays_current.1
    refine ⟨_, _, (bind_of_ok (run_get s)).trans
      (bind_of_ok (change_of_ok (Edit.addRepresentation_of_get? live _))), quiet_infos [_], ?_⟩
    apply tidy.updated s.current (Forest.keepsPlace_addRepresentation _)
    · intro _
      exact ⟨rfl, rfl, rfl, rfl⟩
    · intro c _ orderly
      exact { orderly with }

theorem serves_represent (tidy : s.Tidy root top going) (call : Invocation) :
    Serves root top going (represent call) s := by
  apply serves_ask (fails_theOne s call _)
  intro h found
  have stays := tidy.stays_of_theOne found
  obtain ⟨c, live⟩ := Forest.contains_iff.mp tidy.stays_current.1
  unfold Serves
  rw [bind_of_ok (run_get s)]
  split
  · exact serves_throw rfl
  · right
    refine ⟨_, _, bind_of_ok (change_of_ok (Edit.associate_of_get? live stays.1)),
      quiet_infos [_], ?_⟩
    apply tidy.edited
    · exact tidy.forest.associated tidy.stays_current stays .representation
    · exact Forest.lasts_associated _ _ _ _
    · rw [(Forest.kept_associated s.forest s.current h .representation).next_eq]

/-! ### Commands about what names and concepts mean -/

theorem fails_meantBy? (s : Session) (call : Invocation) (arg : Handle) (place : String) :
    Fails (s.meantBy? call arg place) := by
  apply (fails_orPrompt _).bind
  intro e
  apply (fails_orPrompt _).bind
  intro found
  match found with
  | [] => exact fails_ok _
  | [h] => exact fails_ok _
  | _ :: _ :: _ => exact fails_error rfl

/-- A concept that an argument means stays. -/
theorem Tidy.stays_of_meantBy? (tidy : s.Tidy root top going) {arg : Handle} {place : String}
    (found : s.meantBy? call arg place = .ok (some h)) : s.forest.Stays going h := by
  obtain ⟨e, -, found⟩ := bind_eq_ok_iff.mp found
  obtain ⟨hs, meant, found⟩ := bind_eq_ok_iff.mp found
  match hs with
  | [] => cases found
  | [k] =>
    obtain ⟨⟩ := found
    exact tidy.stays_of_meant (orPrompt_eq_ok_iff.mp meant) List.mem_cons_self
  | _ :: _ :: _ => cases found

theorem mem_insert {α : Type} {name other : String} {value v : α} {table : NameTable α}
    (mem : (other, v) ∈ NameTable.insert name value table) :
    v = value ∨ (other, v) ∈ table := by
  induction table with
  | nil => simp_all [NameTable.insert]
  | cons entry rest ih =>
    obtain ⟨n, w⟩ := entry
    simp only [NameTable.insert] at mem
    split at mem
    · simp only [List.mem_cons, Prod.mk.injEq] at mem ⊢
      exact mem.imp (·.2) .inr
    · split at mem
      · simp only [List.mem_cons, Prod.mk.injEq] at mem ⊢
        exact mem.imp_left (·.2)
      · rcases List.mem_cons.mp mem with same | mem
        · exact .inr (same ▸ List.mem_cons_self)
        · exact (ih mem).imp_right (List.mem_cons_of_mem _)

/-- A name may be bound to a text, or to a concept that stays. -/
theorem orderly_bind {f : Forest} {c : Concept} (orderly : f.Orderly going c) (name : String)
    {value : Value} (stays : ∀ h, value = .concept h → f.Stays going h) :
    f.Orderly going { c with context := c.context.bind name value } := by
  refine { orderly with bound := ?_ }
  intro other h mem
  rcases mem_insert mem with same | old
  · exact stays h same.symm
  · exact orderly.bound other h old

theorem serves_bind (tidy : s.Tidy root top going) (call : Invocation) :
    Serves root top going (bind call) s := by
  unfold bind
  split
  · next symbol arg _ =>
    unfold Serves
    rw [bind_of_ok (run_get s)]
    apply serves_ask (fails_meantBy? s call symbol _)
    intro symbol? _
    apply serves_ask (fails_meantBy? s call arg _)
    intro arg? found
    right
    obtain ⟨c, live⟩ := Forest.contains_iff.mp tidy.stays_current.1
    refine ⟨_, _, bind_of_ok (change_of_ok (Edit.bind_of_get? live _ _)), quiet_infos [_], ?_⟩
    apply tidy.updated s.current (Forest.keepsPlace_context _)
    · intro _
      exact ⟨rfl, rfl, rfl, rfl⟩
    · intro c _ orderly
      apply orderly_bind orderly
      intro h eq
      cases arg? with
      | none => cases eq
      | some k =>
        obtain ⟨⟩ := eq
        exact tidy.stays_of_meantBy? found
  · exact serves_throw rfl

theorem fails_theSnippet (s : Session) (call : Invocation) : Fails (s.theSnippet call) := by
  unfold theSnippet
  split
  · apply (fails_orPrompt _).bind
    intro c
    split
    · exact fails_ok _
    · exact fails_error rfl
  · exact fails_error rfl

/-- The concept that the one snippet was built as has a definition. -/
theorem exists_definition_of_theSnippet {arg : Handle} {language : String}
    (found : s.theSnippet call = .ok (arg, language)) :
    ∃ c d, s.forest.get? arg = some c ∧ c.context.definition? = some d := by
  unfold theSnippet at found
  split at found
  · obtain ⟨c, live, found⟩ := bind_eq_ok_iff.mp found
    have live := Forest.node_eq_ok_iff.mp (orPrompt_eq_ok_iff.mp live)
    split at found
    · next d _ given =>
      obtain ⟨⟩ := found
      exact ⟨c, _, live, given⟩
    · cases found
  · cases found

/-- A concept may be given a definition of its own, or lose the one that it has. -/
theorem orderly_define {f : Forest} {c : Concept} (orderly : f.Orderly going c)
    (definition? : Option Definition)
    (owner_eq : ∀ d, definition? = some d → d.owner = c.handle) :
    f.Orderly going { c with context := { c.context with definition? } } :=
  { orderly with owner_eq }

theorem Tidy.defined (tidy : s.Tidy root top going) (h : Handle) (definition? : Option Definition)
    (owner_eq : ∀ d, definition? = some d → d.owner = h) :
    s.Served { s with
      forest := s.forest.update h fun c => { c with context := { c.context with definition? } } }
      root top going := by
  apply tidy.updated h (Forest.keepsPlace_context _)
  · intro _
    exact ⟨rfl, rfl, rfl, rfl⟩
  · intro c live orderly
    apply orderly_define orderly
    intro d given
    rw [owner_eq d given, tidy.forest.wellFormed.handle_eq live]

theorem serves_define (tidy : s.Tidy root top going) (call : Invocation) :
    Serves root top going (define call) s := by
  apply serves_ask (fails_theSnippet s call)
  rintro ⟨arg, language⟩ found
  right
  obtain ⟨c, d, live, given⟩ := exists_definition_of_theSnippet found
  have taken := tidy.defined arg none (by simp)
  have take := change_of_ok (Edit.takeDefinition_of_get? live)
  rw [given] at take
  obtain ⟨c', live'⟩ := Forest.contains_iff.mp taken.tidy.stays_current.1
  have bound := taken.tidy.defined s.current (some (d.withOwner s.current)) <| by
    intro e eq
    rw [← Option.some.inj eq, Definition.owner_withOwner]
  have bind := change_of_ok (Edit.bindDefinition_of_get? live' (d.withOwner s.current))
  exact ⟨_, _, (bind_of_ok take).trans ((bind_of_ok (run_get _)).trans (bind_of_ok bind)),
    quiet_infos [_], taken.trans bound⟩

/-! ### Commands that tell something -/

theorem fails_lookupReport (s : Session) (call : Invocation) : Fails (s.lookupReport call) := by
  unfold lookupReport
  split
  · apply (fails_orPrompt _).bind
    intro found
    exact fails_ok _
  · exact fails_error rfl

theorem quiet_lookupReport {report : List Prompt} (told : s.lookupReport call = .ok report) :
    Quiet report := by
  unfold lookupReport at told
  split at told
  · obtain ⟨found, -, told⟩ := bind_eq_ok_iff.mp told
    obtain rfl := Except.ok.inj told
    exact quiet_infos _
  · cases told

theorem fails_subject (s : Session) (call : Invocation) : Fails (s.subject call) := by
  unfold subject
  split
  · exact fails_ok _
  · exact fails_theOne s call _

theorem fails_checkReport (s : Session) (call : Invocation) : Fails (s.checkReport call) := by
  apply (fails_subject s call).bind
  intro h
  apply (fails_orPrompt _).bind
  intro found
  cases found <;> exact fails_ok _

theorem quiet_checkReport {report : List Prompt} (told : s.checkReport call = .ok report) :
    Quiet report := by
  obtain ⟨h, -, told⟩ := bind_eq_ok_iff.mp told
  obtain ⟨found, -, told⟩ := bind_eq_ok_iff.mp told
  cases found with
  | nil =>
    obtain rfl := Except.ok.inj told
    exact quiet_infos [_]
  | cons d ds =>
    obtain rfl := Except.ok.inj told
    intro p mem
    obtain ⟨d, -, rfl⟩ := List.mem_map.mp mem
    rfl

theorem fails_outlineReport (s : Session) (call : Invocation) : Fails (s.outlineReport call) := by
  apply (fails_subject s call).bind
  intro h
  apply (fails_orPrompt _).bind
  intro t
  exact fails_ok _

theorem quiet_outlineReport {report : List Prompt} (told : s.outlineReport call = .ok report) :
    Quiet report := by
  obtain ⟨h, -, told⟩ := bind_eq_ok_iff.mp told
  obtain ⟨t, -, told⟩ := bind_eq_ok_iff.mp told
  obtain rfl := Except.ok.inj told
  exact quiet_infos _

/-! ### All commands -/

/-- Every command is refused with a failure and without anything done, or it is carried out and
leaves the session tidy. -/
theorem serves_run (tidy : s.Tidy root top going) (command : Command) (call : Invocation) :
    Serves root top going (command.run call) s := by
  cases command with
  | enter => exact serves_enter tidy call
  | enterPart => exact serves_enterPart tidy call
  | leave => exact serves_leave tidy call
  | bind => exact serves_bind tidy call
  | lookup => exact serves_report tidy (fails_lookupReport s call) fun _ => quiet_lookupReport
  | define => exact serves_define tidy call
  | check => exact serves_report tidy (fails_checkReport s call) fun _ => quiet_checkReport
  | outline => exact serves_report tidy (fails_outlineReport s call) fun _ => quiet_outlineReport
  | name => exact serves_name tidy call
  | represent => exact serves_represent tidy call

end Session

/-- Does the command only tell something? -/
def Command.readsOnly : Command → Bool
  | lookup | check | outline => true
  | _ => false

theorem Session.run_of_readsOnly {command : Command} (reads : command.readsOnly = true)
    (call : Invocation) (s : Session) :
    (∃ p, command.run call s = .error p s) ∨ ∃ report, command.run call s = .ok report s := by
  have asked : ∀ question : Session → Except Prompt (List Prompt),
      (∃ p, ask question s = .error p s) ∨ ∃ report, ask question s = .ok report s := by
    intro question
    cases answer : question s with
    | error p => exact .inl ⟨p, ask_of_error question answer⟩
    | ok report => exact .inr ⟨report, ask_of_ok question answer⟩
  cases command with
  | lookup => exact asked (·.lookupReport call)
  | check => exact asked (·.checkReport call)
  | outline => exact asked (·.outlineReport call)
  | enter | enterPart | leave | bind | define | name | represent => cases reads

end ConceptForest
