import ConceptForest.Proofs.Forest.Bindings
import ConceptForest.Proofs.Forest.Spelling
import ConceptForest.Proofs.Session.Lines

/-!
Bindings that are made and looked up.

A binding goes by what its symbol means: by the preferred text of the one concept that is meant, or,
where none is, by what was typed. A look-up goes by what was typed in any case.

* `called_spec`, `sheds_take` — the session in which a command is carried out, and what is left of
  it after the command.
* `binds_of_completed`, `tellsOwn_of_bound` — what is bound, and that it is told.
* `lookup_after_bind` — a symbol that was typed as the name that has been bound is told to have the
  value, from the current concept and from nowhere else.
* `lookup_after_bind_renamed` — so the symbol that was bound need not be.
-/

namespace ConceptForest

open Grammar (Program Symbol)
open Build (Resolves)

namespace Session

variable {s t : Session} {root : Handle} {word : String} {args : List Symbol}

/-! ### The session in which a command is carried out -/

/-- The session in which a command is carried out: the command has been built and taken out of its
owner's children. -/
def called (s : Session) (word : String) (args : List Symbol) : Session :=
  let built := leftBy (Edit.buildOne s.registry s.current (.command word args)) s.forest
  { s with forest := leftBy (Edit.unlink s.forest.next) built }

/-- The command that is carried out in it. -/
def invocation (s : Session) (word : String) (args : List Symbol) : Invocation :=
  ⟨s.forest.next, word, (s.called word args).forest.childrenOf s.forest.next⟩

theorem exists_called (rest : s.AtRest root) (word : String)
    (resolves : Resolves s.registry (Grammar.snippetsOfSymbols args)) :
    ∃ g c, Edit.buildOne s.registry s.current (.command word args) s.forest =
        .ok s.forest.next g ∧
      Build.Built s.forest s.current (.command word args) g ∧
      g.get? s.forest.next = some c ∧
      s.called word args = { s with forest := g.detached s.forest.next } ∧
      s.invocation word args = ⟨s.forest.next, word, c.children⟩ := by
  have live := rest.stays_current.1
  obtain ⟨g, granted, built⟩ := Edit.buildOne_of_resolves rest.forest.wellFormed live
    (.command word args) resolves
  obtain ⟨c, top, owned, -⟩ := Forest.get?_command live built
  have called : s.called word args = { s with forest := g.detached s.forest.next } := by
    rw [Session.called, leftBy_of_ok granted]
    rw [leftBy_of_ok (Edit.unlink_of_contains (Forest.contains_of_get? top))]
  refine ⟨g, c, granted, built, top, called, ?_⟩
  have ne : s.current ≠ s.forest.next := Nat.ne_of_lt (Forest.lt_next_of_contains live)
  have there := Forest.get?_detached ((Forest.parent?_of_get? top).trans owned) ne s.forest.next
  rw [if_pos rfl, top] at there
  rw [invocation, called, Forest.childrenOf_of_get? there]

/-- While a command is carried out all that was there before is as it was, and the arguments are
known as they were typed. -/
theorem called_spec (rest : s.AtRest root) (word : String) (proper : ∀ a ∈ args, a.Proper)
    (resolves : Resolves s.registry (Grammar.snippetsOfSymbols args)) :
    ∃ going, (s.called word args).Tidy root s.forest.next going ∧
      (∀ k, (s.called word args).forest.Stays going k → k < s.forest.next) ∧
      (∀ k < s.forest.next, (s.called word args).forest.get? k = s.forest.get? k) ∧
      List.Forall₂ ((s.called word args).forest.Spells (s.forest.next + 1))
        (s.invocation word args).args args := by
  have live := rest.stays_current.1
  have wf := rest.forest.wellFormed
  obtain ⟨g, c, granted, built, top, called, invocation⟩ := exists_called rest word resolves
  rw [called, invocation]
  refine ⟨s.forest.Made g, rest.calling built, ?_, ?_, ?_⟩
  · rintro k ⟨there, stay⟩
    obtain ⟨d, there⟩ := Forest.contains_iff.mp there
    exact Forest.lt_next_of_not_made there stay
  · intro k old
    exact Forest.get?_called_of_lt wf live built old
  · obtain ⟨c', top', spelled⟩ := Build.spells_command wf live proper resolves granted
    obtain rfl : c = c' := Option.some.inj (top.symm.trans top')
    obtain ⟨_, top', owned, -⟩ := Forest.get?_command live built
    have old := Forest.lt_next_of_contains live
    refine spelled.imp fun _ _ spells => spells.mono (Nat.le_refl _) fun k late _ => ?_
    rw [Forest.get?_detached ((Forest.parent?_of_get? top').trans owned) (Nat.ne_of_lt old),
      if_neg (Nat.ne_of_gt late), if_neg (Nat.ne_of_gt (Nat.lt_trans old late))]

/-- The forest in which a command is carried out is the one before, but for what was made of the
command. -/
theorem sheds_called (rest : s.AtRest root) (word : String)
    (resolves : Resolves s.registry (Grammar.snippetsOfSymbols args)) :
    (s.called word args).forest.Sheds s.forest (s.forest.Made (s.called word args).forest) := by
  obtain ⟨g, c, -, built, -, called, -⟩ := exists_called rest word resolves
  rw [called, Forest.made_detached]
  exact Forest.sheds_called rest.forest.wellFormed rest.stays_current.1 built

/-- What is left of a command when it has been released: the forest is as the command has made it,
but for what was made of the command. -/
theorem sheds_take (rest : s.AtRest root)
    (resolves : Resolves s.registry (Grammar.snippetsOfSymbols args)) {outcome : Outcome}
    (took : take (.command word args) s = .ok (some outcome) t) :
    ∃ u, dispatch (s.invocation word args) (s.called word args) = .ok outcome u ∧
      t.current = u.current ∧
      u.forest.Sheds t.forest (s.forest.Made (s.called word args).forest) := by
  obtain ⟨g, c, granted, built, top, called, invocation⟩ := exists_called rest word resolves
  obtain ⟨outcome', u, dispatched, served, -⟩ :=
    dispatch_spec (rest.calling built) ⟨s.forest.next, word, c.children⟩
  obtain ⟨doomed, whole, executed⟩ := execute_of_dispatch top dispatched served.tidy
  have taken : take (.command word args) s = _ := (bind_of_ok (run_get s)).trans
    ((bind_of_ok (edit_of_ok (adaptExcept_of_ok granted))).trans
      (map_of_ok (adaptExcept_of_ok executed)))
  obtain ⟨⟩ := taken.symm.trans took
  rw [called, invocation, Forest.made_detached]
  exact ⟨u, dispatched, rfl,
    served.tidy.forest.sheds_released ⟨Nat.le_refl _, Forest.lt_next_of_get? top⟩ whole⟩

/-- Whatever was there before a command is as the command has made it, when that is released. -/
theorem take_called (rest : s.AtRest root)
    (resolves : Resolves s.registry (Grammar.snippetsOfSymbols args)) {outcome : Outcome}
    (took : take (.command word args) s = .ok (some outcome) t) :
    ∃ u, dispatch (s.invocation word args) (s.called word args) = .ok outcome u ∧
      t.current = u.current ∧ ∀ k < s.forest.next, t.forest.get? k = u.forest.get? k := by
  obtain ⟨u, dispatched, current_eq, sheds⟩ := sheds_take rest resolves took
  exact ⟨u, dispatched, current_eq, fun k old => sheds.get?_kept k (Forest.not_made_of_lt old)⟩

/-! ### What is bound, and what a look-up tells -/

/-- The concepts that one argument of a command means. -/
def meantOf (s : Session) (call : Invocation) (arg : Handle) :
    Except ForestError (List Handle) := do
  s.meant call (← s.forest.expand arg)

theorem Tidy.stays_of_meantOf {top h : Handle} {going : Handle → Prop}
    (tidy : s.Tidy root top going) {call : Invocation} {arg : Handle} {hs : List Handle}
    (found : s.meantOf call arg = .ok hs) (mem : h ∈ hs) : s.forest.Stays going h := by
  obtain ⟨e, -, meant⟩ := bind_eq_ok_iff.mp found
  exact tidy.stays_of_meant meant mem

/-- An argument of a binding means one concept or none. -/
theorem meantBy?_eq_ok_iff {call : Invocation} {arg : Handle} {place : String}
    {h? : Option Handle} :
    s.meantBy? call arg place = .ok h? ↔ s.meantOf call arg = .ok h?.toList := by
  simp only [meantBy?, meantOf, bind_eq_ok_iff, orPrompt_eq_ok_iff]
  apply exists_congr
  intro e
  apply and_congr_right
  intro _
  constructor
  · rintro ⟨hs, meant, found⟩
    match hs with
    | [] =>
      obtain ⟨⟩ := found
      exact meant
    | [h] =>
      obtain ⟨⟩ := found
      exact meant
    | _ :: _ :: _ => cases found
  · intro meant
    refine ⟨_, meant, ?_⟩
    cases h? <;> rfl

/-- The name and the value that a command binds. A symbol that means one concept stands for the
preferred text of it, if there are no blanks in that, and an argument that does stands for the
concept; what means none stands for what was typed. -/
def Binds (s : Session) (word : String) (symbol arg : Symbol) (name : String) (value : Value) :
    Prop :=
  let call := s.invocation word [symbol, arg]
  let meant := (s.called word [symbol, arg]).meantOf call
  ∃ x y, call.args = [x, y] ∧
    (meant x = .ok [] ∧ name = symbol.typedText ∨
      ∃ h c, meant x = .ok [h] ∧ s.forest.get? h = some c ∧
        (c.preferred.raw.toList.any Text.isBlank = false → name = c.preferred.raw)) ∧
    (meant y = .ok [] ∧ value = .literal arg.typedText ∨
      ∃ h, meant y = .ok [h] ∧ value = .concept h)

/-- The symbol is looked up, and one binding is told: the current concept binds it to the value. -/
def TellsOwn (s : Session) (word : String) (symbol : Symbol) (value : Value) : Prop :=
  let own : Binding := ⟨[s.current], symbol.typedText, value⟩
  s.forest.lookup s.current symbol.typedText = .ok [own] ∧
    ∃ t, take (.command word [symbol]) s =
      .ok (some (.completed [.info (s.bindingLine symbol.typedText own)])) t

/-- A binding that is carried out changes nothing but the context of the current concept. -/
theorem bind_completed {call : Invocation} {x y : Handle} {report : List Prompt}
    (args : call.args = [x, y]) (live : s.forest.contains s.current = true)
    (done : bind call s = .ok report t) :
    ∃ name value,
      (s.meantOf call x = .ok [] ∧ name = s.forest.typedText x ∨
        ∃ h, s.meantOf call x = .ok [h] ∧ name = s.forest.label h) ∧
      (s.meantOf call y = .ok [] ∧ value = .literal (s.forest.typedText y) ∨
        ∃ h, s.meantOf call y = .ok [h] ∧ value = .concept h) ∧
      t = { s with forest := s.forest.update s.current fun c =>
        { c with context := c.context.bind name value } } := by
  obtain ⟨c, live⟩ := Forest.contains_iff.mp live
  unfold bind at done
  simp only [args] at done
  obtain ⟨_, _, ⟨⟩, done⟩ := exists_of_bind_eq_ok done
  obtain ⟨x?, _, symbol, done⟩ := exists_of_bind_eq_ok done
  obtain ⟨symbol, rfl⟩ := ask_eq_ok_iff.mp symbol
  obtain ⟨y?, _, arg, done⟩ := exists_of_bind_eq_ok done
  obtain ⟨arg, rfl⟩ := ask_eq_ok_iff.mp arg
  obtain ⟨_, _, bound, done⟩ := exists_of_bind_eq_ok done
  obtain ⟨⟩ := (change_of_ok (Edit.bind_of_get? live _ _)).symm.trans bound
  obtain ⟨⟩ := done
  have symbol := meantBy?_eq_ok_iff.mp symbol
  have arg := meantBy?_eq_ok_iff.mp arg
  refine ⟨_, _, ?_, ?_, rfl⟩
  · cases x? with
    | none => exact .inl ⟨symbol, rfl⟩
    | some h => exact .inr ⟨h, symbol, rfl⟩
  · cases y? with
    | none => exact .inl ⟨arg, rfl⟩
    | some h => exact .inr ⟨h, arg, rfl⟩

theorem lookupReport_of_own {call : Invocation} {arg : Handle} {b : Binding} {name : String}
    (args : call.args = [arg]) (typed : s.forest.typedText arg = name)
    (own : s.forest.lookup s.current name = .ok [b]) :
    s.lookupReport call = .ok [.info (s.bindingLine name b)] := by
  unfold lookupReport
  simp only [args, typed, orPrompt_eq_ok_iff.mpr own, ok_bind]
  rfl

/-- A binding of the current concept is told alike in sessions that know the same concepts. -/
theorem bindingLine_congr (rest : s.AtRest root) (wf : t.forest.WellFormed)
    (same : ∀ k, s.forest.contains k = true → t.forest.get? k = s.forest.get? k) {c : Concept}
    (live : s.forest.get? s.current = some c) {name : String} {value : Value}
    (bound : c.context.get? name = some value) :
    t.bindingLine name ⟨[s.current], name, value⟩ =
      s.bindingLine name ⟨[s.current], name, value⟩ := by
  have alike : ∀ {k}, s.forest.contains k = true → t.forest.describe k = s.forest.describe k := by
    intro k there
    exact Forest.describe_congr rest.forest.wellFormed wf there same
  have owner := alike (Forest.contains_of_get? live)
  have value_eq : t.forest.describeValue value = s.forest.describeValue value := by
    cases value with
    | literal text => rfl
    | concept k =>
      obtain ⟨_, _, entries, -⟩ := List.lookup_eq_some_iff.mp bound
      have mem : (name, Value.concept k) ∈ c.context.bindings := by simp [entries]
      exact alike ((rest.forest.orderly _ c live id).bound name k mem).1
  simp [bindingLine, Binding.owner?, owner, value_eq]

/-- What the current concept binds is told when the name is typed. -/
theorem tellsOwn_of_bound (rest : s.AtRest root) (looks : s.commands.lookup word = some .lookup)
    {symbol : Symbol} (proper : symbol.Proper) (resolves : Resolves s.registry symbol.snippets)
    {c : Concept} (live : s.forest.get? s.current = some c) {value : Value}
    (bound : c.context.get? symbol.typedText = some value) : s.TellsOwn word symbol value := by
  have wf := rest.forest.wellFormed
  have resolves : Resolves s.registry (Grammar.snippetsOfSymbols [symbol]) := by
    simpa [Grammar.snippetsOfSymbols] using resolves
  obtain ⟨_, tidy, -, old_eq, spelled⟩ :=
    called_spec rest word (List.forall_mem_singleton.mpr proper) resolves
  have wf' := tidy.forest.wellFormed
  have same : ∀ k, s.forest.contains k = true →
      (s.called word [symbol]).forest.get? k = s.forest.get? k := by
    intro k there
    exact old_eq k (Forest.lt_next_of_contains there)
  obtain ⟨arg, _, spells, ended, args⟩ := List.forall₂_cons_right_iff.mp spelled
  obtain rfl := List.forall₂_nil_right_iff.mp ended
  have own := Forest.lookup_own wf' ((same _ (Forest.contains_of_get? live)).trans live) bound
  have told := lookupReport_of_own args (spells.typedText_eq wf') own
  rw [bindingLine_congr rest wf' same live bound] at told
  have run : Command.lookup.run _ (s.called word [symbol]) = .ok _ _ :=
    ask_of_ok (lookupReport · _) told
  obtain ⟨outcome, t, took, -⟩ := take_command rest word [symbol] resolves
  obtain ⟨u, dispatched, -⟩ := take_called rest resolves took
  have looks : (s.called word [symbol]).commands.lookup (s.invocation word [symbol]).word =
      some .lookup := looks
  obtain ⟨⟩ := ((dispatch_completed_iff looks).mpr run).symm.trans dispatched
  exact ⟨Forest.lookup_own wf live bound, t, took⟩

/-- A binding that has been carried out binds a name at the current concept, and what the name and
the value are is as told above. -/
theorem binds_of_completed (rest : s.AtRest root) (known : s.commands.lookup word = some .bind)
    {symbol arg : Symbol} (proper : ∀ a ∈ [symbol, arg], a.Proper)
    (resolves : Resolves s.registry (Grammar.snippetsOfSymbols [symbol, arg]))
    {report : List Prompt}
    (completed : take (.command word [symbol, arg]) s = .ok (some (.completed report)) t) :
    ∃ name value, s.Binds word symbol arg name value ∧ t.current = s.current ∧
      t.forest.get? s.current = (s.forest.get? s.current).map fun c =>
        { c with context := c.context.bind name value } := by
  obtain ⟨going, tidy, stays, old_eq, spelled⟩ := called_spec rest word proper resolves
  have wf := tidy.forest.wellFormed
  obtain ⟨x, _, spells, spelled, args⟩ := List.forall₂_cons_right_iff.mp spelled
  obtain ⟨y, _, spells_arg, ended, rfl⟩ := List.forall₂_cons_right_iff.mp spelled
  obtain rfl := List.forall₂_nil_right_iff.mp ended
  obtain ⟨u, dispatched, current_eq, left_eq⟩ := take_called rest resolves completed
  have known : (s.called word [symbol, arg]).commands.lookup
      (s.invocation word [symbol, arg]).word = some .bind := known
  obtain ⟨name, value, meant, meant_arg, rfl⟩ := bind_completed args tidy.stays_current.1
    ((dispatch_completed_iff known).mp dispatched)
  rw [spells.typedText_eq wf] at meant
  rw [spells_arg.typedText_eq wf] at meant_arg
  have old := Forest.lt_next_of_contains rest.stays_current.1
  refine ⟨name, value, ⟨x, y, args, ?_, meant_arg⟩, current_eq, ?_⟩
  · rcases meant with meant | ⟨h, meant, rfl⟩
    · exact .inl meant
    · have stay := tidy.stays_of_meantOf meant List.mem_cons_self
      obtain ⟨c, live⟩ := Forest.contains_iff.mp stay.1
      refine .inr ⟨h, c, meant, (old_eq h (stays h stay)).symm.trans live, fun single => ?_⟩
      simp [Forest.label, live, Representation.rendered, renderToken, single]
  · rw [left_eq _ old, ← old_eq _ old]
    exact (Forest.get?_update _ _ _ _).trans (if_pos rfl)

/-- Once `bind` has bound a symbol to an argument, there is exactly one binding to be told of when
the name is looked up, with the value, from the current concept. The name is what the symbol was
typed as, unless the symbol means a concept, and then the preferred text of that. -/
theorem lookup_after_bind (reachable : s.Reachable) {bindWord lookupWord : String}
    (binds : s.commands.lookup bindWord = some .bind)
    (looks : s.commands.lookup lookupWord = some .lookup) {symbol arg : Symbol}
    (typed : symbol.Typed) (typed_arg : arg.Typed) {report : List Prompt}
    (completed : take (.command bindWord [symbol, arg]) s = .ok (some (.completed report)) t) :
    ∃ name value, s.Binds bindWord symbol arg name value ∧
      t.current = s.current ∧
      t.forest.get? s.current = (s.forest.get? s.current).map (fun c =>
        { c with context := c.context.bind name value }) ∧
      (symbol.typedText = name → t.TellsOwn lookupWord symbol value) ∧
      ∀ other : Symbol, other.Typed → Resolves t.registry other.snippets →
        other.typedText = name → t.TellsOwn lookupWord other value := by
  have rest := reachable.atRest.1
  have resolves : Resolves s.registry (Grammar.snippetsOfSymbols [symbol, arg]) := by
    by_contra missing
    obtain ⟨error, refused⟩ := take_of_not_resolves (.command bindWord [symbol, arg]) missing
    rw [refused] at completed
    cases completed
  have taken := taken_afterTake rest (.command bindWord [symbol, arg])
  rw [afterTake, leftBy_of_ok completed] at taken
  obtain ⟨name, value, bound, current_eq, now⟩ :=
    binds_of_completed rest binds (by simp [typed.proper, typed_arg.proper]) resolves completed
  obtain ⟨c, live⟩ := Forest.contains_iff.mp rest.stays_current.1
  have tells : ∀ other : Symbol, other.Proper → Resolves t.registry other.snippets →
      other.typedText = name → t.TellsOwn lookupWord other value := by
    intro other proper resolves same
    rw [live, Option.map_some, ← current_eq] at now
    exact tellsOwn_of_bound taken.rest (taken.commands_eq ▸ looks) proper resolves now
      (by simp [same])
  refine ⟨name, value, bound, current_eq, now, ?_, ?_⟩
  · apply tells symbol typed.proper
    rw [taken.registry_eq]
    exact (Build.resolves_append.mp resolves).1
  · intro other typed
    exact tells other typed.proper

theorem exists_of_completed {ε : Type} {r : EStateM.Result ε Session (Option Outcome)}
    (completed : (r matches .ok (some (.completed _)) _) = true) :
    ∃ report t, r = .ok (some (.completed report)) t := by
  split at completed
  · next report t => exact ⟨report, t, rfl⟩
  · cases completed

theorem lookup_after_bind_number :
    let s := Session.new (.withPython false) {}
    ∃ report t, take (.command "bind" [.token "x", .token "1"]) s =
        .ok (some (.completed report)) t ∧ t.TellsOwn "lookup" (.token "x") (.literal "1") := by
  intro s
  obtain ⟨report, t, completed⟩ :
      ∃ report t, take (.command "bind" [.token "x", .token "1"]) s =
        .ok (some (.completed report)) t := exists_of_completed (by decide +kernel)
  have parsed : Program.parse ":bind x 1" =
      .ok ⟨[.command "bind" [.token "x", .token "1"]]⟩ := by with_unfolding_all rfl
  have typed : ∀ symbol ∈ [Symbol.token "x", .token "1"], symbol.Typed := fun symbol mem =>
    ⟨_, _, parsed, _, List.mem_singleton.mpr rfl, mem⟩
  have looks : s.commands.lookup "lookup" = some .lookup := rfl
  obtain ⟨name, value, ⟨x, y, args, named, valued⟩, -, -, tells, -⟩ :=
    lookup_after_bind (.new (.withPython false) {}) rfl looks (typed _ (by simp))
      (typed _ (by simp)) completed
  -- neither argument means a concept, since there is none yet
  have nothing : (s.invocation "bind" [.token "x", .token "1"]).args = [2, 3] ∧
      ∀ arg ∈ [2, 3], (s.called "bind" [.token "x", .token "1"]).meantOf
        (s.invocation "bind" [.token "x", .token "1"]) arg = .ok [] := by decide +kernel
  obtain ⟨⟩ := nothing.1.symm.trans args
  rcases named with ⟨-, rfl⟩ | ⟨_, _, meant, -⟩
  · rcases valued with ⟨-, rfl⟩ | ⟨_, meant, -⟩
    · exact ⟨report, t, completed, tells rfl⟩
    · cases (nothing.2 3 (by simp)).symm.trans meant
  · cases (nothing.2 2 (by simp)).symm.trans meant

/-- A concept that was typed as `a` and has been named `b` is bound as `b`, so that nothing is found
when `a` is looked up. -/
theorem lookup_after_bind_renamed :
    let s := (Session.new (.withPython false) {}).afterLines ["a", ":enter_concept a", ":name b"]
    let bound := s.interpret ":bind a 1"
    let told := bound.1.interpret ":lookup a"
    s.Reachable ∧ bound.2 = .ok [.completed [.info "bound 'b' => 1 in b"]] ∧
      bound.1.current = s.current ∧
      bound.1.forest.lookup bound.1.current "a" = .ok [] ∧
      told.2 = .ok [.completed [.info "'a' is unbound in b"]] := by
  constructor
  · exact (Reachable.new (.withPython false) {}).afterLines _
  · decide +kernel

end Session

end ConceptForest
