import ConceptForest.Proofs.Forest.Labels
import ConceptForest.Proofs.Session.Binding
import ConceptForest.Proofs.Session.Texts

/-!
Concepts that are entered.

An argument means whatever can be written as its own concept can be written, and that concept has a
handle of its own, by which it is named as well. No other concept is named by that handle, and no
text that is derived names one; but a text that does can be typed before the handle is given out.

* `Reachable.labelled` — whatever is typed, all concepts of a session are labelled.
* `reference_token` — what an argument that is a single token describes.
* `entered_as_typed` — what is entered is known by the token that was typed, or by a text of the
  user's that names the concept of the argument.
* `entered_by_handle` — the latter does happen.
-/

namespace ConceptForest

open Grammar (Symbol Expression)
open Build (Resolves)

variable {f g : Forest} {h parent : Handle}

/-! ### What is known of a leaf -/

namespace Expansion

/-- A choice of texts describes what has one of them. -/
theorem describes_texts_iff {rs : List Representation} {t : Tree} :
    (choice (rs.map fun r => leaf r.rendered)).describes t = true ↔
      ∃ r ∈ rs, ∃ other ∈ t.concept.representations, other.rendered = r.rendered := by
  simp [describes, anyDescribes_eq_any]

end Expansion

/-- A concept without children can be written by its texts only. -/
theorem Forest.expand_of_leaf (wf : f.WellFormed) {c : Concept} (live : f.get? h = some c)
    (alone : c.children = []) :
    f.expand h = .ok (.choice (c.representations.map fun r => .leaf r.rendered)) := by
  obtain ⟨ts, found, -, children⟩ := exists_node wf live
  obtain rfl : ts = [] := List.map_eq_nil_iff.mp (children.trans alone)
  rw [Forest.expand, found]
  simp only [ok_bind, Expansion.ofTree, List.isEmpty_nil, if_true, List.append_nil]
  rfl

/-- What is built of a command with one token: the concept of the token is the only child. -/
theorem Build.get?_token (wf : f.WellFormed) (live : f.contains parent = true)
    {registry : Script.Registry} {name text : String}
    (built : Edit.buildOne registry parent (.command name [.token text]) f = .ok h g) :
    (∃ c, g.get? f.next = some c ∧ c.children = [f.next + 1]) ∧
      g.get? (f.next + 1) = some { (tokenConcept f.next text).toConcept (f.next + 1) with
        parent := some f.next } := by
  have admits := admits_commandConcept live name [.token text] f.next
  have there := contains_next_created f (commandConcept parent name [.token text] f.next)
  have resolves : Resolves registry (Grammar.snippetsOfSymbols [.token text]) := nofun
  have below := buildSymbols_of_command wf live resolves built
  obtain ⟨made, -⟩ := create_of_plain (wf.created admits) (tokenConcept f.next text)
    ⟨nofun, rfl, rfl⟩ rfl rfl there
  have below' : buildSymbols registry f.next [.token text]
      (f.created (commandConcept parent name [.token text] f.next)) = .ok () _ := bind_of_ok made
  obtain rfl : _ = g := by injection below'.symm.trans below
  have next := Forest.next_created f (commandConcept parent name [.token text] f.next)
  constructor
  · have children : Gets _ (Forest.created _ (tokenConcept f.next text)) f.next _ :=
      gets_created rfl rfl there
    rw [Gets, get?_next_created rfl rfl live, Option.map_some, next] at children
    exact ⟨_, children, rfl⟩
  · have token : (Forest.created _ (tokenConcept f.next text)).get? _ = _ :=
      get?_next_created rfl rfl there
    rwa [next] at token

namespace Concept

/-- The concept is known by a text that was typed, or by the one that is derived from it. -/
def KnownAs (c : Concept) (text : String) : Prop :=
  ∃ r ∈ c.representations,
    r.rendered = renderToken text ∨ r.rendered = renderToken s!"#|Symbol:{text}|#"

/-- A text of the concept that was typed or given by a user names a symbol by its handle. -/
def PosesAs (c : Concept) (h : Handle) : Prop :=
  ∃ r ∈ c.representations,
    (r.level = .inputMorphism ∨ r.level = .userSupplied) ∧ NamesSymbol r.raw h

/-- A concept that has a text of the concept of a token, which has another handle, is known by the
token, since the texts that it was given itself do not name that handle. -/
theorem Labelled.knownAs_or_posesAs {c : Concept} (labelled : c.Labelled)
    (own : c.identifier = .assigned h) {k : Handle} (ne : h ≠ k) {text : String}
    {r other : Representation}
    (mem : r ∈ ((Build.tokenConcept parent text).toConcept k).representations)
    (known : other ∈ c.representations) (alike : other.rendered = r.rendered) :
    c.KnownAs text ∨ c.PosesAs k := by
  have poses : NamesSymbol other.raw k → c.PosesAs k := by
    intro names
    exact ⟨other, known, (labelled other known).level_eq own names.namesConcept ne, names⟩
  simp only [NewConcept.toConcept, Build.tokenConcept, identityRepresentations,
    List.mem_append, List.mem_cons, List.not_mem_nil, or_false] at mem
  rcases mem with (rfl | rfl) | rfl | rfl
  · exact .inl ⟨other, known, .inl alike⟩
  · exact .inl ⟨other, known, .inr alike⟩
  · exact .inr (poses (.inl (renderToken_injective alike)))
  · exact .inr (poses (.inr (renderToken_injective alike)))

end Concept

namespace Session

variable {s t : Session} {root : Handle} {word text : String} {call : Invocation}

/-- All concepts of a session are labelled, whatever has been typed before. -/
theorem Reachable.labelled (reachable : s.Reachable) : s.forest.Every Concept.Labelled :=
  reachable.every ofTexts_labelled

/-! ### What is entered -/

/-- An argument that is a single token describes whatever has one of the texts of its concept. -/
theorem reference_token (rest : s.AtRest root) (word text : String) :
    (s.called word [.token text]).forest.reference (s.invocation word [.token text]).args =
      .ok (some (.choice (((Build.tokenConcept s.forest.next text).toConcept
        (s.forest.next + 1)).representations.map fun r => .leaf r.rendered))) := by
  have live := rest.stays_current.1
  have old := Forest.lt_next_of_contains live
  have resolves : Resolves s.registry (Grammar.snippetsOfSymbols [.token text]) := nofun
  obtain ⟨g, c, granted, built, top, called, invocation⟩ := exists_called rest word resolves
  obtain ⟨⟨d, top', alone⟩, token⟩ := Build.get?_token rest.forest.wellFormed live granted
  obtain rfl : c = d := Option.some.inj (top.symm.trans top')
  obtain ⟨d, top', owned, -⟩ := Forest.get?_command live built
  have there := Forest.get?_detached ((Forest.parent?_of_get? top').trans owned)
    (Nat.ne_of_lt old) (s.forest.next + 1)
  rw [if_neg (Nat.succ_ne_self _), if_neg (Nat.ne_of_gt (Nat.lt_succ_of_lt old)), token] at there
  have wf := (rest.calling built).forest.wellFormed
  rw [called, invocation, alone]
  simp only [Forest.reference, Forest.expand_of_leaf wf there rfl, ok_bind]
  rfl

/-- The concept that is entered is the one that the arguments mean. -/
theorem enter_completed {report : List Prompt} (done : enter call s = .ok report t) :
    s.theOne call "concept to enter" = .ok t.current ∧ t.forest = s.forest := by
  unfold enter at done
  obtain ⟨h, _, found, moved⟩ := exists_of_bind_eq_ok done
  obtain ⟨found, rfl⟩ := ask_eq_ok_iff.mp found
  obtain ⟨⟩ := moved
  exact ⟨found, rfl⟩

/-- What is entered was there before the command, is as it was, and is known by the token that was
typed; unless one of its texts, typed or given by a user, names the concept that the token becomes
for the time of the command. -/
theorem entered_as_typed (reachable : s.Reachable) (enters : s.commands.lookup word = some .enter)
    {report : List Prompt}
    (completed : take (.command word [.token text]) s = .ok (some (.completed report)) t) :
    ∃ c, s.forest.get? t.current = some c ∧ t.forest.get? t.current = some c ∧
      (c.KnownAs text ∨ c.PosesAs (s.forest.next + 1)) := by
  have rest := reachable.atRest.1
  have resolves : Resolves s.registry (Grammar.snippetsOfSymbols [.token text]) := nofun
  obtain ⟨u, dispatched, current_eq, left_eq⟩ := take_called rest resolves completed
  obtain ⟨going, tidy, stays, old_eq, -⟩ :=
    called_spec rest word (List.forall_mem_singleton.mpr (.token text)) resolves
  have enters : (s.called word [.token text]).commands.lookup
      (s.invocation word [.token text]).word = some .enter := enters
  obtain ⟨found, forest_eq⟩ := enter_completed ((dispatch_completed_iff enters).mp dispatched)
  rw [← current_eq] at found
  have old := stays _ (tidy.stays_of_theOne found)
  obtain ⟨e, reference, meant⟩ := theOne_eq_ok_iff.mp found
  obtain ⟨⟩ := (reference_token rest word text).symm.trans reference
  obtain ⟨tree, shows, same, described, -⟩ :=
    Forest.exists_of_mem_resolve tidy.forest.wellFormed meant List.mem_cons_self
  obtain ⟨r, mem, other, known, alike⟩ := Expansion.describes_texts_iff.mp described
  cases shows with
  | @node h c ts live _ _ =>
    obtain rfl : h = t.current := same
    have was := (old_eq _ old).symm.trans live
    refine ⟨c, was, by rw [left_eq _ old, forest_eq, live], ?_⟩
    have own : c.identifier = .assigned t.current := by
      rw [(rest.forest.orderly _ c was id).identifier_eq, rest.forest.wellFormed.handle_eq was]
    have ne : t.current ≠ s.forest.next + 1 := Nat.ne_of_lt (Nat.lt_succ_of_lt old)
    exact (reachable.labelled _ c was).knownAs_or_posesAs own ne mem known alike

theorem entered_as_typed_symbol :
    let s := (Session.new (.withPython false) {}).afterLines ["a b"]
    ∃ report t, take (.command "enter_concept" [.token "b"]) s =
        .ok (some (.completed report)) t ∧
      ∃ c, t.forest.get? t.current = some c ∧ (c.KnownAs "b" ∨ c.PosesAs 5) := by
  intro s
  obtain ⟨report, t, completed⟩ :
      ∃ report t, take (.command "enter_concept" [.token "b"]) s =
        .ok (some (.completed report)) t := exists_of_completed (by decide +kernel)
  have reachable : s.Reachable := (Reachable.new (.withPython false) {}).afterLines ["a b"]
  have enters : s.commands.lookup "enter_concept" = some .enter := by decide +kernel
  have next : s.forest.next + 1 = 5 := by decide +kernel
  obtain ⟨c, -, live, known⟩ := entered_as_typed reachable enters completed
  exact ⟨report, t, completed, c, live, next ▸ known⟩

/-- A symbol that was typed as `#|id=4|#` is entered as `foo`, since the concept of the argument has
the handle 4. -/
theorem entered_by_handle :
    let s := (Session.new (.withPython false) {}).afterLines ["#|id=4|#"]
    let entered := s.interpret ":enter_concept foo"
    s.Reachable ∧ entered.2 = .ok [.completed [.info "entered #|id=4|#"]] ∧
      ∃ c, entered.1.forest.get? entered.1.current = some c ∧ ¬ c.KnownAs "foo" := by
  intro s entered
  refine ⟨(Reachable.new (.withPython false) {}).afterLines _, by decide +kernel, ?_⟩
  have texts : (entered.1.forest.get? entered.1.current).map Concept.representations =
      some [⟨"#|id=4|#", .inputMorphism⟩, ⟨"#|Symbol:#|id=4|#|#", .systemInformation⟩,
        ⟨"#|id=2|#", .identity⟩, ⟨"#|Symbol id=2|#", .identity⟩] := by decide +kernel
  obtain ⟨c, live, texts⟩ := Option.map_eq_some_iff.mp texts
  refine ⟨c, live, ?_⟩
  rw [Concept.KnownAs, texts]
  decide +kernel

end Session

end ConceptForest
