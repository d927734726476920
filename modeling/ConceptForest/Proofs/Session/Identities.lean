import ConceptForest.Proofs.Forest.Labels
import ConceptForest.Proofs.Session.Texts

/-!
The identity texts of a concept.

A concept is made with its two identity texts at the end of its representations. They stay there,
since what a user gives comes first; but a given text takes the place of the ones that are rendered
alike, and an identity text can be given as well. So the identity texts that come last are those
that were not given (`Concept.EndsWithIdentity`).

* `identityTexts_afterLines` — so it is for all concepts, whatever is typed.
* `identityText_replaced` — the root can be given its own identity text.
-/

namespace ConceptForest

variable {c : Concept}

/-- Two representations are rendered alike exactly if their texts are the same. -/
theorem Representation.sameText_iff {r other : Representation} :
    r.sameText other = true ↔ r.raw = other.raw := by
  rw [sameText, beq_iff_eq, rendered, rendered, renderToken_injective.eq_iff]

namespace Concept

/-- The two texts that name the concept by its identifier. -/
def identityTexts (c : Concept) : List Representation :=
  identityRepresentations c.kind c.identifier

/-- A user gave the concept this text. -/
def IsGiven (c : Concept) (text : String) : Prop :=
  ⟨text, .userSupplied⟩ ∈ c.representations

instance (c : Concept) (text : String) : Decidable (c.IsGiven text) :=
  inferInstanceAs (Decidable (_ ∈ _))

/-- The representations end with the identity texts that were not given, and have no others of the
lowest level. -/
def EndsWithIdentity (c : Concept) : Prop :=
  ∃ front, c.representations = front ++ c.identityTexts.filter (¬ c.IsGiven ·.raw) ∧
    ∀ r ∈ front, r.level ≠ .identity

theorem level_of_mem_identityTexts {r : Representation} (mem : r ∈ c.identityTexts) :
    r.level = .identity := by
  rcases List.mem_cons.mp mem with rfl | mem
  · rfl
  · exact List.mem_singleton.mp mem ▸ rfl

/-- After a text is given, it is a given one, and the others are as they were. -/
theorem isGiven_givenText {text other : String} :
    (c.givenText text).IsGiven other ↔ other = text ∨ c.IsGiven other := by
  simp only [IsGiven, givenText, List.mem_cons, List.mem_filter, Bool.not_eq_true',
    Representation.mk.injEq, and_true, ← Bool.not_eq_true, Representation.sameText_iff]
  constructor
  · rintro (same | ⟨mem, -⟩)
    · exact .inl same
    · exact .inr mem
  · rintro (same | mem)
    · exact .inl same
    · by_cases same : other = text
      · exact .inl same
      · exact .inr ⟨mem, fun eq => same eq.symm⟩

/-- A concept is made without given texts, and with its identity texts last. -/
theorem endsWithIdentity_toConcept {spec : NewConcept} (typed : spec.Typed) (h : Handle) :
    (spec.toConcept h).EndsWithIdentity := by
  have level : ∀ r ∈ spec.representations, r.level ≠ .identity ∧ r.level ≠ .userSupplied := by
    intro r mem
    rcases typed r mem with typed | ⟨derived, -⟩
    · simp [typed]
    · simp [derived]
  have ungiven : ∀ text, ¬ (spec.toConcept h).IsGiven text := by
    intro text given
    rcases List.mem_append.mp given with mem | mem
    · exact (level _ mem).2 rfl
    · cases level_of_mem_identityTexts (c := spec.toConcept h) mem
  refine ⟨spec.representations, ?_, fun r mem => (level r mem).1⟩
  rw [List.filter_eq_self.mpr fun r _ => decide_eq_true (ungiven r.raw)]
  rfl

/-- Of the identity texts, a given text takes away the one that it is, if any. -/
theorem EndsWithIdentity.givenText (ends : c.EndsWithIdentity) (text : String) :
    (c.givenText text).EndsWithIdentity := by
  obtain ⟨front, same, higher⟩ := ends
  refine ⟨⟨text, .userSupplied⟩ :: front.filter (!Representation.sameText ⟨text, .userSupplied⟩ ·),
    ?_, ?_⟩
  · have kept : (c.identityTexts.filter (¬ c.IsGiven ·.raw)).filter
        (!Representation.sameText ⟨text, .userSupplied⟩ ·) =
        c.identityTexts.filter (¬ (c.givenText text).IsGiven ·.raw) := by
      rw [List.filter_filter]
      refine List.filter_congr fun r _ => ?_
      rw [Bool.eq_iff_iff]
      simp only [Bool.and_eq_true, Bool.not_eq_true', ← Bool.not_eq_true, decide_eq_true_eq,
        Representation.sameText_iff, isGiven_givenText, not_or]
      exact and_congr_left' (not_congr eq_comm)
    show _ :: c.representations.filter _ = _
    rw [same, List.filter_append, kept]
    rfl
  · intro r mem
    rcases List.mem_cons.mp mem with rfl | mem
    · exact nofun
    · exact higher r (List.mem_filter.mp mem).1

/-- Whether the identity texts that were not given come last is a matter of the texts. -/
theorem ofTexts_endsWithIdentity : OfTexts EndsWithIdentity where
  alike := by
    intro c d kind identifier same ⟨front, eq, higher⟩
    have own : d.identityTexts = c.identityTexts := by
      rw [identityTexts, kind, identifier, identityTexts]
    have given : ∀ text, d.IsGiven text ↔ c.IsGiven text := fun text => by
      rw [IsGiven, same, IsGiven]
    refine ⟨front, ?_, higher⟩
    simp only [same, eq, own, given]
  made := endsWithIdentity_toConcept
  given := EndsWithIdentity.givenText

namespace EndsWithIdentity

/-- The representations of the lowest level are the identity texts that were not given. -/
theorem filter_level (ends : c.EndsWithIdentity) :
    c.representations.filter (·.level = .identity) =
      c.identityTexts.filter (¬ c.IsGiven ·.raw) := by
  obtain ⟨front, same, higher⟩ := ends
  rw [same, List.filter_append, List.filter_eq_nil_iff.mpr, List.nil_append,
    List.filter_eq_self]
  · intro r mem
    exact decide_eq_true (level_of_mem_identityTexts (List.mem_filter.mp mem).1)
  · intro r mem
    simpa using higher r mem

/-- Both identity texts come last exactly if none of them was given. -/
theorem suffix_iff (ends : c.EndsWithIdentity) :
    c.identityTexts <:+ c.representations ↔ ∀ r ∈ c.identityTexts, ¬ c.IsGiven r.raw := by
  constructor
  · intro last r mem
    have own : c.identityTexts.filter (·.level = .identity) = c.identityTexts :=
      List.filter_eq_self.mpr fun r mem => decide_eq_true (level_of_mem_identityTexts mem)
    have within : c.identityTexts.Sublist (c.identityTexts.filter (¬ c.IsGiven ·.raw)) := by
      rw [← ends.filter_level]
      exact own ▸ (last.filter _).sublist
    have all := within.antisymm List.filter_sublist
    exact of_decide_eq_true (List.filter_eq_self.mp all.symm r mem)
  · intro ungiven
    obtain ⟨front, same, -⟩ := ends
    rw [List.filter_eq_self.mpr fun r mem => decide_eq_true (ungiven r mem)] at same
    exact ⟨front, same.symm⟩

/-- An identity text that is not of the lowest level any more is a given one. -/
theorem exists_of_mem (ends : c.EndsWithIdentity) {r : Representation}
    (mem : r ∈ c.identityTexts) : ∃ n ∈ c.representations, n.raw = r.raw := by
  by_cases given : c.IsGiven r.raw
  · exact ⟨_, given, rfl⟩
  · obtain ⟨front, same, -⟩ := ends
    refine ⟨r, ?_, rfl⟩
    rw [same]
    exact List.mem_append_right _ (List.mem_filter.mpr ⟨mem, decide_eq_true given⟩)

end EndsWithIdentity

end Concept

namespace Session

variable {s : Session} {h : Handle}

/-- Whatever is typed, each concept is known by its two identity texts, and they are the only ones
of the lowest level and come last, but for those that a user gave it as a text of its own. -/
theorem identityTexts_afterLines (reachable : s.Reachable) (lines : List String)
    (live : (s.afterLines lines).forest.get? h = some c) :
    (∃ front, c.representations = front ++ c.identityTexts.filter (¬ c.IsGiven ·.raw) ∧
        ∀ r ∈ front, r.level ≠ .identity) ∧
      (c.identityTexts <:+ c.representations ↔ ∀ r ∈ c.identityTexts, ¬ c.IsGiven r.raw) ∧
      ∀ r ∈ c.identityTexts, ∃ n ∈ c.representations, n.raw = r.raw := by
  have ends : c.EndsWithIdentity :=
    (reachable.afterLines lines).every Concept.ofTexts_endsWithIdentity h c live
  exact ⟨ends, ends.suffix_iff, fun r mem => ends.exists_of_mem mem⟩

/-- The symbol is given the one of its identity texts in which its kind is told. -/
theorem identityTexts_afterLines_symbol :
    let s := Session.new (.withPython false) {}
    let lines := ["a", ":enter_concept a", ":name [[#|Symbol id=2|#]]", ":name b"]
    ∃ c, (s.afterLines lines).forest.get? 2 = some c ∧
      (∃ front, c.representations = front ++ c.identityTexts.filter (¬ c.IsGiven ·.raw) ∧
          ∀ r ∈ front, r.level ≠ .identity) ∧
        (c.identityTexts <:+ c.representations ↔ ∀ r ∈ c.identityTexts, ¬ c.IsGiven r.raw) ∧
        ∀ r ∈ c.identityTexts, ∃ n ∈ c.representations, n.raw = r.raw := by
  intro s lines
  have contained : ((s.afterLines lines).forest.get? 2).isSome = true := by decide +kernel
  obtain ⟨c, live⟩ := Option.isSome_iff_exists.mp contained
  exact ⟨c, live, identityTexts_afterLines (.new (.withPython false) {}) lines live⟩

/-- The root of a new session is given its own identity text, which is then no longer among the last
of its representations. -/
theorem identityText_replaced :
    let s := (Session.new (.withPython false) {}).afterLines [":name #|id=0|#"]
    ∃ c, s.forest.get? 0 = some c ∧ c.representations =
        [⟨"#|id=0|#", .userSupplied⟩, ⟨"#|Root id=0|#", .identity⟩] ∧
      ¬ c.identityTexts <:+ c.representations := by
  intro s
  have texts : (s.forest.get? 0).map (fun c => (c.kind, c.identifier, c.representations)) =
      some (.root, .assigned 0,
        [⟨"#|id=0|#", .userSupplied⟩, ⟨"#|Root id=0|#", .identity⟩]) := by decide +kernel
  obtain ⟨c, live, texts⟩ := Option.map_eq_some_iff.mp texts
  obtain ⟨kind, identifier, texts⟩ := by simpa only [Prod.mk.injEq] using texts
  refine ⟨c, live, texts, ?_⟩
  rw [Concept.identityTexts, kind, identifier, texts]
  decide +kernel

end Session

end ConceptForest
