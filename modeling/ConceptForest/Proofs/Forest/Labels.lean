import ConceptForest.Proofs.Forest.Texts

/-!
What the level of a representation says of its text.

A text of the lowest level names the concept that has it, by its identifier and its kind, and a text
that is derived says what the concept was made of; only what was typed or given by a user can be any
text at all. A concept of which this is so is labelled (`Labelled`).

* `ofTexts_labelled` — concepts are labelled when they are made, and stay so.
* `NamesConcept.eq` — no text names two concepts by their handles.
* `Representation.Fits.level_eq` — a text that names another concept by its handle was typed or
  given by a user.
-/

namespace ConceptForest

variable {h : Handle} {c : Concept}

/-- What the level of a representation says of its text. -/
def Representation.Fits (r : Representation) (c : Concept) : Prop :=
  match r.level with
  | .identity => r ∈ identityRepresentations c.kind c.identifier
  | .systemInformation =>
    ∃ text : String, r.raw = s!"#|Symbol:{text}|#" ∨ r.raw = s!"#|Script:{text}|#"
  | .inputMorphism | .userSupplied => True

/-- The level of each representation says of its text what it should. -/
def Concept.Labelled (c : Concept) : Prop :=
  ∀ r ∈ c.representations, r.Fits c

/-! ### Texts that name a handle -/

/-- Two texts are rendered alike only if they are the same. -/
theorem renderToken_injective : Function.Injective renderToken := by
  have blank_eq : ∀ text, (renderToken text).toList.any Text.isBlank =
      text.toList.any Text.isBlank := by
    intro text
    unfold renderToken
    split
    · next blank => simp [String.toList_append, blank]
    · rfl
  intro text other same
  have blank := congrArg (·.toList.any Text.isBlank) same
  simp only [blank_eq] at blank
  unfold renderToken at same
  rw [blank] at same
  split at same
  · exact (String.append_right_inj _).mp ((String.append_left_inj _).mp same)
  · exact same

/-- The text is one of those that name a concept of some kind by its handle. -/
def NamesConcept (text : String) (h : Handle) : Prop :=
  ∃ kind, ∃ r ∈ identityRepresentations kind (.assigned h), r.raw = text

/-- The text is one of the two that name a symbol by its handle. -/
def NamesSymbol (text : String) (h : Handle) : Prop :=
  text = s!"#|id={h}|#" ∨ text = s!"#|Symbol id={h}|#"

section NamesConcept

variable {k : Handle} {text : String}

theorem NamesSymbol.namesConcept (names : NamesSymbol text h) : NamesConcept text h := by
  rcases names with rfl | rfl
  · exact ⟨.symbol, _, List.mem_cons_self, rfl⟩
  · exact ⟨.symbol, _, List.mem_cons_of_mem _ List.mem_cons_self, rfl⟩

/-- The handle stands in a text that names it behind the only equals sign. -/
theorem NamesConcept.exists_toList (names : NamesConcept text h) :
    ∃ front, text.toList = front ++ '=' :: (Nat.toDigits 10 h ++ ['|', '#']) ∧ '=' ∉ front := by
  obtain ⟨kind, r, own, rfl⟩ := names
  rcases List.mem_cons.mp own with rfl | own
  · exact ⟨"#|id".toList, by simp [toString, Identifier.text, Nat.repr], by decide⟩
  · obtain rfl := List.mem_singleton.mp own
    refine ⟨s!"#|{kind.name} id".toList, by simp [toString, Identifier.text, Nat.repr], ?_⟩
    cases kind <;> decide

/-- A text names one concept at most, of whatever kind. -/
theorem NamesConcept.eq (names : NamesConcept text h) (names' : NamesConcept text k) : h = k := by
  obtain ⟨front, same, before⟩ := names.exists_toList
  obtain ⟨front', same', -⟩ := names'.exists_toList
  have behind : '=' ∉ Nat.toDigits 10 h ++ ['|', '#'] := by
    intro mem
    rcases List.mem_append.mp mem with digit | mark
    · have isDigit := Nat.isDigit_of_mem_toDigits (by decide) (by decide) digit
      exact absurd isDigit (by decide)
    · exact absurd mark (by decide)
  have whole := same.symm.trans same'
  obtain ⟨-, -, digits⟩ := (List.append_cons_inj_of_notMem before behind).mp whole
  exact Nat.repr_inj.mp (congrArg String.ofList (List.append_cancel_right digits))

/-- A text that is derived names no handle. -/
theorem not_namesConcept {made : String}
    (derived : text = s!"#|Symbol:{made}|#" ∨ text = s!"#|Script:{made}|#") :
    ¬ NamesConcept text k := by
  rintro ⟨kind, r, own, rfl⟩
  rcases List.mem_cons.mp own with rfl | own
  · rcases derived with same | same
    all_goals
      have same := congrArg String.toList same
      simp [toString] at same
  · obtain rfl := List.mem_singleton.mp own
    rcases derived with same | same
    all_goals
      have same := congrArg String.toList same
      cases kind <;> simp [toString, Kind.name] at same

/-- Only a text that was typed or given by a user names another handle than that of the concept
that has it. -/
theorem Representation.Fits.level_eq {r : Representation} (fits : r.Fits c)
    (own : c.identifier = .assigned h) (names : NamesConcept r.raw k) (ne : h ≠ k) :
    r.level = .inputMorphism ∨ r.level = .userSupplied := by
  unfold Representation.Fits at fits
  split at fits
  · rw [own] at fits
    exact absurd (NamesConcept.eq ⟨_, r, fits, rfl⟩ names) ne
  · obtain ⟨text, derived⟩ := fits
    exact absurd names (not_namesConcept derived)
  · next level => exact .inl level
  · next level => exact .inr level

end NamesConcept

/-! ### Concepts that are made and named -/

/-- A text that a concept is made with fits it. -/
theorem Representation.OfMaking.fits {r : Representation} (making : r.OfMaking) : r.Fits c := by
  rcases making with level | ⟨level, derived⟩
  · simp only [Fits, level]
  · simpa only [Fits, level] using derived

/-- The texts of the lowest level that a concept is made with are its own. -/
theorem NewConcept.Typed.labelled {spec : NewConcept} (typed : spec.Typed) (h : Handle) :
    (spec.toConcept h).Labelled := by
  intro r mem
  rcases List.mem_append.mp mem with given | own
  · exact (typed r given).fits
  · have level : r.level = .identity := by
      rcases List.mem_cons.mp own with rfl | own
      · rfl
      · exact List.mem_singleton.mp own ▸ rfl
    unfold Representation.Fits
    rw [level]
    exact own

/-- Whether a concept is labelled is a matter of its texts, and a user may give it any. -/
theorem ofTexts_labelled : OfTexts Concept.Labelled where
  alike := by
    intro c d kind identifier same labelled r mem
    have fits := labelled r (same ▸ mem)
    rwa [Representation.Fits, ← kind, ← identifier] at fits
  made := NewConcept.Typed.labelled
  given := by
    intro c labelled text r mem
    rcases List.mem_cons.mp mem with rfl | mem
    · exact trivial
    · exact labelled r (List.mem_filter.mp mem).1

end ConceptForest
