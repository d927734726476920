/-!
Marks: fixed runs of characters that open or close something.
-/

namespace ConceptForest.Text

/-- What stands before the first occurrence of `mark`, and what stands behind it. -/
def breakOn (mark : List Char) : List Char → Option (List Char × List Char)
  | [] => none
  | c :: cs =>
    match mark.isPrefixOf? (c :: cs) with
    | some rest => some ([], rest)
    | none => (breakOn mark cs).map fun (body, rest) => (c :: body, rest)

theorem append_of_isPrefixOf? {mark cs rest : List Char} (h : mark.isPrefixOf? cs = some rest) :
    mark ++ rest = cs := by
  induction mark generalizing cs with
  | nil =>
    obtain rfl := Option.some.inj h
    rfl
  | cons m mark ih =>
    cases cs with
    | nil => cases h
    | cons c cs =>
      have h : (if m == c then mark.isPrefixOf? cs else none) = some rest := h
      split at h
      · next heq => rw [List.cons_append, ih h, beq_iff_eq.mp heq]
      · simp at h

theorem append_of_isPrefixOf {mark cs : List Char} (h : mark.isPrefixOf cs = true) :
    mark ++ cs.drop mark.length = cs := by
  obtain ⟨rest, rfl⟩ := List.isPrefixOf_iff_prefix.mp h
  simp

/-- The mark and what stands on its two sides make up the text. -/
theorem append_of_breakOn {mark cs body rest : List Char}
    (h : breakOn mark cs = some (body, rest)) : body ++ mark ++ rest = cs := by
  induction cs generalizing body with
  | nil => simp [breakOn] at h
  | cons c cs ih =>
    simp only [breakOn] at h
    split at h
    · next hp =>
      obtain ⟨rfl, rfl⟩ := Prod.mk.inj (Option.some.inj h)
      simpa using append_of_isPrefixOf? hp
    · obtain ⟨⟨b, r⟩, hb, he⟩ := Option.map_eq_some_iff.mp h
      obtain ⟨rfl, rfl⟩ := Prod.mk.inj he
      rw [List.cons_append, List.cons_append, ih hb]

end ConceptForest.Text
