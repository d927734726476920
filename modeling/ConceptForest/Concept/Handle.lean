/-!
Handles of concepts.

A handle is a number given out once: handles are never given out again after their concept has been
released, so an old handle never comes to mean another concept.
-/

namespace ConceptForest

/-- Names a concept of a forest. -/
abbrev Handle := Nat

/-- How a handle is shown. -/
def Handle.text (h : Handle) : String := s!"#{h}"

end ConceptForest
