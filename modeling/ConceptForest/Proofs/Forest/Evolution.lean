import ConceptForest.Proofs.Forest.Lifting

/-!
How forests come out of one another.

* `Extends` — all concepts are still there, perhaps changed or moved, and there may be new ones. All
  edits but a release make forests like this.
* `Evolves` — whatever there is of the old concepts was there before: handles are given out in
  order, and none comes to life again. All edits make forests like this, whether granted or refused.
-/

namespace ConceptForest

namespace Forest

variable {e f g : Forest} {h p : Handle}

/-- The second forest is well-formed and has the concepts of the first one, and perhaps others. -/
structure Extends (f g : Forest) : Prop where
  wellFormed : g.WellFormed
  next_le : f.next ≤ g.next
  contains_eq : ∀ k, k < f.next → g.contains k = f.contains k

namespace Extends

theorem refl (wf : f.WellFormed) : f.Extends f :=
  ⟨wf, Nat.le_refl _, fun _ _ => rfl⟩

theorem trans (first : e.Extends f) (second : f.Extends g) : e.Extends g where
  wellFormed := second.wellFormed
  next_le := Nat.le_trans first.next_le second.next_le
  contains_eq k old := by
    rw [second.contains_eq k (Nat.lt_of_lt_of_le old first.next_le), first.contains_eq k old]

theorem contains (later : f.Extends g) (live : f.contains h = true) : g.contains h = true := by
  rw [later.contains_eq h (lt_next_of_contains live), live]

end Extends

theorem Rewired.toExtends (rewired : f.Rewired g) (wf : g.WellFormed) : f.Extends g :=
  ⟨wf, Nat.le_of_eq rewired.next_eq.symm, fun k _ => rewired.contains_eq k⟩

theorem Kept.toExtends (kept : f.Kept g) (wf : f.WellFormed) : f.Extends g :=
  ⟨kept.wellFormed wf, Nat.le_of_eq kept.next_eq.symm, fun k _ => kept.contains_eq k⟩

theorem extends_update (wf : f.WellFormed) (h : Handle) {change : Concept → Concept}
    (keeps : KeepsPlace change) : f.Extends (f.update h change) :=
  (kept_update f h keeps).toExtends wf

theorem extends_created (wf : f.WellFormed) {spec : NewConcept} (admits : f.Admits spec) :
    f.Extends (f.created spec) where
  wellFormed := wf.created admits
  next_le := by simp
  contains_eq k old := by simp [Nat.ne_of_lt old]

theorem extends_gathered (wf : f.WellFormed) {members : List Handle} {owner : Handle} {place : Nat}
    (gathers : f.Gathers members owner place) : f.Extends (f.gathered members owner place) where
  wellFormed := wf.gathered gathers
  next_le := by simp
  contains_eq k old := by simp [Nat.ne_of_lt old]

/-- The second forest is well-formed, and all that it has of the concepts of the first one was live
there. -/
structure Evolves (f g : Forest) : Prop where
  wellFormed : g.WellFormed
  next_le : f.next ≤ g.next
  contains_of_contains : ∀ k, k < f.next → g.contains k = true → f.contains k = true

theorem Extends.evolves (later : f.Extends g) : f.Evolves g where
  wellFormed := later.wellFormed
  next_le := later.next_le
  contains_of_contains k old live := by rwa [later.contains_eq k old] at live

namespace Evolves

theorem refl (wf : f.WellFormed) : f.Evolves f :=
  (Extends.refl wf).evolves

theorem trans (first : e.Evolves f) (second : f.Evolves g) : e.Evolves g where
  wellFormed := second.wellFormed
  next_le := Nat.le_trans first.next_le second.next_le
  contains_of_contains k old live := by
    apply first.contains_of_contains k old
    exact second.contains_of_contains k (Nat.lt_of_lt_of_le old first.next_le) live

end Evolves

theorem evolves_released (wf : f.WellFormed) (root : f.parent? h = none) {doomed : List Handle}
    (whole : ∀ k, k ∈ doomed ↔ k = h ∨ f.Owns h k) : f.Evolves (f.released doomed) where
  wellFormed := wf.released root whole
  next_le := by rw [(kept_released f doomed).next_eq, next_without]
  contains_of_contains k _ live := by
    rw [(kept_released f doomed).contains_eq, contains, get?_without] at live
    split at live
    · cases live
    · exact live

end Forest

end ConceptForest
