import ConceptForest.Proofs.Forest.Edges

/-!
Changes of concepts in their places.

A change that leaves a concept where it is (`KeepsPlace`) leaves a forest well-formed
(`WellFormed.update`). Changes of associations are such changes, and others of the kind can follow
(`Kept`).
-/

namespace ConceptForest

namespace Forest

variable {f g : Forest} {h k : Handle} {c : Concept}

/-- The change leaves a concept in its place, and does not take its last representation away. -/
structure KeepsPlace (change : Concept → Concept) : Prop where
  handle_eq : ∀ c, (change c).handle = c.handle
  parent_eq : ∀ c, (change c).parent = c.parent
  children_eq : ∀ c, (change c).children = c.children
  representations_ne_nil : ∀ c, c.representations ≠ [] → (change c).representations ≠ []

section Update

variable {change : Concept → Concept}

theorem KeepsPlace.parent?_update (keeps : KeepsPlace change) (h k : Handle) :
    (f.update h change).parent? k = f.parent? k := by
  rw [Forest.parent?_update]
  split
  · next same => simp [same, keeps.parent_eq, parent?]
  · rfl

theorem KeepsPlace.childrenOf_update (keeps : KeepsPlace change) (h k : Handle) :
    (f.update h change).childrenOf k = f.childrenOf k := by
  rw [Forest.childrenOf_update]
  split
  · next same => simp [same, keeps.children_eq, childrenOf]
  · rfl

@[simp] theorem handles_update (f : Forest) (h : Handle) (change : Concept → Concept) :
    (f.update h change).handles = f.handles := by
  simp only [handles, next_update, funext (contains_update f h · change)]

theorem WellFormed.update (wf : f.WellFormed) (h : Handle) (keeps : KeepsPlace change) :
    (f.update h change).WellFormed where
  handle_eq {k d} live := by
    rw [get?_update] at live
    split at live
    · obtain ⟨c, was, rfl⟩ := Option.map_eq_some_iff.mp live
      rw [keeps.handle_eq, wf.handle_eq was]
    · exact wf.handle_eq live
  mem_childrenOf := by
    intro p k
    rw [keeps.childrenOf_update, keeps.parent?_update, wf.mem_childrenOf]
  nodup_childrenOf p := by
    rw [keeps.childrenOf_update]
    exact wf.nodup_childrenOf p
  wellFounded := by
    simpa only [keeps.parent?_update] using wf.wellFounded
  representations_ne_nil {k d} live := by
    rw [get?_update] at live
    split at live
    · obtain ⟨c, was, rfl⟩ := Option.map_eq_some_iff.mp live
      exact keeps.representations_ne_nil c (wf.representations_ne_nil was)
    · exact wf.representations_ne_nil live
  live_eq := by rw [handles_update, ← wf.live_eq]; rfl

end Update

theorem keepsPlace_context (new : Concept → Context) :
    KeepsPlace fun c => { c with context := new c } :=
  ⟨fun _ => rfl, fun _ => rfl, fun _ => rfl, fun _ some => some⟩

theorem keepsPlace_addRepresentation (r : Representation) :
    KeepsPlace fun c =>
      { c with representations := r :: c.representations.filter (!r.sameText ·) } :=
  ⟨fun _ => rfl, fun _ => rfl, fun _ => rfl, fun _ _ => List.cons_ne_nil _ _⟩

theorem keepsPlace_associatedBy (new : Concept → List Association) :
    KeepsPlace fun c => { c with associatedBy := new c } :=
  ⟨fun _ => rfl, fun _ => rfl, fun _ => rfl, fun _ some => some⟩

theorem keepsPlace_associations (new : Concept → List Association) :
    KeepsPlace fun c => { c with associations := new c } :=
  ⟨fun _ => rfl, fun _ => rfl, fun _ => rfl, fun _ some => some⟩

/-! ### One change after the other -/

/-- The second forest has the same concepts in the same places. -/
structure Kept (f g : Forest) : Prop where
  wellFormed : f.WellFormed → g.WellFormed
  next_eq : g.next = f.next
  contains_eq : ∀ k, g.contains k = f.contains k

theorem Kept.refl (f : Forest) : f.Kept f :=
  ⟨id, rfl, fun _ => rfl⟩

theorem Kept.trans {e : Forest} (first : e.Kept f) (second : f.Kept g) : e.Kept g where
  wellFormed wf := second.wellFormed (first.wellFormed wf)
  next_eq := second.next_eq.trans first.next_eq
  contains_eq k := (second.contains_eq k).trans (first.contains_eq k)

theorem Kept.handles_eq (kept : f.Kept g) : g.handles = f.handles := by
  rw [handles, handles, kept.next_eq, funext kept.contains_eq]

theorem kept_update (f : Forest) (h : Handle) {change : Concept → Concept}
    (keeps : KeepsPlace change) : f.Kept (f.update h change) where
  wellFormed wf := wf.update h keeps
  next_eq := next_update _ _ _
  contains_eq k := contains_update f h k change

theorem kept_foldl {α : Type} {step : Forest → α → Forest}
    (each : ∀ (f : Forest) a, f.Kept (step f a)) (f : Forest) (as : List α) :
    f.Kept (as.foldl step f) := by
  induction as generalizing f with
  | nil => exact .refl f
  | cons a as ih => exact (each f a).trans (ih _)

/-! ### Associations -/

/-- What becomes of a forest when a concept is associated with another one. -/
def associated (f : Forest) (source target : Handle) (kind : AssociationKind) : Forest :=
  if (f.get? source).any (·.associations.contains ⟨kind, target⟩) then f
  else
    (f.update source fun c => { c with associations := c.associations ++ [⟨kind, target⟩] }).update
      target fun c => { c with associatedBy := c.associatedBy ++ [⟨kind, source⟩] }

/-- What becomes of a forest when an association is forgotten. -/
def dissociated (f : Forest) (source target : Handle) (kind : AssociationKind) : Forest :=
  (f.update source fun c =>
    { c with associations := c.associations.filter (· != ⟨kind, target⟩) }).update target fun c =>
      { c with associatedBy := c.associatedBy.filter (· != ⟨kind, source⟩) }

theorem kept_associated (f : Forest) (source target : Handle) (kind : AssociationKind) :
    f.Kept (f.associated source target kind) := by
  unfold associated
  split
  · exact .refl f
  · exact (kept_update _ _ (keepsPlace_associations _)).trans
      (kept_update _ _ (keepsPlace_associatedBy _))

theorem kept_dissociated (f : Forest) (source target : Handle) (kind : AssociationKind) :
    f.Kept (f.dissociated source target kind) :=
  (kept_update _ _ (keepsPlace_associations _)).trans
    (kept_update _ _ (keepsPlace_associatedBy _))

end Forest

end ConceptForest
