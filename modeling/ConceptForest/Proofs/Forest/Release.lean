import ConceptForest.Proofs.Forest.Descent
import ConceptForest.Proofs.Forest.Changes
import ConceptForest.Proofs.Steps

/-!
Releasing concepts.

A concept goes together with all that it owns, so no edge leads from what stays to what goes
(`apart_of_tree`), and the forest stays well-formed (`WellFormed.released`). The associations with
what is gone are struck from the concepts that stay, which stay in their places (`Kept`).
-/

namespace ConceptForest

namespace Forest

variable {f g : Forest} {h k p : Handle} {c : Concept}

/-! ### Released concepts -/

@[simp] theorem next_takeOut (f : Forest) (hs : List Handle) : (f.takeOut hs).1.next = f.next := by
  induction hs generalizing f with
  | nil => rfl
  | cons h hs ih => simp [takeOut, ih]

@[simp] theorem live_takeOut (f : Forest) (hs : List Handle) : (f.takeOut hs).1.live = f.live := by
  induction hs generalizing f with
  | nil => rfl
  | cons h hs ih => simp only [takeOut, ih]; rfl

theorem get?_takeOut (f : Forest) (hs : List Handle) (k : Handle) :
    (f.takeOut hs).1.get? k = if k ∈ hs then none else f.get? k := by
  induction hs generalizing f with
  | nil => simp [takeOut]
  | cons h hs ih =>
    simp only [takeOut, ih, get?_clear, List.mem_cons]
    by_cases first : k = h <;> simp [first]

theorem handles_clear (f : Forest) (h : Handle) :
    (f.clear h).handles = f.handles.filter (· != h) := by
  simp only [handles, next_clear, List.filter_filter]
  apply List.filter_congr
  intro k _
  rw [contains_clear]
  by_cases same : k = h <;> simp [same]

/-- The concepts taken out and those that stay are all there were. -/
theorem length_takeOut (f : Forest) (hs : List Handle) :
    (f.takeOut hs).2.length + (f.takeOut hs).1.handles.length = f.handles.length := by
  induction hs generalizing f with
  | nil => simp [takeOut]
  | cons h hs ih =>
    have step : (f.get? h).toList.length + (f.clear h).handles.length = f.handles.length := by
      rw [handles_clear, ← (nodup_handles f).erase_eq_filter]
      cases live : f.get? h with
      | none =>
        have absent : h ∉ f.handles := by simp [mem_handles, contains, live]
        simp [List.erase_of_not_mem absent]
      | some c =>
        have mem : h ∈ f.handles := mem_handles.mpr (contains_of_get? live)
        have some_left := List.length_pos_of_mem mem
        rw [List.length_erase_of_mem mem, Option.toList_some, List.length_singleton]
        omega
    simp only [takeOut, List.length_append]
    rw [← step, ← ih (f.clear h)]
    omega

/-- The concepts taken out are those that were live. -/
theorem mem_takeOut {hs : List Handle} : c ∈ (f.takeOut hs).2 → ∃ h ∈ hs, f.get? h = some c := by
  induction hs generalizing f with
  | nil => simp [takeOut]
  | cons h hs ih =>
    intro mem
    rcases List.mem_append.mp mem with first | rest
    · exact ⟨h, List.mem_cons_self, by simpa using first⟩
    · obtain ⟨k, mem, live⟩ := ih rest
      rw [get?_clear] at live
      split at live
      · cases live
      · exact ⟨k, List.mem_cons_of_mem _ mem, live⟩

/-- Live concepts without repetition are all taken out. -/
theorem length_takeOut_of_contains {hs : List Handle} (nodup : hs.Nodup)
    (live : ∀ h ∈ hs, f.contains h = true) : (f.takeOut hs).2.length = hs.length := by
  induction hs generalizing f with
  | nil => rfl
  | cons h hs ih =>
    obtain ⟨fresh, nodup⟩ := List.nodup_cons.mp nodup
    obtain ⟨here, live⟩ := List.forall_mem_cons.mp live
    obtain ⟨c, here⟩ := contains_iff.mp here
    have others : ∀ k ∈ hs, (f.clear h).contains k = true := by
      intro k mem
      have other : k ≠ h := fun same => fresh (same ▸ mem)
      simp [other, live k mem]
    rw [takeOut, List.length_append, ih nodup others, here, Option.toList_some,
      List.length_singleton, List.length_cons, Nat.add_comm]

/-- A forest without the given concepts. -/
def without (f : Forest) (hs : List Handle) : Forest :=
  { (f.takeOut hs).1 with live := f.live - (f.takeOut hs).2.length }

section Without

variable (f : Forest) (hs : List Handle) (k : Handle)

theorem get?_without : (f.without hs).get? k = if k ∈ hs then none else f.get? k :=
  get?_takeOut f hs k

@[simp] theorem next_without : (f.without hs).next = f.next :=
  next_takeOut f hs

theorem parent?_without : (f.without hs).parent? k = if k ∈ hs then none else f.parent? k := by
  simp only [parent?, get?_without]
  split <;> rfl

theorem childrenOf_without :
    (f.without hs).childrenOf k = if k ∈ hs then [] else f.childrenOf k := by
  simp only [childrenOf, get?_without]
  split <;> rfl

end Without

/-- A forest stays well-formed without concepts that own none of the others and are owned by none of
them. -/
theorem WellFormed.without (wf : f.WellFormed) {hs : List Handle}
    (apart : ∀ {p k}, f.parent? k = some p → (p ∈ hs ↔ k ∈ hs)) : (f.without hs).WellFormed where
  handle_eq {h c} live := by
    rw [get?_without] at live
    split at live
    · cases live
    · exact wf.handle_eq live
  mem_childrenOf {p k} := by
    rw [childrenOf_without, parent?_without]
    by_cases owned : f.parent? k = some p
    · have := apart owned
      split <;> split <;> simp_all [wf.mem_childrenOf]
    · split <;> split <;> simp_all [wf.mem_childrenOf]
  nodup_childrenOf p := by
    rw [childrenOf_without]
    split
    · exact List.nodup_nil
    · exact wf.nodup_childrenOf p
  wellFounded := by
    refine Subrelation.wf ?_ wf.wellFounded
    intro p k owned
    rw [parent?_without] at owned
    split at owned
    · cases owned
    · exact owned
  representations_ne_nil {h c} live := by
    rw [get?_without] at live
    split at live
    · cases live
    · exact wf.representations_ne_nil live
  live_eq := by
    have count := length_takeOut f hs
    show f.live - _ = (f.takeOut hs).1.handles.length
    rw [wf.live_eq]
    omega

/-! ### Releasing -/

/-- What becomes of a forest when concepts are released together. -/
def released (f : Forest) (doomed : List Handle) : Forest :=
  (f.takeOut doomed).2.foldl (strike doomed) (f.without doomed)

theorem kept_strike (doomed : List Handle) (f : Forest) (c : Concept) :
    f.Kept (strike doomed f c) := by
  refine Kept.trans (kept_foldl ?_ f _) (kept_foldl ?_ _ _)
  · intro g h
    exact kept_update g h (keepsPlace_associatedBy _)
  · intro g h
    exact kept_update g h (keepsPlace_associations _)

/-- Only the others' associations with them remain to be struck once the concepts are gone. -/
theorem kept_released (f : Forest) (doomed : List Handle) :
    (f.without doomed).Kept (f.released doomed) :=
  kept_foldl (kept_strike doomed) _ _

/-- What goes is a concept without an owner and all that it owns, so nothing that stays loses its
parent or a child. -/
theorem apart_of_tree (root : f.parent? h = none) {doomed : List Handle}
    (whole : ∀ k, k ∈ doomed ↔ k = h ∨ f.Owns h k) {x : Handle} (owned : f.parent? x = some p) :
    p ∈ doomed ↔ x ∈ doomed := by
  rw [whole, whole]
  constructor
  · rintro (rfl | above)
    · exact .inr (owns_of_parent? owned)
    · exact .inr (above.down owned)
  · rintro (rfl | above)
    · rw [root] at owned
      cases owned
    · exact (above.up owned).imp_left Eq.symm

theorem WellFormed.released (wf : f.WellFormed) (root : f.parent? h = none) {doomed : List Handle}
    (whole : ∀ k, k ∈ doomed ↔ k = h ∨ f.Owns h k) : (f.released doomed).WellFormed := by
  apply (kept_released f doomed).wellFormed
  exact wf.without (apart_of_tree root whole)

theorem doomed_of_get?_eq_none (dead : f.get? h = none) :
    f.doomed h = .error (.conceptNotFound h) := by
  rw [doomed, node_of_get?_eq_none dead]
  rfl

theorem doomed_of_parent? (owned : f.parent? h = some p) : f.doomed h = .error (.stillAttached h) := by
  obtain ⟨c, live⟩ := contains_iff.mp (contains_of_parent? owned)
  rw [parent?_of_get? live] at owned
  rw [doomed, node_of_get? live, ok_bind, owned]
  rfl

theorem doomed_of_root (live : f.contains h = true) (root : f.parent? h = none) :
    f.doomed h = f.descendants h := by
  obtain ⟨c, live⟩ := contains_iff.mp live
  rw [parent?_of_get? live] at root
  rw [doomed, node_of_get? live, ok_bind, root]
  rfl

/-- A live concept without a parent can be released. -/
theorem exists_doomed (wf : f.WellFormed) (live : f.contains h = true) (root : f.parent? h = none) :
    ∃ doomed, f.doomed h = .ok doomed ∧ ∀ k, k ∈ doomed ↔ k = h ∨ f.Owns h k := by
  rw [doomed_of_root live root]
  exact exists_descendants wf live

theorem doomed_cases (wf : f.WellFormed) (h : Handle) :
    (∃ e, f.doomed h = .error e) ∨
      f.contains h = true ∧ f.parent? h = none ∧
        ∃ doomed, f.doomed h = .ok doomed ∧ ∀ k, k ∈ doomed ↔ k = h ∨ f.Owns h k := by
  cases live : f.get? h with
  | none => exact .inl ⟨_, doomed_of_get?_eq_none live⟩
  | some c =>
    have there := contains_of_get? live
    cases parent : f.parent? h with
    | some p => exact .inl ⟨_, doomed_of_parent? parent⟩
    | none => exact .inr ⟨there, rfl, exists_doomed wf there parent⟩

end Forest

end ConceptForest
