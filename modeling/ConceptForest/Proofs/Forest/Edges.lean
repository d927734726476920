import ConceptForest.Proofs.Forest.Ownership

/-!
Edits of the edges of a forest, and what they keep.

`detached` and `attached` are what taking a concept out of its parent's children, and moving it
under a parent, make of a forest. Both only change edges (`Rewired`), and a well-formed forest stays
well-formed under them (`WellFormed.detached`, `WellFormed.attached`): a concept may go under any
other one that it does not own. `WellFormed.push` says the same of a new concept without a place.
-/

namespace ConceptForest

/-- What a concept is apart from its place in the forest. -/
def Concept.unplaced (c : Concept) : Concept :=
  { c with parent := none, children := [] }

namespace Forest

open Edit (withChild)

variable {f g : Forest} {h k p : Handle} {c : Concept}

/-! ### What single changes do to the edges -/

@[simp] theorem contains_update (f : Forest) (h k : Handle) (change : Concept → Concept) :
    (f.update h change).contains k = f.contains k := by
  simp only [contains, get?_update]
  split <;> simp

theorem parent?_update (f : Forest) (h k : Handle) (change : Concept → Concept) :
    (f.update h change).parent? k =
      if k = h then (f.get? h).bind fun c => (change c).parent else f.parent? k := by
  simp only [parent?, get?_update]
  split
  · next same => subst same; cases f.get? k <;> rfl
  · rfl

theorem childrenOf_update (f : Forest) (h k : Handle) (change : Concept → Concept) :
    (f.update h change).childrenOf k =
      if k = h then ((f.get? h).map fun c => (change c).children).getD [] else f.childrenOf k := by
  simp only [childrenOf, get?_update]
  split
  · next same => subst same; cases f.get? k <;> rfl
  · rfl

/-- New children change no parent. -/
@[simp] theorem parent?_update_children (f : Forest) (h k : Handle) (children : Concept → List Handle) :
    (f.update h fun c => { c with children := children c }).parent? k = f.parent? k := by
  rw [parent?_update]
  split
  · next same => rw [same, parent?]
  · rfl

/-- A new parent changes no list of children. -/
@[simp] theorem childrenOf_update_parent (f : Forest) (h k : Handle) (parent : Option Handle) :
    (f.update h fun c => { c with parent := parent }).childrenOf k = f.childrenOf k := by
  rw [childrenOf_update]
  split
  · next same => rw [same, childrenOf]
  · rfl

theorem parent?_push (f : Forest) (c : Concept) (k : Handle) :
    (f.push c).parent? k = if k = f.next then c.parent else f.parent? k := by
  simp only [parent?, get?_push]
  split <;> rfl

theorem childrenOf_push (f : Forest) (c : Concept) (k : Handle) :
    (f.push c).childrenOf k = if k = f.next then c.children else f.childrenOf k := by
  simp only [childrenOf, get?_push]
  split <;> rfl

@[simp] theorem contains_push (f : Forest) (c : Concept) (k : Handle) :
    (f.push c).contains k = (decide (k = f.next) || f.contains k) := by
  simp only [contains, get?_push]
  split <;> simp [*]

@[simp] theorem contains_clear (f : Forest) (h k : Handle) :
    (f.clear h).contains k = (decide (k ≠ h) && f.contains k) := by
  simp only [contains, get?_clear]
  split <;> simp [*]

/-! ### Forests that differ in their edges only -/

/-- The second forest has the concepts of the first one, but for their edges. -/
structure Rewired (f g : Forest) : Prop where
  next_eq : g.next = f.next
  live_eq : g.live = f.live
  unplaced_eq : ∀ h, (g.get? h).map Concept.unplaced = (f.get? h).map Concept.unplaced

namespace Rewired

theorem refl (f : Forest) : f.Rewired f :=
  ⟨rfl, rfl, fun _ => rfl⟩

theorem trans {e : Forest} (first : e.Rewired f) (second : f.Rewired g) : e.Rewired g :=
  ⟨second.next_eq.trans first.next_eq, second.live_eq.trans first.live_eq,
    fun h => (second.unplaced_eq h).trans (first.unplaced_eq h)⟩

theorem update (f : Forest) (h : Handle) {change : Concept → Concept}
    (keeps : ∀ c, (change c).unplaced = c.unplaced) : f.Rewired (f.update h change) := by
  refine ⟨next_update _ _ _, rfl, ?_⟩
  intro k
  rw [get?_update]
  split
  · cases f.get? k <;> simp [keeps]
  · rfl

theorem contains_eq (rewired : f.Rewired g) (h : Handle) : g.contains h = f.contains h := by
  have same := congrArg Option.isSome (rewired.unplaced_eq h)
  simpa [contains] using same

theorem handles_eq (rewired : f.Rewired g) : g.handles = f.handles := by
  simp only [handles, rewired.next_eq, funext rewired.contains_eq]

/-- A concept of the one forest is the same concept in the other, in another place. -/
theorem get? (rewired : f.Rewired g) {d : Concept} (live : g.get? h = some d) :
    ∃ c, f.get? h = some c ∧ d.unplaced = c.unplaced := by
  have same := rewired.unplaced_eq h
  rw [live] at same
  obtain ⟨c, was, eq⟩ := Option.map_eq_some_iff.mp same.symm
  exact ⟨c, was, eq.symm⟩

end Rewired

/-- New edges under which both ends still agree make a well-formed forest. -/
theorem WellFormed.rewire (wf : f.WellFormed) (rewired : f.Rewired g)
    (mem_childrenOf : ∀ {p h}, h ∈ g.childrenOf p ↔ g.parent? h = some p)
    (nodup_childrenOf : ∀ p, (g.childrenOf p).Nodup)
    (wellFounded : WellFounded fun p h => g.parent? h = some p) : g.WellFormed where
  handle_eq {h d} live := by
    obtain ⟨c, was, same⟩ := rewired.get? live
    have eq : d.unplaced.handle = c.unplaced.handle := by rw [same]
    exact Eq.trans (show d.handle = c.handle from eq) (wf.handle_eq was)
  mem_childrenOf := mem_childrenOf
  nodup_childrenOf := nodup_childrenOf
  wellFounded := wellFounded
  representations_ne_nil {h d} live := by
    obtain ⟨c, was, same⟩ := rewired.get? live
    have eq : c.unplaced.representations = d.unplaced.representations := by rw [same]
    intro empty
    exact wf.representations_ne_nil was (Eq.trans eq empty)
  live_eq := by rw [rewired.live_eq, rewired.handles_eq, wf.live_eq]

/-! ### Taking a concept out of its parent's children -/

/-- What becomes of a forest when a concept is taken out of its parent's children. -/
def detached (f : Forest) (h : Handle) : Forest :=
  match f.parent? h with
  | none => f
  | some p =>
    (f.update p fun c => { c with children := c.children.filter (· != h) }).update h
      fun c => { c with parent := none }

theorem detached_of_parent?_eq_none (root : f.parent? h = none) : f.detached h = f := by
  simp [detached, root]

theorem rewired_detached (f : Forest) (h : Handle) : f.Rewired (f.detached h) := by
  unfold detached
  split
  · exact .refl f
  · refine .trans (.update _ _ ?_) (.update _ _ ?_) <;> exact fun _ => rfl

@[simp] theorem next_detached (f : Forest) (h : Handle) : (f.detached h).next = f.next :=
  (rewired_detached f h).next_eq

@[simp] theorem contains_detached (f : Forest) (h k : Handle) :
    (f.detached h).contains k = f.contains k :=
  (rewired_detached f h).contains_eq k

theorem parent?_detached (f : Forest) (h k : Handle) :
    (f.detached h).parent? k = if k = h then none else f.parent? k := by
  unfold detached
  split
  · next root => split <;> simp_all
  · rw [parent?_update]
    split
    · simp
    · exact parent?_update_children _ _ _ _

theorem childrenOf_detached (wf : f.WellFormed) (h k : Handle) :
    (f.detached h).childrenOf k = (f.childrenOf k).filter (· != h) := by
  -- only the parent's list has the concept in it, so nothing is struck from any other
  have others : f.parent? h ≠ some k → (f.childrenOf k).filter (· != h) = f.childrenOf k := by
    intro other
    rw [List.filter_eq_self]
    intro x mem
    rw [bne_iff_ne]
    rintro rfl
    exact other (wf.mem_childrenOf.mp mem)
  unfold detached
  split
  · next root => exact (others (by simp [root])).symm
  · next p owned =>
    rw [childrenOf_update_parent, childrenOf_update]
    split
    · next same => subst same; cases live : f.get? k <;> simp [childrenOf, live]
    · next ne => exact (others (by simpa [owned] using Ne.symm ne)).symm

theorem WellFormed.detached (wf : f.WellFormed) (h : Handle) : (f.detached h).WellFormed := by
  refine wf.rewire (rewired_detached f h) ?_ ?_ ?_
  · intro p k
    rw [childrenOf_detached wf, parent?_detached, List.mem_filter, wf.mem_childrenOf]
    split <;> simp_all
  · intro p
    rw [childrenOf_detached wf]
    exact (wf.nodup_childrenOf p).filter _
  · refine Subrelation.wf ?_ wf.wellFounded
    intro p k owned
    rw [parent?_detached] at owned
    split at owned
    · cases owned
    · exact owned

/-! ### Moving a concept under a parent -/

/-- What becomes of a forest when a concept is moved under a parent. -/
def attached (f : Forest) (parent : Handle) (index? : Option Nat) (child : Handle) : Forest :=
  ((f.detached child).update parent fun c =>
    { c with children := withChild index? child c.children }).update child
      fun c => { c with parent := some parent }

theorem rewired_attached (f : Forest) (parent : Handle) (index? : Option Nat) (child : Handle) :
    f.Rewired (f.attached parent index? child) := by
  refine (rewired_detached f child).trans (.trans (.update _ _ ?_) (.update _ _ ?_)) <;>
    exact fun _ => rfl

theorem withChild_perm {index? : Option Nat} {child : Handle} {children : List Handle}
    (within : ∀ index, index? = some index → index ≤ children.length) :
    (withChild index? child children).Perm (child :: children) := by
  cases index? with
  | none => exact List.perm_append_singleton _ _
  | some index => exact List.perm_insertIdx _ _ (within index rfl)

section Attached

variable {parent child : Handle} {index? : Option Nat}

theorem parent?_attached (live : f.contains child = true) (k : Handle) :
    (f.attached parent index? child).parent? k =
      if k = child then some parent else f.parent? k := by
  unfold attached
  rw [parent?_update]
  split
  · have live : ((f.detached child).update parent fun c =>
        { c with children := withChild index? child c.children }).contains child = true := by
      rw [contains_update, contains_detached, live]
    obtain ⟨c, live⟩ := contains_iff.mp live
    simp [live]
  · next ne =>
    rw [parent?_update_children, parent?_detached, if_neg ne]

theorem childrenOf_attached (wf : f.WellFormed) (live : f.contains parent = true) (k : Handle) :
    (f.attached parent index? child).childrenOf k =
      if k = parent then withChild index? child ((f.childrenOf parent).filter (· != child))
      else (f.childrenOf k).filter (· != child) := by
  unfold attached
  rw [childrenOf_update_parent, childrenOf_update]
  split
  · have live : (f.detached child).contains parent = true := by
      rw [contains_detached, live]
    obtain ⟨c, live⟩ := contains_iff.mp live
    rw [← childrenOf_detached wf, childrenOf_of_get? live, live]
    rfl
  · exact childrenOf_detached wf _ _

/-- Where a concept has a new parent that it does not own, following parents still comes to an end:
the way up from the new parent does not pass the concept. -/
theorem wellFounded_of_moved (wf : f.WellFormed) (ne : child ≠ parent)
    (notOwner : ¬ f.Owns child parent)
    (parents : ∀ k, g.parent? k = if k = child then some parent else f.parent? k) :
    WellFounded fun p k => g.parent? k = some p := by
  have parents_of_ne : ∀ k, k ≠ child → g.parent? k = f.parent? k := by
    intro k ne
    rw [parents, if_neg ne]
  have above : ∀ k, k ≠ child → ¬ f.Owns child k →
      Acc (fun p k => g.parent? k = some p) k := by
    intro k
    induction k using wf.wellFounded.induction with
    | _ k ih =>
      intro ne notOwner
      constructor
      intro p owned
      rw [parents_of_ne k ne] at owned
      apply ih p owned
      · rintro rfl
        exact notOwner (owns_of_parent? owned)
      · intro owns
        exact notOwner (owns.down owned)
  have moved : Acc (fun p k => g.parent? k = some p) child := by
    constructor
    intro p owned
    rw [parents, if_pos rfl] at owned
    obtain rfl := Option.some.inj owned
    exact above _ ne.symm notOwner
  constructor
  intro k
  induction k using wf.wellFounded.induction with
  | _ k ih =>
    by_cases same : k = child
    · subst same
      exact moved
    · constructor
      intro p owned
      rw [parents_of_ne k same] at owned
      exact ih p owned

theorem WellFormed.attached (wf : f.WellFormed) (liveParent : f.contains parent = true)
    (liveChild : f.contains child = true) (ne : child ≠ parent)
    (notOwner : ¬ f.Owns child parent)
    (within : ∀ index, index? = some index →
      index ≤ ((f.childrenOf parent).filter (· != child)).length) :
    (f.attached parent index? child).WellFormed := by
  have perm : (withChild index? child _).Perm (child :: _) := withChild_perm within
  refine wf.rewire (rewired_attached f parent index? child) ?_ ?_ ?_
  · intro p k
    rw [childrenOf_attached wf liveParent, parent?_attached liveChild]
    by_cases moved : k = child
    · subst moved
      simp only [if_true, Option.some.injEq]
      split
      · next same => simp [perm.mem_iff, same]
      · next other => simp [Ne.symm other]
    · simp only [if_neg moved, ← wf.mem_childrenOf]
      split
      · next same => subst same; simp [perm.mem_iff, moved]
      · simp [moved]
  · intro p
    rw [childrenOf_attached wf liveParent]
    split
    · refine perm.nodup_iff.mpr (List.nodup_cons.mpr ⟨by simp, ?_⟩)
      exact (wf.nodup_childrenOf _).filter _
    · exact (wf.nodup_childrenOf _).filter _
  · exact wellFounded_of_moved wf ne notOwner (parent?_attached liveChild)

end Attached

/-! ### New concepts -/

theorem handles_push (f : Forest) (c : Concept) : (f.push c).handles = f.handles ++ [f.next] := by
  have old : ∀ k ∈ List.range f.next, (f.push c).contains k = f.contains k := by
    intro k mem
    rw [contains_push, decide_eq_false (Nat.ne_of_lt (List.mem_range.mp mem)), Bool.false_or]
  simp only [handles, next_push, List.range_succ, List.filter_append, List.filter_congr old]
  simp

/-- No concept is a child, or the parent, of one that does not exist yet. -/
theorem WellFormed.parent?_ne_next (wf : f.WellFormed) (k : Handle) :
    f.parent? k ≠ some f.next := by
  intro owned
  exact Nat.lt_irrefl _ (lt_next_of_contains (wf.contains_parent owned))

theorem WellFormed.push (wf : f.WellFormed) (handle : c.handle = f.next) (parent : c.parent = none)
    (children : c.children = []) (named : c.representations ≠ []) : (f.push c).WellFormed where
  handle_eq {h d} live := by
    rw [get?_push] at live
    split at live
    · next new =>
      obtain rfl := Option.some.inj live
      rw [handle, new]
    · exact wf.handle_eq live
  mem_childrenOf {p k} := by
    have fresh : f.parent? f.next = none := parent?_of_next_le (Nat.le_refl _)
    rw [childrenOf_push, parent?_push]
    split
    · next new =>
      subst new
      split <;> simp [parent, children, wf.parent?_ne_next]
    · split
      · next new => simp [wf.mem_childrenOf, new, fresh, parent]
      · exact wf.mem_childrenOf
  nodup_childrenOf p := by
    rw [childrenOf_push]
    split
    · simp [children]
    · exact wf.nodup_childrenOf p
  wellFounded := by
    refine Subrelation.wf ?_ wf.wellFounded
    intro p k owned
    rw [parent?_push] at owned
    split at owned
    · simp [parent] at owned
    · exact owned
  representations_ne_nil {h d} live := by
    rw [get?_push] at live
    split at live
    · obtain rfl := Option.some.inj live
      exact named
    · exact wf.representations_ne_nil live
  live_eq := by rw [handles_push, List.length_append, ← wf.live_eq]; rfl

end Forest

end ConceptForest
