import ConceptForest.Forest.Edit
import Mathlib

/-!
Ownership in a forest.

Who owns whom is kept twice, as the parent of a concept and as the children of its owner. A forest
is well-formed (`Forest.WellFormed`) when both agree and following parents comes to an end.

* `Owns` is ownership at whatever remove; in a well-formed forest nothing owns itself
  (`WellFormed.not_owns_self`).
* `mem_owners_iff`, `isAncestor_iff` — the walk up to the owners, cut off at the number of handles,
  meets every owner: no path is longer than there are handles.
-/

namespace ConceptForest

namespace Forest

variable {f g : Forest} {h k p : Handle} {c : Concept}

/-! ### What can be seen of the edges -/

/-- The children of a concept; a concept that is not live has none. -/
def childrenOf (f : Forest) (h : Handle) : List Handle :=
  ((f.get? h).map Concept.children).getD []

theorem childrenOf_of_get? (live : f.get? h = some c) : f.childrenOf h = c.children := by
  simp [childrenOf, live]

theorem parent?_of_get? (live : f.get? h = some c) : f.parent? h = c.parent := by
  simp [parent?, live]

theorem contains_iff : f.contains h = true ↔ ∃ c, f.get? h = some c := by
  simp [contains, Option.isSome_iff_exists]

theorem contains_of_get? (live : f.get? h = some c) : f.contains h = true :=
  contains_iff.mpr ⟨c, live⟩

theorem lt_next_of_contains (live : f.contains h = true) : h < f.next := by
  obtain ⟨c, live⟩ := contains_iff.mp live
  exact lt_next_of_get? live

theorem parent?_of_next_le (le : f.next ≤ h) : f.parent? h = none := by
  simp [parent?, get?_eq_none_of_next_le le]

theorem childrenOf_of_next_le (le : f.next ≤ h) : f.childrenOf h = [] := by
  simp [childrenOf, get?_eq_none_of_next_le le]

theorem mem_handles : h ∈ f.handles ↔ f.contains h = true := by
  simp only [handles, List.mem_filter, List.mem_range]
  constructor
  · rintro ⟨-, live⟩
    exact live
  · intro live
    exact ⟨lt_next_of_contains live, live⟩

theorem nodup_handles (f : Forest) : f.handles.Nodup :=
  List.nodup_range.filter _

theorem contains_of_parent? (owned : f.parent? h = some p) : f.contains h = true := by
  cases live : f.get? h with
  | none => simp [parent?, live] at owned
  | some c => exact contains_of_get? live

theorem contains_of_mem_childrenOf (mem : h ∈ f.childrenOf p) : f.contains p = true := by
  cases live : f.get? p with
  | none => simp [childrenOf, live] at mem
  | some c => exact contains_of_get? live

theorem node_eq_ok_iff : f.node h = .ok c ↔ f.get? h = some c := by
  simp only [node]
  split <;> simp [*]

theorem node_of_get? (live : f.get? h = some c) : f.node h = .ok c :=
  node_eq_ok_iff.mpr live

theorem node_of_get?_eq_none (dead : f.get? h = none) : f.node h = .error (.conceptNotFound h) := by
  simp [node, dead]

theorem exists_node_iff : (∃ c, f.node h = .ok c) ↔ f.contains h = true := by
  simp only [node_eq_ok_iff, contains_iff]

/-- Does the first concept own the second one, at whatever remove? -/
def Owns (f : Forest) : Handle → Handle → Prop :=
  Relation.TransGen fun p h => f.parent? h = some p

theorem owns_of_parent? (owned : f.parent? h = some p) : f.Owns p h :=
  .single owned

/-- What a concept owns itself has its owner and the owners of that above it. -/
theorem Owns.up {a : Handle} (owns : f.Owns a h) (owned : f.parent? h = some p) :
    a = p ∨ f.Owns a p := by
  obtain ⟨q, above, parent⟩ := Relation.TransGen.tail'_iff.mp owns
  obtain rfl : q = p := Option.some.inj (parent.symm.trans owned)
  rcases Relation.reflTransGen_iff_eq_or_transGen.mp above with same | above
  · exact .inl same.symm
  · exact .inr above

theorem Owns.trans {a b : Handle} (first : f.Owns a b) (second : f.Owns b h) : f.Owns a h :=
  Relation.TransGen.trans first second

theorem Owns.down {a : Handle} (owns : f.Owns a p) (owned : f.parent? h = some p) : f.Owns a h :=
  owns.tail owned

theorem Owns.exists_parent {a : Handle} (owns : f.Owns a h) : ∃ p, f.parent? h = some p := by
  obtain ⟨p, -, owned⟩ := Relation.TransGen.tail'_iff.mp owns
  exact ⟨p, owned⟩

theorem Owns.contains {a : Handle} (owns : f.Owns a h) : f.contains h = true := by
  obtain ⟨p, owned⟩ := owns.exists_parent
  exact contains_of_parent? owned

/-! ### Well-formed forests -/

/-- The concepts of a forest are where they belong, and who owns whom is told the same way from both
ends. -/
structure WellFormed (f : Forest) : Prop where
  /-- Every live concept sits in the slot of its own handle. -/
  handle_eq : ∀ {h c}, f.get? h = some c → c.handle = h
  /-- A concept is among the children of another one exactly if that is its parent. -/
  mem_childrenOf : ∀ {p h}, h ∈ f.childrenOf p ↔ f.parent? h = some p
  /-- No list of children repeats a concept. -/
  nodup_childrenOf : ∀ p, (f.childrenOf p).Nodup
  /-- Following parents comes to an end. -/
  wellFounded : WellFounded fun p h => f.parent? h = some p
  /-- Every live concept has a representation. -/
  representations_ne_nil : ∀ {h c}, f.get? h = some c → c.representations ≠ []
  /-- The live concepts are counted right. -/
  live_eq : f.live = f.handles.length

namespace WellFormed

theorem contains_parent (wf : f.WellFormed) (owned : f.parent? h = some p) : f.contains p = true :=
  contains_of_mem_childrenOf (wf.mem_childrenOf.mpr owned)

theorem not_owns_self (wf : f.WellFormed) (h : Handle) : ¬ f.Owns h h := by
  intro owns
  exact wf.wellFounded.transGen.irrefl.irrefl h owns

theorem contains_owner (wf : f.WellFormed) {a : Handle} (owns : f.Owns a h) :
    f.contains a = true := by
  obtain ⟨k, owned, -⟩ := Relation.TransGen.head'_iff.mp owns
  exact wf.contains_parent owned

end WellFormed

@[simp] theorem get?_empty (h : Handle) : ({} : Forest).get? h = none := by
  simp [get?]

theorem wellFormed_empty : ({} : Forest).WellFormed where
  handle_eq live := by simp [get?_empty] at live
  mem_childrenOf := by simp [childrenOf, parent?, get?_empty]
  nodup_childrenOf p := by simp [childrenOf, get?_empty]
  wellFounded := by
    refine ⟨fun h => ⟨_, fun p owned => ?_⟩⟩
    simp [parent?, get?_empty] at owned
  representations_ne_nil live := by simp [get?_empty] at live
  live_eq := rfl

/-! ### The walk to the owners -/

theorem owns_of_mem_owners {n : Nat} (mem : k ∈ f.owners n h) : f.Owns k h := by
  induction n generalizing h with
  | zero => simp [owners] at mem
  | succ n ih =>
    simp only [owners] at mem
    split at mem
    · next p owned =>
      rcases List.mem_cons.mp mem with rfl | mem
      · exact owns_of_parent? owned
      · exact (ih mem).down owned
    · simp at mem

theorem owners_succ (n : Nat) (owned : f.parent? h = some p) :
    f.owners (n + 1) h = p :: f.owners n p := by
  simp [owners, owned]

/-- A walk that is shorter than it could be has met every owner. -/
theorem mem_owners_of_owns {a : Handle} {n : Nat} (short : (f.owners n h).length < n)
    (owns : f.Owns a h) : a ∈ f.owners n h := by
  induction n generalizing h with
  | zero => simp at short
  | succ n ih =>
    obtain ⟨p, owned⟩ := owns.exists_parent
    rw [owners_succ n owned] at short ⊢
    rcases owns.up owned with rfl | above
    · exact List.mem_cons_self
    · refine List.mem_cons_of_mem _ (ih ?_ above)
      simpa using short

theorem nodup_owners (wf : f.WellFormed) (n : Nat) (h : Handle) : (h :: f.owners n h).Nodup := by
  induction n generalizing h with
  | zero => simp [owners]
  | succ n ih =>
    rw [List.nodup_cons]
    constructor
    · intro mem
      exact wf.not_owns_self h (owns_of_mem_owners mem)
    · cases owned : f.parent? h with
      | none => simp [owners, owned]
      | some p =>
        rw [owners_succ n owned]
        exact ih p

/-- Live concepts without repetition are fewer than there are handles. -/
theorem length_le_next {hs : List Handle} (nodup : hs.Nodup)
    (live : ∀ h ∈ hs, f.contains h = true) : hs.length ≤ f.next := by
  have sub : hs ⊆ List.range f.next := by
    intro h mem
    exact List.mem_range.mpr (lt_next_of_contains (live h mem))
  simpa using (List.subperm_of_subset nodup sub).length_le

/-- No walk to the owners is as long as there are handles, for the concept it starts from is one
more on the way. -/
theorem length_owners_lt (wf : f.WellFormed) (live : f.contains h = true) (n : Nat) :
    (f.owners n h).length < f.next := by
  apply length_le_next (nodup_owners wf n h)
  intro k mem
  rcases List.mem_cons.mp mem with rfl | mem
  · exact live
  · exact wf.contains_owner (owns_of_mem_owners mem)

theorem mem_owners_iff (wf : f.WellFormed) {a : Handle} :
    a ∈ f.owners f.next h ↔ f.Owns a h := by
  constructor
  · exact owns_of_mem_owners
  · intro owns
    obtain ⟨p, owned⟩ := owns.exists_parent
    exact mem_owners_of_owns (length_owners_lt wf (contains_of_parent? owned) _) owns

/-- The test of ownership is right at whatever remove. -/
theorem isAncestor_iff (wf : f.WellFormed) {a : Handle} : f.isAncestor a h = true ↔ f.Owns a h := by
  rw [isAncestor, List.contains_iff_mem, mem_owners_iff wf]

theorem mem_chain_iff (wf : f.WellFormed) {a : Handle} : a ∈ f.chain h ↔ f.Owns a h := by
  rw [chain, List.mem_reverse, mem_owners_iff wf]

end Forest

end ConceptForest
