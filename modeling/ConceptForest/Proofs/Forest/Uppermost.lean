import ConceptForest.Proofs.Forest.Preorder

/-!
Walks down that stop early.

A walk that looks for concepts of some kind, and looks at nothing below the first one on each way,
finds the uppermost ones (`Tree.uppermost`). In terms of the forest these are the ones that are
visible from the top (`Visible`): those that no other one hides.

* `visible_iff` — visibility one step at a time.
* `Shows.mem_uppermost_iff`, `Shows.pairwise_uppermost` — such a walk finds what is visible, in the
  order of walks down.
-/

namespace ConceptForest

namespace Tree

mutual

/-- The uppermost trees in a tree that have a concept of the kind at their top. -/
def uppermost (kind : Concept → Bool) : Tree → List Tree
  | node h c ts => if kind c then [node h c ts] else uppermostAll kind ts

def uppermostAll (kind : Concept → Bool) : List Tree → List Tree
  | [] => []
  | t :: ts => t.uppermost kind ++ uppermostAll kind ts

end

variable {kind : Concept → Bool} {h : Handle} {c : Concept}

theorem uppermostAll_eq_flatMap (kind : Concept → Bool) (ts : List Tree) :
    uppermostAll kind ts = ts.flatMap (uppermost kind) := by
  induction ts with
  | nil => rfl
  | cons t ts ih => simp [uppermostAll, ih]

theorem uppermost_of_kind (ts : List Tree) (stops : kind c = true) :
    (node h c ts).uppermost kind = [node h c ts] := by
  rw [uppermost, if_pos stops]

theorem uppermost_of_not_kind (ts : List Tree) (goes : kind c = false) :
    (node h c ts).uppermost kind = ts.flatMap (uppermost kind) := by
  rw [uppermost, goes, if_neg Bool.false_ne_true, uppermostAll_eq_flatMap]

mutual

theorem uppermost_sublist (kind : Concept → Bool) :
    (t : Tree) → (t.uppermost kind).Sublist t.subtrees
  | node h c ts => by
    rw [uppermost, subtrees]
    split
    · exact (List.nil_sublist _).cons_cons _
    · exact (uppermostAll_sublist kind ts).cons _

theorem uppermostAll_sublist (kind : Concept → Bool) :
    (ts : List Tree) → (uppermostAll kind ts).Sublist (subtreesAll ts)
  | [] => .slnil
  | t :: ts => (uppermost_sublist kind t).append (uppermostAll_sublist kind ts)

end

end Tree

namespace Forest

variable {f : Forest} {hides : Handle → Prop} {top d : Handle} {kind : Concept → Bool} {t : Tree}

/-- The concept is live and of the kind. -/
def Has (f : Forest) (kind : Concept → Bool) (h : Handle) : Prop :=
  (f.get? h).any kind = true

/-- From a concept can be seen itself and what it owns, but for what is owned by a concept there
that hides it. -/
structure Visible (f : Forest) (hides : Handle → Prop) (top d : Handle) : Prop where
  below : d = top ∨ f.Owns top d
  unhidden : ∀ a, a = top ∨ f.Owns top a → f.Owns a d → ¬ hides a

/-- From a concept can be seen itself and, unless it hides them, what can be seen from its
children. -/
theorem visible_iff (wf : f.WellFormed) : f.Visible hides top d ↔
    d = top ∨ ¬ hides top ∧ ∃ x, f.parent? x = some top ∧ f.Visible hides x d := by
  constructor
  · rintro ⟨rfl | owns, unhidden⟩
    · exact .inl rfl
    · obtain ⟨x, owned, way⟩ := Relation.TransGen.head'_iff.mp owns
      have below : ∀ a, a = x ∨ f.Owns x a → f.Owns top a := by
        rintro a (rfl | inside)
        · exact owns_of_parent? owned
        · exact (owns_of_parent? owned).trans inside
      exact .inr ⟨unhidden top (.inl rfl) owns, x, owned,
        Relation.reflTransGen_iff_eq_or_transGen.mp way,
        fun a inside => unhidden a (.inr (below a inside))⟩
  · rintro (rfl | ⟨bare, x, owned, below, unhidden⟩)
    · refine ⟨.inl rfl, ?_⟩
      rintro a (rfl | inside) owns
      · exact absurd owns (wf.not_owns_self a)
      · exact absurd (inside.trans owns) (wf.not_owns_self d)
    · have child := owns_of_parent? owned
      refine ⟨.inr (below.elim (fun same => same ▸ child) child.trans), ?_⟩
      rintro a (rfl | inside) owns
      · exact bare
      · -- What owns `d` is on the way down to it, and that leads through `x`.
        rcases owns_comparable wf (.inr owns) (below.imp_left Eq.symm) with rfl | above | between
        · exact unhidden a (.inl rfl) owns
        · rcases above.up owned with rfl | above
          · exact absurd inside (wf.not_owns_self a)
          · exact absurd (inside.trans above) (wf.not_owns_self top)
        · exact unhidden a (.inr between) owns

/-- Whether a concept that owns nothing hides anything does not matter. -/
theorem visible_congr {hides' : Handle → Prop}
    (same : ∀ a d, f.Owns a d → (hides a ↔ hides' a)) :
    f.Visible hides top d ↔ f.Visible hides' top d := by
  constructor
  · rintro ⟨below, unhidden⟩
    exact ⟨below, fun a inside owns => mt (same a d owns).mpr (unhidden a inside owns)⟩
  · rintro ⟨below, unhidden⟩
    exact ⟨below, fun a inside owns => mt (same a d owns).mp (unhidden a inside owns)⟩

/-- The uppermost concepts of a kind are those that none of the kind hides. -/
theorem Shows.mem_uppermost_iff (wf : f.WellFormed) (shows : f.Shows t) :
    d ∈ (t.uppermost kind).map Tree.handle ↔
      f.Visible (f.Has kind) t.handle d ∧ f.Has kind d := by
  induction shows with
  | @node h c ts live children below ih =>
    have owned : ∀ x, f.parent? x = some h ↔ ∃ s ∈ ts, s.handle = x := by
      intro x
      rw [← wf.mem_childrenOf, childrenOf_of_get? live, ← children, List.mem_map]
    have has : f.Has kind h ↔ kind c = true := by rw [Has, live, Option.any_some]
    rw [visible_iff wf]
    cases stops : kind c with
    | true =>
      rw [Tree.uppermost_of_kind ts stops, List.map_singleton, List.mem_singleton]
      constructor
      · rintro rfl
        exact ⟨.inl rfl, has.mpr stops⟩
      · rintro ⟨same | ⟨bare, -⟩, -⟩
        · exact same
        · exact absurd (has.mpr stops) bare
    | false =>
      have bare : ¬ f.Has kind h := by simp [has, stops]
      rw [Tree.uppermost_of_not_kind ts stops, List.map_flatMap, List.mem_flatMap]
      constructor
      · rintro ⟨s, child, mem⟩
        obtain ⟨visible, holds⟩ := (ih s child).mp mem
        exact ⟨.inr ⟨bare, s.handle, (owned _).mpr ⟨s, child, rfl⟩, visible⟩, holds⟩
      · rintro ⟨rfl | ⟨-, x, parent, visible⟩, holds⟩
        · exact absurd holds bare
        · obtain ⟨s, child, rfl⟩ := (owned x).mp parent
          exact ⟨s, child, (ih s child).mpr ⟨visible, holds⟩⟩

theorem Shows.pairwise_uppermost (wf : f.WellFormed) (shows : f.Shows t) (kind : Concept → Bool) :
    ((t.uppermost kind).map Tree.handle).Pairwise f.Precedes :=
  (shows.pairwise_precedes wf).sublist ((Tree.uppermost_sublist kind t).map _)

end Forest

end ConceptForest
