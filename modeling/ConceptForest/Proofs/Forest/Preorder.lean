import ConceptForest.Proofs.Forest.Descent
import ConceptForest.Proofs.Forest.Lineage

/-!
The order of a walk down.

On a walk down a concept comes before all that it owns, and of two children of one concept the
earlier one comes, with all that it owns, before the later one (`Precedes`).

* `Precedes.ne` — no concept comes before itself, so a list in this order has no repetition.
* `Shows.pairwise_precedes` — the handles in a tree are in this order.
-/

namespace ConceptForest

namespace Forest

variable {f : Forest} {a b : Handle} {t : Tree}

/-- On a walk down through the forest the first concept comes before the second one. -/
inductive Precedes (f : Forest) (a b : Handle) : Prop where
  | above (owns : f.Owns a b)
  /-- The ways down to both of them part at `p`, where the first one takes an earlier child. -/
  | beside {p x y : Handle} (order : [x, y].Sublist (f.childrenOf p)) (left : x = a ∨ f.Owns x a)
    (right : y = b ∨ f.Owns y b)

theorem Precedes.ne (wf : f.WellFormed) (precedes : f.Precedes a b) : a ≠ b := by
  rintro rfl
  cases precedes with
  | above owns => exact wf.not_owns_self a owns
  | @beside p x y order left right =>
    have apart : [x, y].Nodup := (wf.nodup_childrenOf p).sublist order
    have same : x = y := eq_of_mem_childrenOf wf (order.subset (by simp)) (order.subset (by simp))
      left right
    simp [same] at apart

/-- The handles in a tree are in the order of a walk down. -/
theorem Shows.pairwise_precedes (wf : f.WellFormed) (shows : f.Shows t) :
    t.handles.Pairwise f.Precedes := by
  induction shows with
  | @node h c ts live children below ih =>
    have shows : f.Shows (.node h c ts) := .node live children below
    have inside : ∀ {s : Tree} {k : Handle}, s ∈ ts → k ∈ s.handles →
        s.handle = k ∨ f.Owns s.handle k := by
      intro s k child mem
      exact (((below s child).mem_handles_iff wf).mp mem).imp_left Eq.symm
    rw [Tree.handles_node, List.pairwise_cons, List.pairwise_flatMap]
    refine ⟨?_, ih, ?_⟩
    · intro k mem
      obtain ⟨s, child, mem⟩ := List.mem_flatMap.mp mem
      have owned := owns_of_parent? (shows.parent?_of_mem_children wf child)
      rcases inside child mem with rfl | owns
      · exact .above owned
      · exact .above (owned.trans owns)
    · rw [List.pairwise_iff_forall_sublist]
      intro s u order k left k' right
      have order' : [s.handle, u.handle].Sublist (f.childrenOf h) := by
        rw [childrenOf_of_get? live, ← children]
        exact order.map Tree.handle
      exact .beside order' (inside (order.subset (by simp)) left)
        (inside (order.subset (by simp)) right)

end Forest

end ConceptForest
