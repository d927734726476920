import ConceptForest.Proofs.Forest.Ownership
import ConceptForest.Proofs.Steps

/-!
The way down from a concept.

* `Shows` — a tree shows the concepts as a forest keeps them.
* `exists_tree`, `exists_node` — in a well-formed forest the tree of a live concept is found, though
  the search for it is cut off at the number of handles.
* `Shows.mem_handles_iff`, `exists_descendants` — the tree holds the concept and all it owns.
-/

namespace ConceptForest

namespace Tree

theorem subtreesAll_eq_flatMap (ts : List Tree) : subtreesAll ts = ts.flatMap subtrees := by
  induction ts with
  | nil => rfl
  | cons t ts ih => simp [subtreesAll, ih]

theorem handles_node (h : Handle) (c : Concept) (ts : List Tree) :
    (node h c ts).handles = h :: ts.flatMap handles := by
  simp only [handles, subtrees, subtreesAll_eq_flatMap, List.map_cons, List.map_flatMap]
  rfl

end Tree

namespace Forest

variable {f : Forest} {h k : Handle} {c : Concept} {t : Tree}

/-- The tree shows the concepts in it as they are in the forest. -/
inductive Shows (f : Forest) : Tree → Prop where
  | node {h : Handle} {c : Concept} {ts : List Tree} (live : f.get? h = some c)
    (children : ts.map Tree.handle = c.children) (below : ∀ t ∈ ts, Shows f t) :
    Shows f (.node h c ts)

/-- The trees directly in a tree show the children of the concept at its top. -/
theorem Shows.parent?_of_mem_children (wf : f.WellFormed) (shows : f.Shows t) {s : Tree}
    (mem : s ∈ t.children) : f.parent? s.handle = some t.handle := by
  cases shows with
  | @node h c ts live children _ =>
    have child : s.handle ∈ f.childrenOf h := by
      rw [childrenOf_of_get? live, ← children]
      exact List.mem_map.mpr ⟨s, mem, rfl⟩
    exact wf.mem_childrenOf.mp child

theorem Shows.contains (shows : f.Shows t) : f.contains t.handle = true := by
  cases shows with
  | node live _ _ => exact contains_of_get? live

theorem Shows.of_mem_children (shows : f.Shows t) {s : Tree} (mem : s ∈ t.children) :
    f.Shows s := by
  cases shows with
  | node _ _ below => exact below s mem

theorem Shows.map_handle_children (shows : f.Shows t) :
    t.children.map Tree.handle = f.childrenOf t.handle := by
  cases shows with
  | node live children _ => exact children.trans (childrenOf_of_get? live).symm

private theorem eq_of_map_handle_eq {ss ts : List Tree}
    (same : ss.map Tree.handle = ts.map Tree.handle)
    (each : ∀ s ∈ ss, ∀ t ∈ ts, s.handle = t.handle → s = t) : ss = ts := by
  induction ss generalizing ts with
  | nil => exact (List.map_eq_nil_iff.mp same.symm).symm
  | cons s ss ih =>
    cases ts with
    | nil => cases same
    | cons t ts =>
      obtain ⟨first, rest⟩ := List.cons.inj same
      rw [each s List.mem_cons_self t List.mem_cons_self first]
      rw [ih rest fun s mem t mem' => each s (List.mem_cons_of_mem _ mem) t
        (List.mem_cons_of_mem _ mem')]

/-- There is one tree that shows a concept. -/
theorem Shows.eq (shows : f.Shows t) {s : Tree} (shown : f.Shows s) (same : s.handle = t.handle) :
    s = t := by
  induction shows generalizing s with
  | @node h c ts live children below ih =>
    cases shown with
    | @node k d ss live' children' below' =>
      obtain rfl : k = h := same
      obtain rfl := Option.some.inj (live'.symm.trans live)
      rw [eq_of_map_handle_eq (children'.trans children.symm) fun s mem t mem' same =>
        ih t mem' (below' s mem) same]

theorem Shows.contains_of_mem_handles (shows : f.Shows t) (mem : k ∈ t.handles) :
    f.contains k = true := by
  induction shows with
  | node live _ _ ih =>
    rw [Tree.handles_node, List.mem_cons, List.mem_flatMap] at mem
    rcases mem with rfl | ⟨s, child, inside⟩
    · exact contains_of_get? live
    · exact ih s child inside

/-- A tree shows the concepts as they are in any forest that has the same ones there. -/
theorem Shows.congr {g : Forest} (shows : f.Shows t)
    (same : ∀ k ∈ t.handles, g.get? k = f.get? k) : g.Shows t := by
  induction shows with
  | @node h c ts live children _ ih =>
    rw [Tree.handles_node] at same
    refine .node ((same h List.mem_cons_self).trans live) children fun s child => ih s child ?_
    intro k inside
    exact same k (List.mem_cons_of_mem _ (List.mem_flatMap.mpr ⟨s, child, inside⟩))

/-- The handles in a tree are those of the concept at the top and of all it owns. -/
theorem Shows.mem_handles_iff (wf : f.WellFormed) (shows : f.Shows t) :
    k ∈ t.handles ↔ k = t.handle ∨ f.Owns t.handle k := by
  induction shows with
  | @node h c ts live children _ ih =>
    have owned : ∀ x, f.parent? x = some h ↔ ∃ s ∈ ts, s.handle = x := by
      intro x
      rw [← wf.mem_childrenOf, childrenOf_of_get? live, ← children, List.mem_map]
    rw [Tree.handles_node, List.mem_cons, List.mem_flatMap]
    apply or_congr_right
    constructor
    · rintro ⟨s, mem, below⟩
      have top := owns_of_parent? ((owned s.handle).mpr ⟨s, mem, rfl⟩)
      rcases (ih s mem).mp below with rfl | below
      · exact top
      · exact top.trans below
    · intro owns
      obtain ⟨x, parent, below⟩ := Relation.TransGen.head'_iff.mp owns
      obtain ⟨s, mem, rfl⟩ := (owned x).mp parent
      refine ⟨s, mem, (ih s mem).mpr ?_⟩
      rcases Relation.reflTransGen_iff_eq_or_transGen.mp below with same | below
      · exact .inl same
      · exact .inr below

/-! ### Finding the tree -/

theorem treeWithin_succ (f : Forest) (n : Nat) (h : Handle) :
    f.treeWithin (n + 1) h = (f.get? h).bind fun c =>
      (c.children.mapM (f.treeWithin n)).bind fun ts => some (.node h c ts) :=
  rfl

private theorem forall₂_of_mapM {α β : Type} {find : α → Option β} {xs : List α} {ys : List β}
    (found : xs.mapM find = some ys) : List.Forall₂ (fun x y => find x = some y) xs ys := by
  induction xs generalizing ys with
  | nil =>
    simp only [List.mapM_nil, Option.pure_def, Option.some.injEq] at found
    subst found
    exact .nil
  | cons x xs ih =>
    simp only [List.mapM_cons, Option.bind_eq_bind, Option.bind_eq_some_iff, Option.pure_def,
      Option.some.injEq] at found
    obtain ⟨y, first, rest, others, rfl⟩ := found
    exact .cons first (ih others)

theorem shows_of_treeWithin {n : Nat} (found : f.treeWithin n h = some t) :
    f.Shows t ∧ t.handle = h := by
  induction n generalizing h t with
  | zero => simp [treeWithin] at found
  | succ n ih =>
    simp only [treeWithin_succ, Option.bind_eq_some_iff, Option.some.injEq] at found
    obtain ⟨c, live, ts, below, rfl⟩ := found
    have found := forall₂_of_mapM below
    have each : ∀ {xs ts}, List.Forall₂ (fun x t => f.treeWithin n x = some t) xs ts →
        ts.map Tree.handle = xs ∧ ∀ t ∈ ts, f.Shows t := by
      intro xs ts found
      induction found with
      | nil => simp
      | cons first _ rest =>
        obtain ⟨shows, handle⟩ := ih first
        constructor
        · simp [rest.1, handle]
        · exact List.forall_mem_cons.mpr ⟨shows, rest.2⟩
    obtain ⟨children, shown⟩ := each found
    exact ⟨.node live children shown, rfl⟩

/-- A search that goes `n` deep below `above`, the owners passed already, finds the tree if both
together are as many as there are handles. -/
theorem exists_treeWithin (wf : f.WellFormed) {n : Nat} {above : List Handle}
    (live : f.contains h = true) (nodup : (h :: above).Nodup) (owners : ∀ a ∈ above, f.Owns a h)
    (enough : n + above.length ≥ f.next) : ∃ t, f.treeWithin n h = some t := by
  induction n generalizing h above with
  | zero =>
    have all_live : ∀ k ∈ h :: above, f.contains k = true := by
      intro k mem
      rcases List.mem_cons.mp mem with rfl | mem
      · exact live
      · exact wf.contains_owner (owners k mem)
    have few := length_le_next nodup all_live
    simp only [List.length_cons] at few
    omega
  | succ n ih =>
    obtain ⟨c, live⟩ := contains_iff.mp live
    have each : ∀ x ∈ c.children, ∃ s, f.treeWithin n x = some s := by
      intro x mem
      have owned : f.parent? x = some h := by
        rw [← wf.mem_childrenOf, childrenOf_of_get? live]
        exact mem
      have owners' : ∀ a ∈ h :: above, f.Owns a x := by
        intro a mem
        rcases List.mem_cons.mp mem with rfl | mem
        · exact owns_of_parent? owned
        · exact (owners a mem).down owned
      apply ih (contains_of_parent? owned) (List.nodup_cons.mpr ⟨?_, nodup⟩) owners'
      · simp only [List.length_cons]
        omega
      · intro mem
        exact wf.not_owns_self x (owners' x mem)
    obtain ⟨ts, below⟩ := exists_mapM each
    exact ⟨.node h c ts, by simp [treeWithin_succ, live, below]⟩

/-- Every live concept has a tree. -/
theorem exists_tree (wf : f.WellFormed) (live : f.contains h = true) :
    ∃ t, f.tree h = .ok t ∧ f.Shows t ∧ t.handle = h := by
  obtain ⟨t, found⟩ : ∃ t, f.treeWithin f.next h = some t :=
    exists_treeWithin wf live (List.nodup_singleton h) (by simp) (by simp)
  have shown := shows_of_treeWithin found
  exact ⟨t, by simp [tree, tree?, found], shown⟩

/-- The concept itself is at the top of its tree, with the trees of its children below. -/
theorem exists_node (wf : f.WellFormed) (live : f.get? h = some c) :
    ∃ ts, f.tree h = .ok (.node h c ts) ∧ f.Shows (.node h c ts) ∧
      ts.map Tree.handle = c.children := by
  obtain ⟨t, found, shows, rfl⟩ := exists_tree wf (contains_of_get? live)
  cases shows with
  | @node h d ts live' children below =>
    obtain rfl : d = c := Option.some.inj (live'.symm.trans live)
    exact ⟨ts, found, .node live children below, children⟩

theorem shows_of_tree (found : f.tree h = .ok t) : f.Shows t ∧ t.handle = h := by
  simp only [tree] at found
  split at found
  · next s search =>
    obtain rfl := Except.ok.inj found
    exact shows_of_treeWithin search
  · cases found

theorem Shows.tree (wf : f.WellFormed) (shows : f.Shows t) : f.tree t.handle = .ok t := by
  obtain ⟨s, found, shown, same⟩ := exists_tree wf shows.contains
  rw [found, shows.eq shown same]

theorem Shows.tree? (wf : f.WellFormed) (shows : f.Shows t) : f.tree? t.handle = some t := by
  have found := shows.tree wf
  rw [Forest.tree] at found
  split at found
  · next s search =>
    obtain rfl := Except.ok.inj found
    exact search
  · cases found

theorem Shows.describe (wf : f.WellFormed) (shows : f.Shows t) :
    f.describe t.handle = t.describe := by
  rw [Forest.describe, shows.tree? wf]

/-- A concept is described alike as long as those that were there are not changed. -/
theorem describe_congr {g : Forest} (wf : f.WellFormed) (wf' : g.WellFormed)
    (live : f.contains h = true) (same : ∀ k, f.contains k = true → g.get? k = f.get? k) :
    g.describe h = f.describe h := by
  obtain ⟨t, -, shows, rfl⟩ := exists_tree wf live
  have shown : g.Shows t := shows.congr fun k mem => same k (shows.contains_of_mem_handles mem)
  rw [shows.describe wf, shown.describe wf']

theorem Shows.descendants (wf : f.WellFormed) (shows : f.Shows t) :
    f.descendants t.handle = .ok t.handles := by
  rw [Forest.descendants, shows.tree wf]
  rfl

/-- The descendants of a live concept are itself and all it owns. -/
theorem exists_descendants (wf : f.WellFormed) (live : f.contains h = true) :
    ∃ hs, f.descendants h = .ok hs ∧ ∀ k, k ∈ hs ↔ k = h ∨ f.Owns h k := by
  obtain ⟨t, -, shows, rfl⟩ := exists_tree wf live
  exact ⟨t.handles, shows.descendants wf, fun k => shows.mem_handles_iff wf⟩

end Forest

end ConceptForest
