import ConceptForest.Proofs.Forest.Searching
import ConceptForest.Proofs.Forest.Traversals

/-!
What a search under roots comes to, and in which order.

A search walks down from the roots, one after the other, and passes over what is excluded and what it
has visited before, without a look at what is below. Nothing is missed by that: whenever it comes to
a concept that it has visited, it has visited all that can be reached from that one, too. The only
visited concepts of which this is not true yet are those above the one that it looks at (`Explored`).

* `ReachedFrom`, `ReachedBefore` — which concepts a search comes to, and which of two it comes to
  first, in terms of who owns whom.
* `mem_reached_iff`, `pairwise_reached` — what is reached from one root.
* `walks_reached` — a walk with a stack from all roots visits what is reached from them, each concept
  where it is first reached.
* `resolve_exact` — what a search for whole concepts finds.
-/

namespace ConceptForest

/-- It does not matter whether a list is sifted before or after repetitions go. -/
theorem filter_eraseDups {α : Type} [DecidableEq α] (keep : α → Bool) :
    (xs : List α) → xs.eraseDups.filter keep = (xs.filter keep).eraseDups
  | [] => by simp
  | x :: xs => by
    rw [List.eraseDups_cons, List.filter_cons, List.filter_cons, filter_eraseDups]
    split
    · next kept =>
      rw [List.eraseDups_cons, List.filter_filter, List.filter_filter]
      simp only [Bool.and_comm]
    · next dropped =>
      rw [List.filter_filter]
      congr 1
      apply List.filter_congr
      intro y _
      by_cases same : y = x
      · simp [same, dropped]
      · simp [same]
termination_by xs => xs.length
decreasing_by exact Nat.lt_succ_of_le (List.length_filter_le _ _)

theorem eraseDups_of_nodup {α : Type} [DecidableEq α] {xs : List α} (nodup : xs.Nodup) :
    xs.eraseDups = xs := by
  induction xs with
  | nil => simp
  | cons x xs ih =>
    obtain ⟨fresh, nodup⟩ := List.nodup_cons.mp nodup
    have others : xs.filter (fun y => !y == x) = xs := by
      rw [List.filter_eq_self]
      rintro y mem
      simp only [Bool.not_eq_true', beq_eq_false_iff_ne]
      rintro rfl
      exact fresh mem
    rw [List.eraseDups_cons, others, ih nodup]

namespace Tree

mutual

theorem reachable_sublist (excluded : List Handle) :
    (t : Tree) → (t.reachable excluded).Sublist t.subtrees
  | node h c ts => by
    rw [reachable, subtrees]
    split
    · exact List.nil_sublist _
    · exact (reachableAll_sublist excluded ts).cons_cons _

theorem reachableAll_sublist (excluded : List Handle) :
    (ts : List Tree) → (reachableAll excluded ts).Sublist (subtreesAll ts)
  | [] => List.Sublist.refl _
  | t :: ts => (reachable_sublist excluded t).append (reachableAll_sublist excluded ts)

end

end Tree

namespace Forest

variable {f : Forest} {a b h k p root : Handle} {c : Concept} {t : Tree} {e : Expansion}
  {roots excluded visited : List Handle}

/-! ### From one root -/

/-- The concept is a root or owned by it, and no concept on the way down from the one to the other
is excluded, themselves among them. -/
structure ReachedFrom (f : Forest) (excluded : List Handle) (root h : Handle) : Prop where
  below : h = root ∨ f.Owns root h
  kept : ∀ k, (k = root ∨ f.Owns root k) → (h = k ∨ f.Owns k h) → k ∉ excluded

theorem ReachedFrom.root_not_mem (reached : f.ReachedFrom excluded root h) : root ∉ excluded :=
  reached.kept root (.inl rfl) reached.below

theorem ReachedFrom.refl (wf : f.WellFormed) (kept : h ∉ excluded) : f.ReachedFrom excluded h h where
  below := .inl rfl
  kept k above below := by
    rcases above with rfl | above
    · exact kept
    · rcases below with rfl | below
      · exact kept
      · exact absurd (above.trans below) (wf.not_owns_self h)

/-- Nothing stands between a concept and its child. -/
theorem ReachedFrom.child (wf : f.WellFormed) (kept : p ∉ excluded) (keptChild : h ∉ excluded)
    (owned : f.parent? h = some p) : f.ReachedFrom excluded p h where
  below := .inr (owns_of_parent? owned)
  kept k above below := by
    rcases above with rfl | above
    · exact kept
    · rcases below with rfl | below
      · exact keptChild
      · rcases below.up owned with rfl | below
        · exact absurd above (wf.not_owns_self _)
        · exact absurd (above.trans below) (wf.not_owns_self p)

theorem ReachedFrom.trans (wf : f.WellFormed) (first : f.ReachedFrom excluded root k)
    (second : f.ReachedFrom excluded k h) : f.ReachedFrom excluded root h where
  below := by
    rcases second.below with rfl | owns
    · exact first.below
    · exact .inr (first.below.elim (fun same => same ▸ owns) fun above => above.trans owns)
  kept x above below := by
    have ends : k = h ∨ f.Owns k h := second.below.imp_left Eq.symm
    rcases owns_comparable wf ends (below.imp_left Eq.symm) with rfl | down | up
    · exact second.kept _ (.inl rfl) below
    · exact second.kept x (.inr down) below
    · exact first.kept x above (.inr up)

/-- What is reached from a root is the root itself or reached from a child of it. -/
theorem reachedFrom_iff (wf : f.WellFormed) :
    f.ReachedFrom excluded root h ↔
      root ∉ excluded ∧ (h = root ∨ ∃ x ∈ f.childrenOf root, f.ReachedFrom excluded x h) := by
  constructor
  · intro reached
    refine ⟨reached.root_not_mem, reached.below.imp_right fun owns => ?_⟩
    obtain ⟨x, owned, down⟩ := Relation.TransGen.head'_iff.mp owns
    have within := Relation.reflTransGen_iff_eq_or_transGen.mp down
    refine ⟨x, wf.mem_childrenOf.mpr owned, within, fun k above => ?_⟩
    refine reached.kept k (.inr ?_)
    rcases above with rfl | above
    · exact owns_of_parent? owned
    · exact (owns_of_parent? owned).trans above
  · rintro ⟨kept, rfl | ⟨x, child, reached⟩⟩
    · exact .refl wf kept
    · have owned := wf.mem_childrenOf.mp child
      exact (ReachedFrom.child wf kept reached.root_not_mem owned).trans wf reached

/-- The concepts that are reached from a root, in the order of a walk down. -/
def reached (f : Forest) (excluded : List Handle) (root : Handle) : List Handle :=
  ((f.tree? root).map fun t => (t.reachable excluded).map Tree.handle).getD []

theorem Shows.reached (wf : f.WellFormed) (shows : f.Shows t) (excluded : List Handle) :
    f.reached excluded t.handle = (t.reachable excluded).map Tree.handle := by
  rw [Forest.reached, shows.tree? wf]
  rfl

theorem reached_of_mem (out : h ∈ excluded) : f.reached excluded h = [] := by
  rw [reached]
  cases found : f.tree? h with
  | none => rfl
  | some t =>
    obtain ⟨-, rfl⟩ := shows_of_treeWithin found
    cases t with
    | node h c ts =>
      have out : excluded.contains h = true := List.contains_iff_mem.mpr out
      rw [Option.map_some, Tree.reachable, if_pos out]
      rfl

/-- A concept is reached before those that are reached from its children in turn. -/
theorem reached_of_not_mem (wf : f.WellFormed) (live : f.get? h = some c) (kept : h ∉ excluded) :
    f.reached excluded h = h :: c.children.flatMap (f.reached excluded) := by
  obtain ⟨ts, -, shows, children⟩ := exists_node wf live
  have each : ∀ t ∈ ts, (t.reachable excluded).map Tree.handle = f.reached excluded t.handle :=
    fun t child => ((shows.of_mem_children child).reached wf excluded).symm
  refine (shows.reached wf excluded).trans ?_
  rw [Tree.reachable, if_neg (mt List.contains_iff_mem.mp kept), Tree.reachableAll_eq_flatMap,
    List.map_cons, List.map_flatMap, ← children, List.flatMap_map]
  exact congrArg _ (List.flatMap_congr each)

theorem mem_reached_iff (wf : f.WellFormed) (live : f.contains root = true) :
    h ∈ f.reached excluded root ↔ f.ReachedFrom excluded root h := by
  obtain ⟨t, -, shows, rfl⟩ := exists_tree wf live
  induction shows with
  | @node top c ts there children below ih =>
    show h ∈ f.reached excluded top ↔ f.ReachedFrom excluded top h
    rw [reachedFrom_iff wf]
    by_cases out : top ∈ excluded
    · simp [reached_of_mem out, out]
    · rw [reached_of_not_mem wf there out, and_iff_right out, List.mem_cons, List.mem_flatMap,
        childrenOf_of_get? there, ← children]
      apply or_congr_right
      constructor
      · rintro ⟨x, child, mem⟩
        obtain ⟨t, inside, rfl⟩ := List.mem_map.mp child
        exact ⟨_, child, (ih t inside (below t inside).contains).mp mem⟩
      · rintro ⟨x, child, reached⟩
        obtain ⟨t, inside, rfl⟩ := List.mem_map.mp child
        exact ⟨_, child, (ih t inside (below t inside).contains).mpr reached⟩

theorem pairwise_reached (wf : f.WellFormed) (excluded : List Handle) (root : Handle) :
    (f.reached excluded root).Pairwise f.Precedes := by
  rw [reached]
  cases found : f.tree? root with
  | none => exact .nil
  | some t =>
    obtain ⟨shows, -⟩ := shows_of_treeWithin found
    exact (shows.pairwise_precedes wf).sublist ((t.reachable_sublist excluded).map Tree.handle)

theorem nodup_reached (wf : f.WellFormed) (excluded : List Handle) (root : Handle) :
    (f.reached excluded root).Nodup :=
  (pairwise_reached wf excluded root).imp fun precedes => precedes.ne wf

/-! ### From one root after the other -/

/-- A search that walks down from one root after the other comes to the first concept before it
comes to the second one: the first one is reached from a root, and the second one from no root
before that, and if from the same one, later on the walk down. -/
inductive ReachedBefore (f : Forest) (excluded roots : List Handle) (a b : Handle) : Prop where
  | at_root {before after : List Handle} {root : Handle} (place : roots = before ++ root :: after)
    (here : f.ReachedFrom excluded root a) (earlier : ∀ r ∈ before, ¬ f.ReachedFrom excluded r b)
    (later : f.ReachedFrom excluded root b → f.Precedes a b)

theorem ReachedBefore.cons (reached : f.ReachedBefore excluded roots a b)
    (new : ¬ f.ReachedFrom excluded root b) : f.ReachedBefore excluded (root :: roots) a b := by
  cases reached with
  | @at_root before after other place here earlier later =>
    exact .at_root (congrArg (root :: ·) place) here (List.forall_mem_cons.mpr ⟨new, earlier⟩) later

/-- The concepts that are reached from the roots, each where it is first reached. -/
def reachedAll (f : Forest) (excluded roots : List Handle) : List Handle :=
  (roots.flatMap (f.reached excluded)).eraseDups

theorem mem_reachedAll_iff (wf : f.WellFormed) (live : ∀ root ∈ roots, f.contains root = true) :
    h ∈ f.reachedAll excluded roots ↔ ∃ root ∈ roots, f.ReachedFrom excluded root h := by
  rw [reachedAll, List.mem_eraseDups, List.mem_flatMap]
  constructor
  · rintro ⟨root, mem, inside⟩
    exact ⟨root, mem, (mem_reached_iff wf (live root mem)).mp inside⟩
  · rintro ⟨root, mem, reached⟩
    exact ⟨root, mem, (mem_reached_iff wf (live root mem)).mpr reached⟩

theorem reachedAll_cons (wf : f.WellFormed) (excluded : List Handle) (root : Handle)
    (roots : List Handle) : f.reachedAll excluded (root :: roots) =
      f.reached excluded root ++
        (f.reachedAll excluded roots).filter (· ∉ f.reached excluded root) := by
  rw [reachedAll, List.flatMap_cons, List.eraseDups_append,
    eraseDups_of_nodup (nodup_reached wf excluded root), reachedAll, filter_eraseDups,
    List.removeAll]
  simp

theorem pairwise_reachedAll (wf : f.WellFormed) (live : ∀ root ∈ roots, f.contains root = true) :
    (f.reachedAll excluded roots).Pairwise (f.ReachedBefore excluded roots) := by
  induction roots with
  | nil => simp [reachedAll]
  | cons root roots ih =>
    obtain ⟨liveRoot, live⟩ := List.forall_mem_cons.mp live
    have here : ∀ h, h ∈ f.reached excluded root ↔ f.ReachedFrom excluded root h :=
      fun h => mem_reached_iff wf liveRoot
    rw [reachedAll_cons wf, List.pairwise_append]
    refine ⟨?_, ?_, ?_⟩
    · refine (pairwise_reached wf excluded root).imp_of_mem ?_
      intro a b mem _ precedes
      exact .at_root (List.nil_append _).symm ((here a).mp mem) nofun fun _ => precedes
    · refine ((ih live).filter _).imp_of_mem ?_
      intro a b _ mem before
      have new := of_decide_eq_true (List.mem_filter.mp mem).2
      exact before.cons (mt (here b).mpr new)
    · intro a mem b mem'
      have new := of_decide_eq_true (List.mem_filter.mp mem').2
      exact .at_root (List.nil_append _).symm ((here a).mp mem) nofun
        fun reached => absurd ((here b).mpr reached) new

/-! ### As a walk with a stack -/

/-- A search passes a concept over if it is excluded or has been visited before. -/
def PassesOver (excluded visited : List Handle) (h : Handle) : Prop :=
  h ∈ excluded ∨ h ∈ visited

/-- What can be reached from the visited concepts has been visited, but for those that own the given
one: the walk down from them is not over. -/
def Explored (f : Forest) (excluded visited : List Handle) (h : Handle) : Prop :=
  ∀ x ∈ visited, f.Owns x h ∨ ∀ y, f.ReachedFrom excluded x y → y ∈ visited

/-- What is reached from a concept is visited all at once. -/
theorem Explored.append_reached (wf : f.WellFormed) (live : f.contains k = true)
    (explored : f.Explored excluded visited h) :
    f.Explored excluded (visited ++ (f.reached excluded k).filter (· ∉ visited)) h := by
  intro x mem
  rcases List.mem_append.mp mem with before | new
  · refine (explored x before).imp_right fun all y reached => ?_
    exact List.mem_append_left _ (all y reached)
  · refine .inr fun y reached => ?_
    have first := (mem_reached_iff wf live).mp (List.mem_filter.mp new).1
    have inside := (mem_reached_iff wf live).mpr (first.trans wf reached)
    by_cases seen : y ∈ visited
    · exact List.mem_append_left _ seen
    · exact List.mem_append_right _ (List.mem_filter.mpr ⟨inside, decide_eq_true seen⟩)

/-- A concept that is visited is not done with before its children are. -/
theorem Explored.visit (explored : f.Explored excluded visited h) (owned : f.parent? k = some h) :
    f.Explored excluded (visited ++ [h]) k := by
  intro x mem
  rcases List.mem_append.mp mem with before | here
  · refine (explored x before).imp (·.down owned) fun all y reached => ?_
    exact List.mem_append_left _ (all y reached)
  · rw [List.mem_singleton.mp here]
    exact .inl (owns_of_parent? owned)

/-- A walk through a row of concepts visits what is reached from each of them and has not been
visited before. -/
theorem walks_reachedAll (wf : f.WellFormed) (live : ∀ h ∈ roots, f.contains h = true)
    (each : ∀ h ∈ roots, ∀ visited, f.Explored excluded visited h →
      f.Walks (PassesOver excluded) [h] visited
        (visited ++ (f.reached excluded h).filter (· ∉ visited)))
    (explored : ∀ h ∈ roots, f.Explored excluded visited h) :
    f.Walks (PassesOver excluded) roots visited
      (visited ++ (f.reachedAll excluded roots).filter (· ∉ visited)) := by
  induction roots generalizing visited with
  | nil => simpa [reachedAll] using Walks.done
  | cons h roots ih =>
    obtain ⟨here, live⟩ := List.forall_mem_cons.mp live
    obtain ⟨first, each⟩ := List.forall_mem_cons.mp each
    obtain ⟨exploredHere, explored⟩ := List.forall_mem_cons.mp explored
    have rest := ih live each fun k mem => (explored k mem).append_reached wf here
    have both := (first visited exploredHere).append rest
    have visitedNow : ∀ x, x ∉ visited ++ (f.reached excluded h).filter (· ∉ visited) ↔
        x ∉ visited ∧ x ∉ f.reached excluded h := by
      intro x
      by_cases seen : x ∈ visited <;> simp [seen]
    simp only [visitedNow, Bool.decide_and, ← List.filter_filter] at both
    rwa [reachedAll_cons wf, List.filter_append, ← List.append_assoc]

/-- A walk from one concept visits what is reached from it and has not been visited before. -/
theorem Shows.walks_reached (wf : f.WellFormed) (shows : f.Shows t)
    (explored : f.Explored excluded visited t.handle) :
    f.Walks (PassesOver excluded) [t.handle] visited
      (visited ++ (f.reached excluded t.handle).filter (· ∉ visited)) := by
  induction shows generalizing visited with
  | @node h c ts live children below ih =>
    have shows : f.Shows (.node h c ts) := .node live children below
    by_cases out : h ∈ excluded
    · rw [Tree.handle, reached_of_mem out]
      exact .pass (.inl out) (by simpa using Walks.done)
    by_cases seen : h ∈ visited
    · -- it owns itself no more than anything, so all that is reached from it has been visited
      have all := (explored h seen).resolve_left (wf.not_owns_self h)
      have none_left : (f.reached excluded h).filter (· ∉ visited) = [] := by
        rw [List.filter_eq_nil_iff]
        intro x mem
        have reached := (mem_reached_iff wf shows.contains).mp mem
        simpa using all x reached
      rw [Tree.handle, none_left]
      exact .pass (.inr seen) (by simpa using Walks.done)
    have row : f.Walks (PassesOver excluded) c.children (visited ++ [h])
        (visited ++ [h] ++ (f.reachedAll excluded c.children).filter (· ∉ visited ++ [h])) := by
      rw [← children]
      apply walks_reachedAll wf
      · intro x child
        obtain ⟨t, inside, rfl⟩ := List.mem_map.mp child
        exact (below t inside).contains
      · intro x child visited explored
        obtain ⟨t, inside, rfl⟩ := List.mem_map.mp child
        exact ih t inside explored
      · intro x child
        obtain ⟨t, inside, rfl⟩ := List.mem_map.mp child
        exact explored.visit (shows.parent?_of_mem_children wf inside)
    have once := nodup_reached wf excluded h
    rw [reached_of_not_mem wf live out, List.nodup_cons] at once
    have same : (f.reachedAll excluded c.children).filter (· ∉ visited ++ [h]) =
        (c.children.flatMap (f.reached excluded)).filter (· ∉ visited) := by
      rw [reachedAll, eraseDups_of_nodup once.2]
      apply List.filter_congr
      rintro x mem
      have other : x ≠ h := fun same => once.1 (same ▸ mem)
      simp [other]
    rw [same, List.append_assoc] at row
    refine .visit (not_or.mpr ⟨out, seen⟩) live ?_
    rw [List.append_nil, Tree.handle, reached_of_not_mem wf live out, List.filter_cons,
      if_pos (decide_eq_true seen)]
    exact row

/-- A search walks down from the roots, and visits what is reached from them. -/
theorem walks_reached (wf : f.WellFormed) (live : ∀ root ∈ roots, f.contains root = true) :
    f.Walks (PassesOver excluded) roots [] (f.reachedAll excluded roots) := by
  have walks : f.Walks (PassesOver excluded) roots []
      ([] ++ (f.reachedAll excluded roots).filter (· ∉ [])) := by
    refine walks_reachedAll wf live ?_ nofun
    intro h mem visited explored
    obtain ⟨t, -, shows, rfl⟩ := exists_tree wf (live h mem)
    exact shows.walks_reached wf explored
  simpa using walks

/-! ### What a search finds -/

/-- Where the roots are live, all of them are searched that are not excluded. -/
theorem exists_searched (wf : f.WellFormed) (live : ∀ root ∈ roots, f.contains root = true)
    (excluded : List Handle) :
    ∃ trees, f.searched excluded roots = .ok trees ∧
      (Tree.reachableAll excluded trees).map Tree.handle = roots.flatMap (f.reached excluded) := by
  induction roots with
  | nil => exact ⟨[], rfl, rfl⟩
  | cons root roots ih =>
    obtain ⟨here, live⟩ := List.forall_mem_cons.mp live
    obtain ⟨trees, searched, reached⟩ := ih live
    by_cases out : root ∈ excluded
    · refine ⟨trees, ?_, ?_⟩
      · rw [Forest.searched, if_pos (List.contains_iff_mem.mpr out), searched]
      · rw [reached, List.flatMap_cons, reached_of_mem out, List.nil_append]
    · obtain ⟨t, tree, shows, rfl⟩ := exists_tree wf here
      refine ⟨t :: trees, ?_, ?_⟩
      · rw [Forest.searched, if_neg (mt List.contains_iff_mem.mp out), tree, searched]
        rfl
      · rw [Tree.reachableAll, List.map_append, reached, ← shows.reached wf, List.flatMap_cons]

/-- A search finds those concepts among the reached ones that are described. -/
theorem resolve_eq (wf : f.WellFormed) (live : ∀ root ∈ roots, f.contains root = true) :
    f.resolve roots e excluded =
      .ok ((f.reachedAll excluded roots).filter (f.isDescribed e)) := by
  obtain ⟨trees, searched, reached⟩ := exists_searched wf live excluded
  have described : (Tree.reachableAll excluded trees).filter e.describes =
      (Tree.reachableAll excluded trees).filter (f.isDescribed e ∘ Tree.handle) := by
    apply List.filter_congr
    intro s mem
    obtain ⟨shows, -⟩ := shows_of_mem_reachableAll wf searched mem
    exact (shows.isDescribed wf e).symm
  rw [resolve, searched, ok_bind, described, ← List.filter_map, reached, reachedAll,
    filter_eraseDups]
  rfl

/-- A search under live roots in any forest that can come about, whatever is excluded. It finds each
concept once that is described and to which a way leads down from a root on which nothing is
excluded. They come in the order in which walks down from one root after the other first come to
them; a walk with a stack that passes over what is excluded and what has been visited comes to an
end, and those are the described ones among what it has visited. -/
theorem resolve_exact (requests : List Request) {roots : List Handle}
    (live : ∀ root ∈ roots, (({} : Forest).afterAll requests).contains root = true)
    (e : Expansion) (excluded : List Handle) :
    let f := ({} : Forest).afterAll requests
    ∃ hs, f.resolve roots e excluded = .ok hs ∧ hs.Nodup ∧
      (∀ h, h ∈ hs ↔ f.isDescribed e h = true ∧ ∃ root ∈ roots, f.ReachedFrom excluded root h) ∧
      hs.Pairwise (f.ReachedBefore excluded roots) ∧
      ∃ visited, (∀ last, f.Walks (PassesOver excluded) roots [] last ↔ last = visited) ∧
        hs = visited.filter (f.isDescribed e) := by
  intro f
  have wf : f.WellFormed := (evolves_afterAll wellFormed_empty requests).wellFormed
  have walks : f.Walks (PassesOver excluded) roots [] (f.reachedAll excluded roots) :=
    walks_reached wf live
  refine ⟨_, resolve_eq wf live, (nodup_eraseDups _).filter _, ?_,
    (pairwise_reachedAll wf live).filter _, _, ?_, rfl⟩
  · intro h
    rw [List.mem_filter, mem_reachedAll_iff wf live, and_comm]
  · intro last
    constructor
    · exact fun other => walks.eq other
    · rintro rfl
      exact walks

/-- The second statement is excluded, and still the symbol in it is found, as it is a root itself.
The first one is met from three roots, and found once. -/
theorem resolve_exact_overlapping :
    let symbol (text : String) (parent : Handle) : Request := .create
      { kind := .symbol, parent := some parent, representations := [⟨text, .inputMorphism⟩] }
    let f := ({} : Forest).afterAll [.create { kind := .root },
      .create { kind := .statement, parent := some 0 }, symbol "a" 1, symbol "b" 1,
      .create { kind := .statement, parent := some 0 }, symbol "b" 4]
    let e : Expansion := .choice [.leaf "b", .sequence [.leaf "a", .leaf "b"]]
    (∀ root ∈ [5, 1, 0, 1], f.contains root = true) ∧
      f.resolve [5, 1, 0, 1] e [4] = .ok [5, 1, 3] ∧
      (∀ h, h ∈ [5, 1, 3] ↔
        f.isDescribed e h = true ∧ ∃ root ∈ [5, 1, 0, 1], f.ReachedFrom [4] root h) ∧
      [5, 1, 3].Pairwise (f.ReachedBefore [4] [5, 1, 0, 1]) ∧
      ∃ visited, (∀ last, f.Walks (PassesOver [4]) [5, 1, 0, 1] [] last ↔ last = visited) ∧
        [5, 1, 3] = visited.filter (f.isDescribed e) := by
  intro symbol f e
  have live : ∀ root ∈ [5, 1, 0, 1], f.contains root = true := by decide +kernel
  have found : f.resolve [5, 1, 0, 1] e [4] = .ok [5, 1, 3] := eq_ok_of_toOption (by decide +kernel)
  obtain ⟨hs, granted, -, exact, order, walks⟩ := resolve_exact _ live e [4]
  obtain ⟨⟩ := granted.symm.trans found
  exact ⟨live, found, exact, order, walks⟩

end Forest

end ConceptForest
