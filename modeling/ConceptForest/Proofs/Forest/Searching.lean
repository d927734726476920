import ConceptForest.Expansion.Match
import ConceptForest.Proofs.Forest.Descent
import ConceptForest.Proofs.Steps

/-!
What a search under roots goes through, and what it finds.

* `shows_of_mem_reachableAll` — the trees that are reached show the roots or what they own.
* `exists_of_mem_resolve`, `mem_resolveParts` — whatever is found under roots is one of them or
  owned by one.
* `resolveParts_congr` — what has been added to a forest and is excluded does not matter.
-/

namespace ConceptForest

theorem nodup_eraseDups {α : Type} [DecidableEq α] : (xs : List α) → xs.eraseDups.Nodup
  | [] => by simp
  | x :: xs => by
    rw [List.eraseDups_cons, List.nodup_cons, List.mem_eraseDups]
    exact ⟨by simp, nodup_eraseDups _⟩
termination_by xs => xs.length
decreasing_by exact Nat.lt_succ_of_le (List.length_filter_le _ _)

theorem Expansion.anyDescribes_eq_any (es : List Expansion) (t : Tree) :
    anyDescribes es t = es.any (·.describes t) := by
  induction es with
  | nil => rfl
  | cons e es ih => rw [anyDescribes, List.any_cons, ih]

namespace Tree

theorem reachableAll_eq_flatMap (excluded : List Handle) (ts : List Tree) :
    reachableAll excluded ts = ts.flatMap (reachable excluded) := by
  induction ts with
  | nil => rfl
  | cons t ts ih => simp [reachableAll, ih]

/-- From the top of a tree, unless it is excluded, it is itself reached and what is reached from the
trees directly in it. -/
theorem mem_reachable_iff {excluded : List Handle} {h : Handle} {c : Concept} {ts : List Tree}
    {s : Tree} : s ∈ (node h c ts).reachable excluded ↔
      h ∉ excluded ∧ (s = node h c ts ∨ ∃ t ∈ ts, s ∈ t.reachable excluded) := by
  rw [reachable]
  split
  · next out => simp [List.contains_iff_mem.mp out]
  · next kept =>
    rw [reachableAll_eq_flatMap, List.mem_cons, List.mem_flatMap]
    exact (and_iff_right (mt List.contains_iff_mem.mpr kept)).symm

mutual

/-- Where no excluded concept is in a tree, all trees in it are reached. -/
theorem reachable_eq_subtrees {excluded : List Handle} :
    (t : Tree) → (∀ h ∈ t.handles, h ∉ excluded) → t.reachable excluded = t.subtrees
  | node h c ts, kept => by
    rw [handles_node, List.forall_mem_cons] at kept
    simp [reachable, subtrees, kept.1, reachableAll_eq_subtreesAll ts kept.2]

theorem reachableAll_eq_subtreesAll {excluded : List Handle} :
    (ts : List Tree) → (∀ h ∈ ts.flatMap handles, h ∉ excluded) →
      reachableAll excluded ts = subtreesAll ts
  | [], _ => rfl
  | t :: ts, kept => by
    rw [List.flatMap_cons, List.forall_mem_append] at kept
    rw [reachableAll, subtreesAll, reachable_eq_subtrees t kept.1,
      reachableAll_eq_subtreesAll ts kept.2]

end

theorem reachable_nil (t : Tree) : t.reachable [] = t.subtrees :=
  reachable_eq_subtrees t fun _ _ => List.not_mem_nil

theorem reachableAll_nil (ts : List Tree) : reachableAll [] ts = subtreesAll ts :=
  reachableAll_eq_subtreesAll ts fun _ _ => List.not_mem_nil

/-- A match that begins at the top of a tree is about the top or the trees directly in it. -/
theorem concepts_of_mem_matchesHere {e : Expansion} {t : Tree} {m : Match}
    (mem : m ∈ matchesHere e t) {h : Handle} (named : h ∈ m.concepts) :
    h = t.handle ∨ ∃ s ∈ t.children, h = s.handle := by
  rcases List.mem_append.mp mem with whole | part
  · split at whole
    · obtain rfl := List.mem_singleton.mp whole
      exact .inl (List.mem_singleton.mp named)
    · cases whole
  · obtain ⟨items, -, part⟩ := List.mem_flatMap.mp part
    rcases List.mem_append.mp part with window | spanning
    · unfold windowMatches at window
      split at window
      · obtain ⟨⟨start, run⟩, -, found⟩ := List.mem_filterMap.mp window
        dsimp only at found
        split at found
        · obtain rfl := Option.some.inj found
          exact .inl (List.mem_singleton.mp named)
        · cases found
      · cases window
    · obtain ⟨⟨start, run⟩, -, found⟩ := List.mem_filterMap.mp spanning
      simp only [Option.bind_eq_bind, Option.bind_eq_some_iff] at found
      obtain ⟨first, -, last, -, found⟩ := found
      split at found
      · cases found
      · obtain rfl := Option.some.inj found
        obtain ⟨⟨s, i⟩, touched, rfl⟩ := List.mem_map.mp named
        have child := List.mem_of_mem_drop (List.mem_of_mem_take touched)
        exact .inr ⟨s, (List.mem_zipIdx' child).2 ▸ List.getElem_mem _, rfl⟩

end Tree

namespace Forest

variable {f g : Forest} {h : Handle} {t : Tree} {e : Expansion} {roots excluded : List Handle}

/-- Whatever is reached in the tree of a concept is that concept or owned by it. -/
theorem Shows.of_mem_reachable (wf : f.WellFormed) (shows : f.Shows t) {s : Tree}
    (mem : s ∈ t.reachable excluded) :
    f.Shows s ∧ (s.handle = t.handle ∨ f.Owns t.handle s.handle) := by
  induction shows with
  | @node h c ts live children below ih =>
    have shows : f.Shows (.node h c ts) := .node live children below
    obtain ⟨-, rfl | ⟨t, child, inside⟩⟩ := Tree.mem_reachable_iff.mp mem
    · exact ⟨shows, .inl rfl⟩
    · have owned := owns_of_parent? (shows.parent?_of_mem_children wf child)
      obtain ⟨shown, same | owns⟩ := ih t child inside
      · exact ⟨shown, .inr (same ▸ owned)⟩
      · exact ⟨shown, .inr (owned.trans owns)⟩

/-- An expansion describes a concept exactly if it describes the tree that shows it. -/
theorem Shows.isDescribed (wf : f.WellFormed) (shows : f.Shows t) (e : Expansion) :
    f.isDescribed e t.handle = e.describes t := by
  rw [Forest.isDescribed, shows.tree? wf, Option.any_some]

theorem mem_searched {trees : List Tree} (found : f.searched excluded roots = .ok trees)
    (mem : t ∈ trees) : ∃ root ∈ roots, f.tree root = .ok t := by
  induction roots generalizing trees with
  | nil =>
    obtain rfl := Except.ok.inj found
    cases mem
  | cons root roots ih =>
    unfold searched at found
    split at found
    · obtain ⟨r, inside, tree⟩ := ih found mem
      exact ⟨r, List.mem_cons_of_mem _ inside, tree⟩
    · obtain ⟨s, tree, found⟩ := bind_eq_ok_iff.mp found
      obtain ⟨rest, others, found⟩ := bind_eq_ok_iff.mp found
      obtain rfl := Except.ok.inj found
      rcases List.mem_cons.mp mem with rfl | mem
      · exact ⟨root, List.mem_cons_self, tree⟩
      · obtain ⟨r, inside, tree⟩ := ih others mem
        exact ⟨r, List.mem_cons_of_mem _ inside, tree⟩

/-- The tree of each root that is not excluded is searched. -/
theorem exists_of_searched {trees : List Tree} {root : Handle}
    (found : f.searched excluded roots = .ok trees) (mem : root ∈ roots) (kept : root ∉ excluded) :
    ∃ t ∈ trees, f.tree root = .ok t := by
  induction roots generalizing trees with
  | nil => cases mem
  | cons other roots ih =>
    unfold searched at found
    split at found
    · next out =>
      rcases List.mem_cons.mp mem with rfl | mem
      · exact absurd (List.contains_iff_mem.mp out) kept
      · exact ih found mem
    · obtain ⟨s, tree, found⟩ := bind_eq_ok_iff.mp found
      obtain ⟨rest, others, found⟩ := bind_eq_ok_iff.mp found
      obtain rfl := Except.ok.inj found
      rcases List.mem_cons.mp mem with rfl | mem
      · exact ⟨s, List.mem_cons_self, tree⟩
      · obtain ⟨t, inside, tree⟩ := ih others mem
        exact ⟨t, List.mem_cons_of_mem _ inside, tree⟩

/-- A tree that is reached from the roots shows one of them or something that one of them owns. -/
theorem shows_of_mem_reachableAll (wf : f.WellFormed) {trees : List Tree}
    (found : f.searched excluded roots = .ok trees) {s : Tree}
    (mem : s ∈ Tree.reachableAll excluded trees) :
    f.Shows s ∧ ∃ root ∈ roots, s.handle = root ∨ f.Owns root s.handle := by
  rw [Tree.reachableAll_eq_flatMap] at mem
  obtain ⟨t, tree, inside⟩ := List.mem_flatMap.mp mem
  obtain ⟨root, mem, tree⟩ := mem_searched found tree
  obtain ⟨shows, rfl⟩ := shows_of_tree tree
  obtain ⟨shown, below⟩ := shows.of_mem_reachable wf inside
  exact ⟨shown, t.handle, mem, below⟩

/-- Every concept that is found is described, and is one of the roots or owned by one. -/
theorem exists_of_mem_resolve (wf : f.WellFormed) {hs : List Handle}
    (found : f.resolve roots e excluded = .ok hs) (mem : h ∈ hs) :
    ∃ t, f.Shows t ∧ t.handle = h ∧ e.describes t = true ∧
      ∃ root ∈ roots, h = root ∨ f.Owns root h := by
  obtain ⟨trees, searched, found⟩ := bind_eq_ok_iff.mp found
  obtain rfl := Except.ok.inj found
  obtain ⟨s, chosen, rfl⟩ := List.mem_map.mp (List.mem_eraseDups.mp mem)
  obtain ⟨reached, described⟩ := List.mem_filter.mp chosen
  obtain ⟨shows, below⟩ := shows_of_mem_reachableAll wf searched reached
  exact ⟨s, shows, rfl, described, below⟩

/-- Every concept of which a part is found is one of the roots or owned by one. -/
theorem mem_resolveParts (wf : f.WellFormed) {ms : List Match} {m : Match}
    (found : f.resolveParts roots e excluded = .ok ms) (mem : m ∈ ms) (named : h ∈ m.concepts) :
    ∃ root ∈ roots, h = root ∨ f.Owns root h := by
  obtain ⟨trees, searched, found⟩ := bind_eq_ok_iff.mp found
  obtain rfl := Except.ok.inj found
  obtain ⟨t, reached, here⟩ := List.mem_flatMap.mp (List.mem_eraseDups.mp mem)
  obtain ⟨shows, root, inside, below⟩ := shows_of_mem_reachableAll wf searched reached
  refine ⟨root, inside, ?_⟩
  rcases Tree.concepts_of_mem_matchesHere here named with rfl | ⟨s, child, rfl⟩
  · exact below
  · have owned := shows.parent?_of_mem_children wf child
    right
    rcases below with rfl | owns
    · exact owns_of_parent? owned
    · exact owns.down owned

/-- A search finds the same parts in a forest that has more concepts, if what is excluded is among
those that it has more. -/
theorem resolveParts_congr (wf : f.WellFormed) (wf' : g.WellFormed)
    (same : ∀ k, f.contains k = true → g.get? k = f.get? k)
    (live : ∀ root ∈ roots, f.contains root = true)
    (more : ∀ x ∈ excluded, f.contains x = false) :
    g.resolveParts roots e excluded = f.resolveParts roots e [] := by
  have kept : ∀ {k}, f.contains k = true → k ∉ excluded := by
    intro k there out
    rw [more k out] at there
    cases there
  obtain ⟨trees, searched, searched', inside⟩ : ∃ trees, f.searched [] roots = .ok trees ∧
      g.searched excluded roots = .ok trees ∧
      ∀ h ∈ trees.flatMap Tree.handles, f.contains h = true := by
    induction roots with
    | nil => exact ⟨[], rfl, rfl, nofun⟩
    | cons root roots ih =>
      obtain ⟨first, others⟩ := List.forall_mem_cons.mp live
      obtain ⟨t, tree, shows, rfl⟩ := exists_tree wf first
      obtain ⟨ts, searched, searched', inside⟩ := ih others
      have shown : g.Shows t := shows.congr fun k mem => same k (shows.contains_of_mem_handles mem)
      refine ⟨t :: ts, ?_, ?_, ?_⟩
      · rw [Forest.searched, if_neg (by simp), tree, searched]
        rfl
      · rw [Forest.searched, if_neg (by simpa using kept first), shown.tree wf', searched']
        rfl
      · rw [List.flatMap_cons, List.forall_mem_append]
        exact ⟨fun h => shows.contains_of_mem_handles, inside⟩
  rw [resolveParts, resolveParts, searched, searched']
  simp only [ok_bind, Tree.reachableAll_nil,
    Tree.reachableAll_eq_subtreesAll trees fun h mem => kept (inside h mem)]

end Forest

end ConceptForest
