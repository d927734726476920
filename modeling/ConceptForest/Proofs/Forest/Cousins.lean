import ConceptForest.Proofs.Forest.Searching

/-!
The children of siblings in one row.

The siblings come one after the other in the row, and each takes part in it. So a run of neighbours
touches the siblings from that of its first cousin up to that of its last one (`touched_iff`), and
what it has of each of them are neighbours again (`standIns_eq_append`).
-/

namespace ConceptForest

/-- The runs that are looked at are all runs of the given length. -/
theorem mem_windows_iff {α : Type} {k start : Nat} {xs run : List α} :
    (start, run) ∈ windows k xs ↔ 0 < k ∧ run.length = k ∧
      ∃ before after, xs = before ++ run ++ after ∧ before.length = start := by
  unfold windows
  split
  · next none =>
    constructor
    · intro mem
      cases mem
    · rintro ⟨some, rfl, before, after, rfl, -⟩
      simp only [List.length_append] at none
      omega
  · next fits =>
    rw [not_or, Nat.not_lt] at fits
    simp only [List.mem_map, List.mem_range, Prod.mk.injEq]
    constructor
    · rintro ⟨i, within, rfl, rfl⟩
      refine ⟨Nat.pos_of_ne_zero fits.1, ?_, xs.take i, (xs.drop i).drop k, ?_, ?_⟩
      · rw [List.length_take, List.length_drop]
        omega
      · rw [List.append_assoc, List.take_append_drop, List.take_append_drop]
      · rw [List.length_take]
        omega
    · rintro ⟨-, rfl, before, after, rfl, rfl⟩
      refine ⟨before.length, ?_, rfl, ?_⟩
      · simp only [List.length_append]
        omega
      · simp

theorem Expansion.eachDescribes_iff {es : List Expansion} {ts : List Tree} :
    eachDescribes es ts = true ↔ List.Forall₂ (fun e t => e.describes t = true) es ts := by
  induction es generalizing ts with
  | nil => cases ts <;> simp [eachDescribes]
  | cons e es ih => cases ts <;> simp [eachDescribes, ih]

theorem Expansion.length_eq_of_eachDescribes {es : List Expansion} {ts : List Tree}
    (described : eachDescribes es ts = true) : es.length = ts.length :=
  (eachDescribes_iff.mp described).length_eq

namespace Tree

variable {siblings : List Tree} {p : Tree × Nat} {e first last : Cousin}
  {before run after : List Cousin}

/-! ### The row -/

/-- What a sibling, given with its index, adds to the row. -/
def standIns (p : Tree × Nat) : List Cousin :=
  if p.1.children.isEmpty then [⟨p.2, none, p.1⟩]
  else p.1.children.zipIdx.map fun (child, i) => ⟨p.2, some i, child⟩

theorem cousins_eq (siblings : List Tree) :
    cousins siblings = siblings.zipIdx.flatMap standIns :=
  rfl

theorem standIns_of_leaf (leaf : p.1.children = []) : standIns p = [⟨p.2, none, p.1⟩] := by
  simp [standIns, leaf]

theorem standIns_of_ne_nil (ne : p.1.children ≠ []) :
    standIns p = p.1.children.zipIdx.map fun (child, i) => ⟨p.2, some i, child⟩ := by
  simp [standIns, ne]

theorem standIns_ne_nil (p : Tree × Nat) : standIns p ≠ [] := by
  by_cases leaf : p.1.children = []
  · simp [standIns_of_leaf leaf]
  · simp [standIns_of_ne_nil leaf, leaf]

theorem sibling_of_mem_standIns (mem : e ∈ standIns p) : e.sibling = p.2 := by
  unfold standIns at mem
  split at mem
  · rw [List.mem_singleton.mp mem]
  · obtain ⟨q, -, rfl⟩ := List.mem_map.mp mem
    rfl

theorem filter_flatMap_standIns {ps : List (Tree × Nat)} (nodup : (ps.map Prod.snd).Nodup)
    (mem : p ∈ ps) : (ps.flatMap standIns).filter (·.sibling == p.2) = standIns p := by
  have own : ∀ q : Tree × Nat, q.2 = p.2 → (standIns q).filter (·.sibling == p.2) = standIns q := by
    intro q same
    rw [List.filter_eq_self]
    intro e mem
    rw [sibling_of_mem_standIns mem, same, beq_self_eq_true]
  have other : ∀ q : Tree × Nat, q.2 ≠ p.2 → (standIns q).filter (·.sibling == p.2) = [] := by
    intro q ne
    rw [List.filter_eq_nil_iff]
    intro e mem
    rwa [sibling_of_mem_standIns mem, beq_iff_eq]
  induction ps with
  | nil => cases mem
  | cons q ps ih =>
    obtain ⟨once, nodup⟩ := List.nodup_cons.mp nodup
    rw [List.flatMap_cons, List.filter_append]
    rcases List.mem_cons.mp mem with rfl | mem
    · have none : (ps.flatMap standIns).filter (·.sibling == p.2) = [] := by
        rw [List.filter_flatMap, List.flatMap_eq_nil_iff]
        intro q mem
        exact other q fun same => once (List.mem_map.mpr ⟨q, mem, same⟩)
      rw [own p rfl, none, List.append_nil]
    · rw [other q fun same => once (List.mem_map.mpr ⟨p, mem, same.symm⟩), ih nodup mem,
        List.nil_append]

/-- What is in the row for a sibling is what the sibling adds to it. -/
theorem filter_cousins (mem : p ∈ siblings.zipIdx) :
    (cousins siblings).filter (·.sibling == p.2) = standIns p := by
  apply filter_flatMap_standIns _ mem
  rw [List.zipIdx_map_snd]
  exact List.nodup_range'

theorem mem_cousins_iff :
    e ∈ cousins siblings ↔ ∃ p ∈ siblings.zipIdx, e ∈ standIns p := by
  rw [cousins_eq, List.mem_flatMap]

/-- The siblings come in the row one after the other. -/
theorem pairwise_cousins (siblings : List Tree) :
    (cousins siblings).Pairwise fun a b => a.sibling ≤ b.sibling := by
  rw [cousins_eq, List.pairwise_flatMap]
  constructor
  · intro p _
    apply List.pairwise_of_forall_mem_list
    intro a mem b mem'
    rw [sibling_of_mem_standIns mem, sibling_of_mem_standIns mem']
  · have rising : (siblings.zipIdx.map Prod.snd).Pairwise (· < ·) := by
      rw [List.zipIdx_map_snd]
      exact List.pairwise_lt_range'
    apply (List.pairwise_map.mp rising).imp
    intro p q less a mem b mem'
    rw [sibling_of_mem_standIns mem, sibling_of_mem_standIns mem']
    exact Nat.le_of_lt less

/-- Elements with the numbers from one up to another are neighbours. -/
theorem filter_zipIdx (xs : List Tree) (k first stop : Nat) :
    (xs.zipIdx k).filter (fun p => k + first ≤ p.2 ∧ p.2 < k + stop) =
      ((xs.zipIdx k).take stop).drop first := by
  induction xs generalizing k first stop with
  | nil => simp
  | cons x xs ih =>
    have later : ∀ p ∈ xs.zipIdx (k + 1), k + 1 ≤ p.2 := fun p => List.le_snd_of_mem_zipIdx
    rw [List.zipIdx_cons]
    cases stop with
    | zero =>
      rw [List.take_zero, List.drop_nil, List.filter_eq_nil_iff]
      intro p _
      rw [decide_eq_true_iff]
      omega
    | succ stop =>
      cases first with
      | zero =>
        rw [List.filter_cons_of_pos (by simp), List.take_succ_cons, List.drop_zero]
        rw [← List.drop_zero (l := (xs.zipIdx (k + 1)).take stop), ← ih]
        congr 1
        apply List.filter_congr
        intro p mem
        have := later p mem
        rw [decide_eq_decide]
        omega
      | succ first =>
        rw [List.filter_cons_of_neg (by simp), List.take_succ_cons, List.drop_succ_cons, ← ih]
        apply List.filter_congr
        intro p _
        rw [decide_eq_decide]
        omega

/-! ### Runs of the row -/

/-- The siblings from the one cousin's to the other's, each with its index. -/
def spanned (siblings : List Tree) (first last : Cousin) : List (Tree × Nat) :=
  (siblings.zipIdx.drop first.sibling).take (last.sibling + 1 - first.sibling)

theorem spanned_eq_filter (siblings : List Tree) (first last : Cousin) :
    spanned siblings first last =
      siblings.zipIdx.filter fun p => first.sibling ≤ p.2 ∧ p.2 ≤ last.sibling := by
  rw [spanned, ← List.drop_take, ← filter_zipIdx]
  apply List.filter_congr
  intro p _
  rw [decide_eq_decide]
  omega

section Run

variable (row : cousins siblings = before ++ run ++ after)

include row

/-- A run has of each sibling neighbours of what the sibling adds to the row. -/
theorem standIns_eq_append (mem : p ∈ siblings.zipIdx) :
    standIns p = before.filter (·.sibling == p.2) ++ run.filter (·.sibling == p.2) ++
      after.filter (·.sibling == p.2) := by
  rw [← filter_cousins mem, row, List.filter_append, List.filter_append]

theorem mem_standIns (mem : p ∈ siblings.zipIdx) (inside : e ∈ run) (own : e.sibling = p.2) :
    e ∈ standIns p := by
  rw [standIns_eq_append row mem, List.mem_append, List.mem_append]
  exact .inl (.inr (List.mem_filter.mpr ⟨inside, beq_iff_eq.mpr own⟩))

/-- The children of a sibling are those in front of the run, those in it and those behind it; the
run has the indices of those in it. -/
theorem children_eq_append (mem : p ∈ siblings.zipIdx) (ne : p.1.children ≠ []) :
    ∃ ahead covered behind, p.1.children = ahead ++ covered ++ behind ∧
      (before.filter (·.sibling == p.2)).map Cousin.tree = ahead ∧
      (run.filter (·.sibling == p.2)).map Cousin.tree = covered ∧
      (after.filter (·.sibling == p.2)).map Cousin.tree = behind ∧
      (run.filter (·.sibling == p.2)).filterMap Cousin.index? =
        List.range' ahead.length covered.length := by
  have parts := standIns_eq_append row mem
  rw [standIns_of_ne_nil ne] at parts
  obtain ⟨front, rear, parts, front_eq, rear_eq⟩ := List.map_eq_append_iff.mp parts
  obtain ⟨front, behind, children, rfl, rfl⟩ := List.zipIdx_eq_append_iff.mp parts
  obtain ⟨start, middle, parts, start_eq, middle_eq⟩ := List.map_eq_append_iff.mp front_eq
  obtain ⟨ahead, covered, rfl, rfl, rfl⟩ := List.zipIdx_eq_append_iff.mp parts
  have trees : ∀ (ts : List Tree) (k : Nat), ((ts.zipIdx k).map fun (child, i) =>
      (⟨p.2, some i, child⟩ : Cousin)).map Cousin.tree = ts := by
    intro ts k
    rw [List.map_map]
    exact List.zipIdx_map_fst k ts
  refine ⟨ahead, covered, behind, children, ?_, ?_, ?_, ?_⟩
  · rw [← start_eq, trees]
  · rw [← middle_eq, trees]
  · rw [← rear_eq, trees]
  · rw [← middle_eq, List.filterMap_map, Nat.zero_add, ← List.zipIdx_map_snd,
      ← List.filterMap_eq_map]
    rfl

variable (head : run.head? = some first) (back : run.getLast? = some last)

include head back

theorem sibling_between (inside : e ∈ run) :
    first.sibling ≤ e.sibling ∧ e.sibling ≤ last.sibling := by
  have rising := pairwise_cousins siblings
  rw [row] at rising
  obtain ⟨-, rising, -⟩ := List.pairwise_append.mp (List.pairwise_append.mp rising).1
  constructor
  · obtain ⟨rest, rfl⟩ := List.head?_eq_some_iff.mp head
    rcases List.mem_cons.mp inside with rfl | inside
    · exact Nat.le_refl _
    · exact (List.pairwise_cons.mp rising).1 e inside
  · obtain ⟨start, rfl⟩ := List.getLast?_eq_some_iff.mp back
    rcases List.mem_append.mp inside with inside | same
    · exact (List.pairwise_append.mp rising).2.2 e inside last (by simp)
    · rw [List.mem_singleton.mp same]

/-- A run touches the siblings from that of its first cousin to that of its last one. -/
theorem touched_iff (mem : p ∈ siblings.zipIdx) :
    (∃ e ∈ run, e.sibling = p.2) ↔ first.sibling ≤ p.2 ∧ p.2 ≤ last.sibling := by
  constructor
  · rintro ⟨e, inside, same⟩
    rw [← same]
    exact sibling_between row head back inside
  · rintro ⟨low, high⟩
    have rising := pairwise_cousins siblings
    rw [row] at rising
    obtain ⟨rising, -, ahead⟩ := List.pairwise_append.mp rising
    obtain ⟨-, -, behind⟩ := List.pairwise_append.mp rising
    have front : first ∈ run := List.mem_of_head? head
    have rear : last ∈ run := List.mem_of_getLast? back
    obtain ⟨e, added⟩ := List.exists_mem_of_ne_nil _ (standIns_ne_nil p)
    have own := sibling_of_mem_standIns added
    have placed : e ∈ before ++ run ++ after := row ▸ mem_cousins_iff.mpr ⟨p, mem, added⟩
    rw [List.mem_append, List.mem_append] at placed
    rcases placed with (inside | inside) | inside
    · have := behind e inside first front
      exact ⟨first, front, by omega⟩
    · exact ⟨e, inside, own⟩
    · have := ahead last (List.mem_append_right _ rear) e inside
      exact ⟨last, rear, by omega⟩

end Run

/-! ### Matches -/

theorem coveredExtent_of_range' {s low count width : Nat} (some : count ≠ 0)
    (covered : (run.filter (·.sibling == s)).filterMap Cousin.index? = List.range' low count) :
    coveredExtent run s width =
      if 0 < low ∨ low + count < width then .span low (low + count) else .whole := by
  have one_less : low + count - 1 + 1 = low + count := by omega
  unfold coveredExtent
  simp only [covered, List.head?_range', List.getLast?_range', if_neg some, one_less]

theorem coveredExtent_of_none {s width : Nat} (none : ∀ e ∈ run, e.sibling = s → e.index? = none) :
    coveredExtent run s width = .whole := by
  have covered : (run.filter (·.sibling == s)).filterMap Cousin.index? = [] := by
    rw [List.filterMap_eq_nil_iff]
    intro e mem
    obtain ⟨inside, same⟩ := List.mem_filter.mp mem
    exact none e inside (beq_iff_eq.mp same)
  simp [coveredExtent, covered]

/-- The match of a run from the one cousin to the other. -/
def spanningMatch (siblings : List Tree) (run : List Cousin) (first last : Cousin) : Match where
  concepts := (spanned siblings first last).map (·.1.handle)
  extents := (spanned siblings first last).map fun p => coveredExtent run p.2 p.1.children.length

theorem spanned_length (first last : Cousin) : (spanned siblings first last).length =
    min (last.sibling + 1 - first.sibling) (siblings.length - first.sibling) := by
  rw [spanned, List.length_take, List.length_drop, List.length_zipIdx]

/-- A run touches more than one sibling if it does not end at the one where it begins. -/
theorem several_iff (row : cousins siblings = before ++ run ++ after)
    (head : run.head? = some first) (back : run.getLast? = some last) :
    2 ≤ (spanningMatch siblings run first last).concepts.length ↔
      first.sibling ≠ last.sibling := by
  have rear : last ∈ run := List.mem_of_getLast? back
  obtain ⟨p, child, added⟩ : ∃ p ∈ siblings.zipIdx, last ∈ standIns p :=
    mem_cousins_iff.mp (by simp [row, rear])
  have within := List.snd_lt_of_mem_zipIdx child
  rw [← sibling_of_mem_standIns added] at within
  have order := (sibling_between row head back rear).1
  rw [spanningMatch, List.length_map, spanned_length]
  omega

theorem mem_spanningMatches {items : List Expansion} {t : Tree} {m : Match} :
    m ∈ spanningMatches items t ↔ ∃ before run after first last,
      cousins t.children = before ++ run ++ after ∧ run.head? = some first ∧
        run.getLast? = some last ∧ first.sibling ≠ last.sibling ∧
        (∃ e ∈ run, e.index? ≠ none) ∧
        Expansion.eachDescribes items (run.map Cousin.tree) = true ∧
        m = spanningMatch t.children run first last := by
  have blocked : ∀ {first last : Cousin} {run : List Cousin},
      (first.sibling == last.sibling || run.all (·.index?.isNone) ||
          !Expansion.eachDescribes items (run.map Cousin.tree)) = false ↔
        first.sibling ≠ last.sibling ∧ (∃ e ∈ run, e.index? ≠ none) ∧
          Expansion.eachDescribes items (run.map Cousin.tree) = true := by
    intro first last run
    simp [and_assoc, Option.ne_none_iff_isSome]
  simp only [spanningMatches, List.mem_filterMap, Option.bind_eq_bind, Option.bind_eq_some_iff]
  constructor
  · rintro ⟨⟨start, run⟩, mem, first, head, last, back, found⟩
    obtain ⟨-, -, before, after, row, -⟩ := mem_windows_iff.mp mem
    split at found
    · cases found
    · next passed =>
      obtain ⟨apart, deep, described⟩ := blocked.mp (Bool.eq_false_iff.mpr passed)
      exact ⟨before, run, after, first, last, row, head, back, apart, deep, described,
        (Option.some.inj found).symm⟩
  · rintro ⟨before, run, after, first, last, row, head, back, apart, deep, described, rfl⟩
    have length := Expansion.length_eq_of_eachDescribes described
    have some : 0 < run.length := List.length_pos_of_mem (List.mem_of_head? head)
    rw [List.length_map] at length
    refine ⟨(before.length, run), ?_, first, head, last, back, ?_⟩
    · exact mem_windows_iff.mpr ⟨length ▸ some, length.symm, before, after, row, rfl⟩
    · exact if_neg (Bool.eq_false_iff.mp (blocked.mpr ⟨apart, deep, described⟩))

end Tree

end ConceptForest
