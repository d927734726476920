import ConceptForest.Proofs.Forest.Cousins
import ConceptForest.Proofs.Forest.Requests

/-!
Which parts of concepts a search finds.

`FoundAt` tells what there is to be found at a concept: the concept as a whole, proper runs of its
children, and runs that go over from one of its children into others.

* `mem_matchesHere_iff` — what is found at one concept.
* `exists_parts`, `parts_exact` — a search finds all that there is, nothing else, and nothing twice.
-/

namespace ConceptForest

/-- The items are one of the sequences that the expansion offers at its top. -/
inductive Expansion.Offers (items : List Expansion) : Expansion → Prop where
  | sequence : Offers items (.sequence items)
  | choice {e : Expansion} {es : List Expansion} (mem : e ∈ es) (offers : Offers items e) :
    Offers items (.choice es)

namespace Expansion

theorem topSequencesOfAny_eq_flatMap (es : List Expansion) :
    topSequencesOfAny es = es.flatMap topSequences := by
  induction es with
  | nil => rfl
  | cons e es ih => simp [topSequencesOfAny, ih]

theorem offers_of_mem_topSequences {items : List Expansion} :
    (e : Expansion) → items ∈ e.topSequences → Offers items e
  | leaf _, mem => by cases mem
  | sequence es, mem => by
    obtain rfl := List.mem_singleton.mp mem
    exact .sequence
  | choice es, mem => by
    rw [topSequences, topSequencesOfAny_eq_flatMap] at mem
    obtain ⟨e, alternative, mem⟩ := List.mem_flatMap.mp mem
    exact .choice alternative (offers_of_mem_topSequences e mem)

theorem mem_topSequences_iff {items : List Expansion} {e : Expansion} :
    items ∈ e.topSequences ↔ Offers items e := by
  refine ⟨offers_of_mem_topSequences e, fun offers => ?_⟩
  induction offers with
  | sequence => simp [topSequences]
  | choice alternative _ ih =>
    rw [topSequences, topSequencesOfAny_eq_flatMap]
    exact List.mem_flatMap.mpr ⟨_, alternative, ih⟩

end Expansion

namespace Forest

variable {f : Forest} {h c s : Handle} {t : Tree} {e : Expansion} {items : List Expansion}
  {m : Match} {run : List Handle}

/-! ### What there is to be found -/

/-- The items describe the concepts, position by position. -/
def DescribesEach (f : Forest) (items : List Expansion) (run : List Handle) : Prop :=
  List.Forall₂ (fun e h => f.isDescribed e h = true) items run

/-- What stands for a concept in a row of its generation: its children, or itself if it has none. -/
def standIns (f : Forest) (s : Handle) : List Handle :=
  if f.childrenOf s = [] then [s] else f.childrenOf s

/-- The children of a concept in a row, with the children of each in its place. -/
def row (f : Forest) (c : Handle) : List Handle :=
  (f.childrenOf c).flatMap f.standIns

/-- Has the run some of what stands for the concept? -/
def touches (f : Forest) (run : List Handle) (s : Handle) : Bool :=
  (f.standIns s).any (· ∈ run)

/-- The part of a concept that a run has: all if it has all its children, which is so if there are
none, and otherwise the children that it has. -/
inductive Covers (f : Forest) (run : List Handle) (s : Handle) : Extent → Prop where
  | whole (all : ∀ x ∈ f.childrenOf s, x ∈ run) : Covers f run s .whole
  | span {before inside after : List Handle} (children : f.childrenOf s = before ++ inside ++ after)
    (some : inside ≠ []) (covered : ∀ x ∈ inside, x ∈ run) (rest : ∀ x ∈ before ++ after, x ∉ run)
    (proper : before ++ after ≠ []) :
    Covers f run s (.span before.length (before.length + inside.length))

/-- The match is that of a run in the row under a concept: the items describe the run, it has some
of at least two children and some grandchild, and the match has the children of which it has some,
each as far as the run has it. -/
structure Spans (f : Forest) (items : List Expansion) (c : Handle) (run : List Handle) (m : Match) :
    Prop where
  neighbours : run <:+: f.row c
  described : f.DescribesEach items run
  several : 2 ≤ m.concepts.length
  deep : ∃ x ∈ run, x ∉ f.childrenOf c
  concepts : m.concepts = (f.childrenOf c).filter (f.touches run)
  extents : List.Forall₂ (f.Covers run) m.concepts m.extents

/-- What an expansion finds at a concept: the concept as a whole, a proper run of its children, or
a run in the row under it. -/
inductive FoundAt (f : Forest) (e : Expansion) (c : Handle) : Match → Prop where
  | whole (described : f.isDescribed e c = true) : FoundAt f e c (.whole c)
  | window {items : List Expansion} {before run after : List Handle} (offers : e.Offers items)
    (some : 0 < items.length) (proper : items.length < (f.childrenOf c).length)
    (children : f.childrenOf c = before ++ run ++ after) (described : f.DescribesEach items run) :
    FoundAt f e c ⟨[c], [.span before.length (before.length + items.length)]⟩
  | spanning {items : List Expansion} {run : List Handle} {m : Match} (offers : e.Offers items)
    (spans : f.Spans items c run m) : FoundAt f e c m

/-! ### Parts of a concept -/

/-- Where the covered part of a list is tells where it begins and how long it is. -/
theorem length_eq_findIdx_and_countP {before inside after : List Handle} (some : inside ≠ [])
    (covered : ∀ x ∈ inside, x ∈ run) (rest : ∀ x ∈ before ++ after, x ∉ run) :
    before.length = (before ++ inside ++ after).findIdx (· ∈ run) ∧
      inside.length = (before ++ inside ++ after).countP (· ∈ run) := by
  rw [List.forall_mem_append] at rest
  constructor
  · have none : before.findIdx (· ∈ run) = before.length :=
      List.findIdx_eq_length_of_false (by simpa using rest.1)
    obtain ⟨x, inside, rfl⟩ := List.exists_cons_of_ne_nil some
    obtain ⟨first, -⟩ := List.forall_mem_cons.mp covered
    rw [List.append_assoc, List.findIdx_append, none, if_neg (Nat.lt_irrefl _), List.cons_append,
      List.findIdx_cons]
    simp [first]
  · have all := List.countP_eq_length.mpr fun x mem => decide_eq_true (covered x mem)
    have ahead : before.countP (· ∈ run) = 0 := by simpa using rest.1
    have behind : after.countP (· ∈ run) = 0 := by simpa using rest.2
    rw [List.countP_append, List.countP_append, ahead, behind, all]
    simp

/-- A run has one part of a concept. -/
theorem Covers.eq {a b : Extent} (one : f.Covers run s a) (other : f.Covers run s b) : a = b := by
  have partly : ∀ {before inside after : List Handle},
      f.childrenOf s = before ++ inside ++ after → (∀ x ∈ before ++ after, x ∉ run) →
      before ++ after ≠ [] → ¬ ∀ x ∈ f.childrenOf s, x ∈ run := by
    intro before inside after children rest proper all
    obtain ⟨x, mem⟩ := List.exists_mem_of_ne_nil _ proper
    apply rest x mem (all x _)
    rw [children]
    rcases List.mem_append.mp mem with mem | mem <;> simp [mem]
  cases one with
  | whole all =>
    cases other with
    | whole _ => rfl
    | span children _ _ rest proper => exact absurd all (partly children rest proper)
  | span children some covered rest proper =>
    cases other with
    | whole all => exact absurd all (partly children rest proper)
    | span children' some' covered' rest' _ =>
      have one := length_eq_findIdx_and_countP some covered rest
      have other := length_eq_findIdx_and_countP some' covered' rest'
      rw [one.1, one.2, other.1, other.2, ← children, ← children']

/-- What a run has of the children of a concept, put as far as it goes. -/
theorem covers_of_append {before inside after : List Handle}
    (children : f.childrenOf s = before ++ inside ++ after) (some : inside ≠ [])
    (covered : ∀ x ∈ inside, x ∈ run) (rest : ∀ x ∈ before ++ after, x ∉ run) :
    f.Covers run s
      (if 0 < before.length ∨ before.length + inside.length < (f.childrenOf s).length then
        .span before.length (before.length + inside.length)
      else .whole) := by
  rw [children, List.length_append, List.length_append]
  split
  · next part =>
    apply Covers.span children some covered rest
    apply List.ne_nil_of_length_pos
    rw [List.length_append]
    omega
  · next all =>
    have none : before = [] := List.eq_nil_of_length_eq_zero (by omega)
    have none' : after = [] := List.eq_nil_of_length_eq_zero (by omega)
    apply Covers.whole
    simpa [children, none, none'] using covered

/-! ### The row -/

theorem eq_or_parent?_of_mem_standIns (wf : f.WellFormed) {x : Handle} (mem : x ∈ f.standIns s) :
    x = s ∨ f.parent? x = some s := by
  unfold standIns at mem
  split at mem
  · exact .inl (List.mem_singleton.mp mem)
  · exact .inr (wf.mem_childrenOf.mp mem)

/-- Nothing in the row is in it twice. -/
theorem nodup_row (wf : f.WellFormed) (c : Handle) : (f.row c).Nodup := by
  have apart : ∀ {a b x : Handle}, a ∈ f.childrenOf c → b ∈ f.childrenOf c → x ∈ f.standIns a →
      x ∈ f.standIns b → a = b := by
    intro a b x child child' left right
    rw [wf.mem_childrenOf] at child child'
    have loop := wf.not_owns_self c
    rcases eq_or_parent?_of_mem_standIns wf left with rfl | owned
    · rcases eq_or_parent?_of_mem_standIns wf right with same | owned
      · exact same
      · obtain rfl := Option.some.inj (owned.symm.trans child)
        exact absurd (owns_of_parent? child') loop
    · rcases eq_or_parent?_of_mem_standIns wf right with rfl | owned'
      · obtain rfl := Option.some.inj (owned.symm.trans child')
        exact absurd (owns_of_parent? child) loop
      · exact Option.some.inj (owned.symm.trans owned')
  rw [row, List.nodup_flatMap]
  constructor
  · intro s _
    unfold standIns
    split
    · exact List.nodup_singleton s
    · exact wf.nodup_childrenOf s
  · apply (wf.nodup_childrenOf c).imp_of_mem
    intro a b child child' ne x left right
    exact ne (apart child child' left right)

theorem map_handle_zipIdx (shows : f.Shows t) :
    t.children.zipIdx.map (·.1.handle) = f.childrenOf t.handle := by
  rw [← shows.map_handle_children]
  conv_rhs => rw [← List.zipIdx_map_fst 0 t.children, List.map_map]
  rfl

theorem map_standIns (shows : f.Shows t) (i : Nat) :
    (Tree.standIns (t, i)).map (·.tree.handle) = f.standIns t.handle := by
  have children := shows.map_handle_children
  by_cases leaf : t.children = []
  · have none : f.childrenOf t.handle = [] := by rw [← children, leaf, List.map_nil]
    rw [Tree.standIns_of_leaf leaf, standIns, if_pos none, List.map_singleton]
  · have some : f.childrenOf t.handle ≠ [] := by simpa [← children] using leaf
    rw [Tree.standIns_of_ne_nil leaf, standIns, if_neg some, ← map_handle_zipIdx shows,
      List.map_map]
    rfl

/-- The cousins in a tree are what stands in the row under the concept at its top. -/
theorem map_cousins (shows : f.Shows t) :
    (Tree.cousins t.children).map (·.tree.handle) = f.row t.handle := by
  have each : ∀ p ∈ t.children.zipIdx,
      (Tree.standIns p).map (·.tree.handle) = f.standIns p.1.handle := by
    intro p mem
    exact map_standIns (shows.of_mem_children (List.fst_mem_of_mem_zipIdx mem)) p.2
  rw [Tree.cousins_eq, List.map_flatMap, List.flatMap_congr each, row, ← map_handle_zipIdx shows,
    List.flatMap_map]

theorem describesEach_iff (wf : f.WellFormed) {ts : List Tree} (shown : ∀ t ∈ ts, f.Shows t) :
    f.DescribesEach items (ts.map Tree.handle) ↔ Expansion.eachDescribes items ts = true := by
  rw [DescribesEach, Expansion.eachDescribes_iff, List.forall₂_map_right_iff]
  induction ts generalizing items with
  | nil => simp
  | cons t ts ih =>
    obtain ⟨first, rest⟩ := List.forall_mem_cons.mp shown
    cases items with
    | nil => simp
    | cons e items => simp [first.isDescribed wf, ih rest]

theorem shows_of_mem_cousins (shows : f.Shows t) {x : Tree.Cousin}
    (mem : x ∈ Tree.cousins t.children) : f.Shows x.tree := by
  obtain ⟨p, child, added⟩ := Tree.mem_cousins_iff.mp mem
  have shown := shows.of_mem_children (List.fst_mem_of_mem_zipIdx child)
  unfold Tree.standIns at added
  split at added
  · rwa [List.mem_singleton.mp added]
  · obtain ⟨q, below, rfl⟩ := List.mem_map.mp added
    exact shown.of_mem_children (List.fst_mem_of_mem_zipIdx below)

section Run

variable {before after covered : List Tree.Cousin} {first last : Tree.Cousin} {p : Tree × Nat}
  (wf : f.WellFormed) (shows : f.Shows t)

include wf shows

/-- What stands in the row for itself are the children without children. -/
theorem index?_eq_none_iff {x : Tree.Cousin} (mem : x ∈ Tree.cousins t.children) :
    x.index? = none ↔ x.tree.handle ∈ f.childrenOf t.handle := by
  obtain ⟨p, child, added⟩ := Tree.mem_cousins_iff.mp mem
  have inside := List.fst_mem_of_mem_zipIdx child
  have owned := shows.parent?_of_mem_children wf inside
  unfold Tree.standIns at added
  split at added
  · obtain rfl := List.mem_singleton.mp added
    simpa using wf.mem_childrenOf.mpr owned
  · obtain ⟨q, below, rfl⟩ := List.mem_map.mp added
    have grandchild := (shows.of_mem_children inside).parent?_of_mem_children wf
      (List.fst_mem_of_mem_zipIdx below)
    simp only [reduceCtorEq, false_iff]
    intro mem
    have same := (wf.mem_childrenOf.mp mem).symm.trans grandchild
    rw [← Option.some.inj same] at owned
    exact wf.not_owns_self _ (owns_of_parent? owned)

variable (row : Tree.cousins t.children = before ++ covered ++ after)

include row

theorem touches_iff (mem : p ∈ t.children.zipIdx) :
    f.touches (covered.map (·.tree.handle)) p.1.handle = true ↔ ∃ x ∈ covered, x.sibling = p.2 := by
  have shown := shows.of_mem_children (List.fst_mem_of_mem_zipIdx mem)
  have nodup := nodup_row wf t.handle
  rw [← map_cousins shows] at nodup
  simp only [touches, List.any_eq_true, decide_eq_true_eq, ← map_standIns shown p.2]
  constructor
  · rintro ⟨_, stands, inside⟩
    obtain ⟨x, added, rfl⟩ := List.mem_map.mp stands
    obtain ⟨y, met, same⟩ := List.mem_map.mp inside
    have left : x ∈ Tree.cousins t.children := Tree.mem_cousins_iff.mpr ⟨p, mem, added⟩
    have right : y ∈ Tree.cousins t.children := by simp [row, met]
    obtain rfl := List.inj_on_of_nodup_map nodup right left same
    exact ⟨y, met, Tree.sibling_of_mem_standIns added⟩
  · rintro ⟨x, inside, own⟩
    have added := Tree.mem_standIns row mem inside own
    exact ⟨_, List.mem_map.mpr ⟨x, added, rfl⟩, List.mem_map.mpr ⟨x, inside, rfl⟩⟩

theorem covers_coveredExtent (mem : p ∈ t.children.zipIdx)
    (touched : ∃ x ∈ covered, x.sibling = p.2) :
    f.Covers (covered.map (·.tree.handle)) p.1.handle
      (Tree.coveredExtent covered p.2 p.1.children.length) := by
  have shown := shows.of_mem_children (List.fst_mem_of_mem_zipIdx mem)
  have children := shown.map_handle_children
  by_cases leaf : p.1.children = []
  · rw [Tree.coveredExtent_of_none]
    · apply Covers.whole
      rw [← children, leaf]
      simp
    · intro x inside own
      have added := Tree.mem_standIns row mem inside own
      rw [Tree.standIns_of_leaf leaf, List.mem_singleton] at added
      rw [added]
  · obtain ⟨front, middle, rear, whole, front_eq, middle_eq, rear_eq, indices⟩ :=
      Tree.children_eq_append row mem leaf
    have some : middle ≠ [] := by
      obtain ⟨x, inside, own⟩ := touched
      have kept : x ∈ covered.filter (·.sibling == p.2) :=
        List.mem_filter.mpr ⟨inside, beq_iff_eq.mpr own⟩
      rw [← middle_eq]
      exact List.ne_nil_of_mem (List.mem_map.mpr ⟨x, kept, rfl⟩)
    have had : ∀ x ∈ middle.map Tree.handle, x ∈ covered.map (·.tree.handle) := by
      rw [← middle_eq, List.map_map]
      exact (List.filter_sublist.map _).subset
    -- what the run has not is in front of it or behind it in the row
    have rest : ∀ x ∈ front.map Tree.handle ++ rear.map Tree.handle,
        x ∉ covered.map (·.tree.handle) := by
      have nodup := nodup_row wf t.handle
      rw [← map_cousins shows, row, List.map_append, List.map_append] at nodup
      obtain ⟨nodup, -, behind⟩ := List.nodup_append.mp nodup
      obtain ⟨-, -, ahead⟩ := List.nodup_append.mp nodup
      rw [← front_eq, ← rear_eq, List.map_map, List.map_map]
      intro x outside inside
      rcases List.mem_append.mp outside with outside | outside
      · exact ahead x ((List.filter_sublist.map _).subset outside) x inside rfl
      · exact behind x (List.mem_append_right _ inside) x
          ((List.filter_sublist.map _).subset outside) rfl
    have parts : f.childrenOf p.1.handle =
        front.map Tree.handle ++ middle.map Tree.handle ++ rear.map Tree.handle := by
      rw [← children, whole, List.map_append, List.map_append]
    have covers := covers_of_append parts (by simpa using some) had rest
    rw [Tree.coveredExtent_of_range' (mt List.length_eq_zero_iff.mp some) indices]
    simpa only [← children, List.length_map] using covers

theorem deep_iff : (∃ x ∈ covered.map (·.tree.handle), x ∉ f.childrenOf t.handle) ↔
    ∃ x ∈ covered, x.index? ≠ none := by
  simp only [List.mem_map, exists_exists_and_eq_and]
  apply exists_congr
  intro x
  apply and_congr_right
  intro mem
  exact not_congr (index?_eq_none_iff wf shows (by simp [row, mem])).symm

theorem describesEach_map_iff : f.DescribesEach items (covered.map (·.tree.handle)) ↔
    Expansion.eachDescribes items (covered.map Tree.Cousin.tree) = true := by
  rw [← describesEach_iff wf, List.map_map]
  · rfl
  · intro s mem
    obtain ⟨x, inside, rfl⟩ := List.mem_map.mp mem
    exact shows_of_mem_cousins shows (by simp [row, inside])

variable (head : covered.head? = some first) (back : covered.getLast? = some last)

include head back

/-- The match of a run has what the run touches, each as far as the run covers it. -/
theorem concepts_spanningMatch :
    (Tree.spanningMatch t.children covered first last).concepts =
      (f.childrenOf t.handle).filter (f.touches (covered.map (·.tree.handle))) := by
  simp only [Tree.spanningMatch, Tree.spanned_eq_filter, ← map_handle_zipIdx shows, List.filter_map]
  congr 1
  apply List.filter_congr
  intro p mem
  rw [Bool.eq_iff_iff, decide_eq_true_iff, Function.comp_apply, touches_iff wf shows row mem,
    Tree.touched_iff row head back mem]

theorem extents_spanningMatch :
    List.Forall₂ (f.Covers (covered.map (·.tree.handle)))
      (Tree.spanningMatch t.children covered first last).concepts
      (Tree.spanningMatch t.children covered first last).extents := by
  rw [Tree.spanningMatch, List.forall₂_map_left_iff, List.forall₂_map_right_iff, List.forall₂_same]
  intro p mem
  rw [Tree.spanned_eq_filter, List.mem_filter, decide_eq_true_iff] at mem
  exact covers_coveredExtent wf shows row mem.1
    ((Tree.touched_iff row head back mem.1).mpr mem.2)

/-- There is one match of a run. -/
theorem Spans.eq_spanningMatch {m : Match}
    (spans : f.Spans items t.handle (covered.map (·.tree.handle)) m) :
    m = Tree.spanningMatch t.children covered first last := by
  have concepts := concepts_spanningMatch wf shows row head back
  have extents := extents_spanningMatch wf shows row head back
  rw [← spans.concepts] at concepts
  rw [concepts] at extents
  have functional : Relator.RightUnique (f.Covers (covered.map (·.tree.handle))) :=
    fun _ _ _ => Covers.eq
  have extents := List.right_unique_forall₂' functional extents spans.extents
  cases m
  exact congrArg₂ Match.mk concepts.symm extents.symm

end Run

/-! ### What is found -/

/-- The spanning search finds the matches of runs in the row. -/
theorem mem_spanningMatches_iff (wf : f.WellFormed) (shows : f.Shows t) :
    m ∈ Tree.spanningMatches items t ↔ ∃ run, f.Spans items t.handle run m := by
  rw [Tree.mem_spanningMatches]
  constructor
  · rintro ⟨before, covered, after, first, last, row, head, back, apart, inner, described, rfl⟩
    refine ⟨covered.map (·.tree.handle), ⟨?_, ?_, ?_, ?_, ?_, ?_⟩⟩
    · refine ⟨before.map (·.tree.handle), after.map (·.tree.handle), ?_⟩
      rw [← map_cousins shows, row, List.map_append, List.map_append]
    · exact (describesEach_map_iff wf shows row).mpr described
    · exact (Tree.several_iff row head back).mpr apart
    · exact (deep_iff wf shows row).mpr inner
    · exact concepts_spanningMatch wf shows row head back
    · exact extents_spanningMatch wf shows row head back
  · rintro ⟨run, spans⟩
    obtain ⟨start, rest, whole⟩ := spans.neighbours
    rw [← map_cousins shows] at whole
    obtain ⟨front, after, row, front_eq, rfl⟩ := List.map_eq_append_iff.mp whole.symm
    obtain ⟨before, covered, rfl, rfl, rfl⟩ := List.map_eq_append_iff.mp front_eq
    obtain ⟨x, mem, inner⟩ := (deep_iff wf shows row).mp spans.deep
    have head := List.head?_eq_some_head (List.ne_nil_of_mem mem)
    have back := List.getLast?_eq_some_getLast (List.ne_nil_of_mem mem)
    obtain rfl := spans.eq_spanningMatch wf shows row head back
    exact ⟨before, covered, after, _, _, row, head, back,
      (Tree.several_iff row head back).mp spans.several, ⟨x, mem, inner⟩,
      (describesEach_map_iff wf shows row).mp spans.described, rfl⟩

/-- The children that a run touches are neighbours. -/
theorem Spans.concepts_infix (wf : f.WellFormed) (shows : f.Shows t)
    (spans : f.Spans items t.handle run m) : m.concepts <:+: f.childrenOf t.handle := by
  obtain ⟨_, _, _, first, last, -, -, -, -, -, -, rfl⟩ :=
    Tree.mem_spanningMatches.mp ((mem_spanningMatches_iff wf shows).mpr ⟨run, spans⟩)
  have slice : Tree.spanned t.children first last <:+: t.children.zipIdx :=
    (List.take_prefix _ _).isInfix.trans (List.drop_suffix _ _).isInfix
  rw [← map_handle_zipIdx shows]
  exact slice.map _

/-- The window search finds the proper runs of children. -/
theorem mem_windowMatches_iff (wf : f.WellFormed) (shows : f.Shows t) :
    m ∈ Tree.windowMatches items t ↔ ∃ before run after,
      f.childrenOf t.handle = before ++ run ++ after ∧ 0 < items.length ∧
        items.length < (f.childrenOf t.handle).length ∧ f.DescribesEach items run ∧
        m = ⟨[t.handle], [.span before.length (before.length + items.length)]⟩ := by
  have children := shows.map_handle_children
  have shown : ∀ s ∈ t.children, f.Shows s := fun s => shows.of_mem_children
  rw [← children, List.length_map]
  unfold Tree.windowMatches
  constructor
  · intro mem
    split at mem
    · next proper =>
      obtain ⟨⟨start, run⟩, window, found⟩ := List.mem_filterMap.mp mem
      obtain ⟨some, -, before, after, parts, rfl⟩ := mem_windows_iff.mp window
      dsimp only at found
      split at found
      · next described =>
        rw [parts, List.forall_mem_append, List.forall_mem_append] at shown
        obtain rfl := Option.some.inj found
        refine ⟨before.map Tree.handle, run.map Tree.handle, after.map Tree.handle, ?_, some,
          proper, (describesEach_iff wf shown.1.2).mpr described, ?_⟩
        · rw [parts, List.map_append, List.map_append]
        · rw [List.length_map]
      · cases found
    · cases mem
  · rintro ⟨before, run, after, whole, some, proper, described, rfl⟩
    obtain ⟨front, behind, parts, front_eq, rfl⟩ := List.map_eq_append_iff.mp whole
    obtain ⟨ahead, covered, rfl, rfl, rfl⟩ := List.map_eq_append_iff.mp front_eq
    rw [parts, List.forall_mem_append, List.forall_mem_append] at shown
    have described := (describesEach_iff wf shown.1.2).mp described
    have length := Expansion.length_eq_of_eachDescribes described
    rw [if_pos proper, List.mem_filterMap]
    refine ⟨(ahead.length, covered), ?_, ?_⟩
    · exact mem_windows_iff.mpr ⟨some, length.symm, ahead, behind, parts, rfl⟩
    · simp [described]

/-- What is found at the top of a tree is what there is to be found at the concept there. -/
theorem mem_matchesHere_iff (wf : f.WellFormed) (shows : f.Shows t) :
    m ∈ Tree.matchesHere e t ↔ f.FoundAt e t.handle m := by
  have whole : (m ∈ if f.isDescribed e t.handle then [Match.whole t.handle] else []) ↔
      f.isDescribed e t.handle = true ∧ m = .whole t.handle := by
    split <;> simp [*]
  simp only [Tree.matchesHere, List.mem_append, List.mem_flatMap, Expansion.mem_topSequences_iff,
    mem_windowMatches_iff wf shows, mem_spanningMatches_iff wf shows, whole,
    ← shows.isDescribed wf]
  constructor
  · rintro (⟨described, rfl⟩ | ⟨items, offers, window | ⟨run, spans⟩⟩)
    · exact .whole described
    · obtain ⟨before, run, after, children, some, proper, described, rfl⟩ := window
      exact .window offers some proper children described
    · exact .spanning offers spans
  · rintro (described | ⟨offers, some, proper, children, described⟩ | ⟨offers, spans⟩)
    · exact .inl ⟨described, rfl⟩
    · exact .inr ⟨_, offers, .inl ⟨_, _, _, children, some, proper, described, rfl⟩⟩
    · exact .inr ⟨_, offers, .inr ⟨_, spans⟩⟩

theorem contains_of_parts {ms : List Match} (found : f.parts e h = .ok ms) :
    f.contains h = true := by
  obtain ⟨trees, searched, -⟩ := bind_eq_ok_iff.mp found
  rw [Forest.searched, if_neg (by simp), bind_eq_ok_iff] at searched
  obtain ⟨t, tree, -⟩ := searched
  obtain ⟨shows, rfl⟩ := shows_of_tree tree
  exact shows.contains

/-- In a well-formed forest a search under a live concept finds, each once, what there is to be
found at the concept and at those that it owns. -/
theorem exists_parts (wf : f.WellFormed) (e : Expansion) (live : f.contains h = true) :
    ∃ ms, f.parts e h = .ok ms ∧ ms.Nodup ∧
      ∀ m, m ∈ ms ↔ ∃ c, (c = h ∨ f.Owns h c) ∧ f.FoundAt e c m := by
  obtain ⟨t, found, shows, rfl⟩ := exists_tree wf live
  have searched : f.searched [] [t.handle] = .ok [t] := by
    simp [Forest.searched, found]
  have reached : Tree.reachableAll [] [t] = t.subtrees := by
    rw [Tree.reachableAll_nil, Tree.subtreesAll_eq_flatMap, List.flatMap_singleton]
  refine ⟨(t.subtrees.flatMap (Tree.matchesHere e)).eraseDups, ?_, nodup_eraseDups _, ?_⟩
  · rw [parts, resolveParts, searched, ok_bind, reached]
    rfl
  · intro m
    rw [List.mem_eraseDups, List.mem_flatMap]
    constructor
    · rintro ⟨s, mem, here⟩
      rw [← Tree.reachable_nil] at mem
      obtain ⟨shown, below⟩ := shows.of_mem_reachable wf mem
      exact ⟨s.handle, below, (mem_matchesHere_iff wf shown).mp here⟩
    · rintro ⟨c, below, here⟩
      obtain ⟨s, mem, rfl⟩ := List.mem_map.mp ((shows.mem_handles_iff wf).mpr below)
      have shown := (shows.of_mem_reachable wf (Tree.reachable_nil t ▸ mem)).1
      exact ⟨s, mem, (mem_matchesHere_iff wf shown).mpr here⟩

/-- All about the search for parts under a live concept, in a forest that requests have made of the
empty one. It finds what there is to be found at the concept and at those that it owns, nothing
else, and nothing twice. -/
theorem parts_exact (requests : List Request) (e : Expansion) (r : Handle)
    (live : (({} : Forest).afterAll requests).contains r = true) :
    let f := ({} : Forest).afterAll requests
    ∃ ms, f.parts e r = .ok ms ∧ ms.Nodup ∧
      ∀ m, m ∈ ms ↔ ∃ c, (c = r ∨ f.Owns r c) ∧ f.FoundAt e c m := by
  intro f
  have wf : f.WellFormed := (evolves_afterAll wellFormed_empty requests).wellFormed
  exact exists_parts wf e live

/-- The two items describe the end of a statement and the whole of the next one. -/
theorem parts_exact_neighbours :
    let symbol (text : String) (parent : Handle) : Request := .create
      { kind := .symbol, parent := some parent, representations := [⟨text, .inputMorphism⟩] }
    let f := ({} : Forest).afterAll [.create { kind := .root },
      .create { kind := .statement, parent := some 0 }, symbol "a" 1, symbol "b" 1,
      .create { kind := .statement, parent := some 0 }, symbol "c" 4]
    let e : Expansion := .sequence [.leaf "b", .leaf "c"]
    f.contains 0 = true ∧ ∃ ms, f.parts e 0 = .ok ms ∧ ms.Nodup ∧ ⟨[1, 4], [.span 1 2, .whole]⟩ ∈ ms ∧
      ∀ m, m ∈ ms ↔ ∃ c, (c = 0 ∨ f.Owns 0 c) ∧ f.FoundAt e c m := by
  intro symbol f e
  have live : f.contains 0 = true := by decide +kernel
  have spanning : (f.parts e 0).toOption = some [⟨[1, 4], [.span 1 2, .whole]⟩] := by
    decide +kernel
  obtain ⟨ms, found, nodup, exact⟩ := parts_exact _ e 0 live
  rw [found] at spanning
  obtain rfl := Option.some.inj spanning
  exact ⟨live, _, found, nodup, List.mem_singleton_self _, exact⟩

end Forest

end ConceptForest
