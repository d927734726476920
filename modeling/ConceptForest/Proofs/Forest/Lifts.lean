import ConceptForest.Proofs.Forest.Grouping
import ConceptForest.Proofs.Forest.Lineage
import ConceptForest.Proofs.Forest.Requests

/-!
When a match can be lifted, and what becomes of the forest.

* `exists_plan`, `planned_place` — concepts can become one exactly if they are apart from one
  another and one concept owns them all; the new one stands where the first child of their nearest
  common owner stood that was, or held, one of them.
* `lift_granted_or_refused` — a lift is granted for a liftable match, and any other is refused.
* `lift_exact` — all about lifts of forests that requests have made of the empty one.
-/

namespace ConceptForest

namespace Forest

variable {f g : Forest} {h owner : Handle} {hs members : List Handle} {plan : LiftPlan}

/-! ### Concepts that can become one -/

/-- The concepts are apart from one another, and one concept owns them all. -/
structure Gatherable (f : Forest) (hs : List Handle) : Prop where
  nodup : hs.Nodup
  apart : ∀ a ∈ hs, ∀ b ∈ hs, ¬ f.Owns a b
  shared : ∃ owner, ∀ h ∈ hs, f.Owns owner h

theorem nested?_eq_none_iff (wf : f.WellFormed) :
    f.nested? hs = none ↔ ∀ a ∈ hs, ∀ b ∈ hs, ¬ f.Owns a b := by
  simp only [nested?, List.findSome?_eq_none_iff, Option.map_eq_none_iff, List.find?_eq_none,
    Bool.and_eq_true, isAncestor_iff wf, bne_iff_ne, not_and]
  constructor
  · intro none a mem b mem' owns
    apply none a mem b mem' _ owns
    rintro rfl
    exact wf.not_owns_self a owns
  · intro apart a mem b mem' _
    exact apart a mem b mem'

/-- Whatever owns all the concepts is on the way that they have in common. -/
theorem lineage_prefix_commonStartAll (wf : f.WellFormed) (nonempty : hs ≠ [])
    (owns : ∀ h ∈ hs, f.Owns owner h) :
    f.lineage owner <+: commonStartAll (hs.map f.chain) := by
  apply prefix_commonStartAll
  · simpa using nonempty
  · intro chain mem
    obtain ⟨h, member, rfl⟩ := List.mem_map.mp mem
    exact lineage_prefix_chain wf (owns h member)

/-- The child of the owner that is a concept below it, or holds it. -/
def branch (f : Forest) (owner h : Handle) : Handle :=
  ((f.chain h)[(f.lineage owner).length]?).getD h

/-- The way down to a concept goes on behind an owner, at the latest with the concept itself. -/
theorem exists_lineage_eq (wf : f.WellFormed) (owns : f.Owns owner h) :
    ∃ below, f.lineage h = f.lineage owner ++ f.branch owner h :: below := by
  obtain ⟨rest, whole⟩ := lineage_prefix_chain wf owns
  rw [lineage, branch, ← whole]
  cases rest with
  | nil => exact ⟨[], by simp⟩
  | cons x rest => exact ⟨rest ++ [h], by simp⟩

theorem branch_spec (wf : f.WellFormed) (owns : f.Owns owner h) :
    f.parent? (f.branch owner h) = some owner ∧
      (f.branch owner h = h ∨ f.Owns (f.branch owner h) h) := by
  obtain ⟨below, whole⟩ := exists_lineage_eq wf owns
  have mem : f.branch owner h ∈ f.lineage h := by simp [whole]
  have start : f.lineage owner ++ [f.branch owner h] <+: f.lineage h := ⟨below, by simp [whole]⟩
  have down : f.lineage owner ++ [f.branch owner h] = f.lineage (f.branch owner h) :=
    eq_lineage_of_prefix wf start List.getLast?_concat
  refine ⟨?_, (mem_lineage_iff wf).mp mem⟩
  cases owned : f.parent? (f.branch owner h) with
  | none =>
    have length := congrArg List.length down
    simp [lineage, chain_of_root owned] at length
  | some p =>
    rw [lineage_of_parent? wf owned, List.append_left_inj] at down
    have last := congrArg List.getLast? down
    simpa [lineage, eq_comm] using last

/-- No other child of the owner is the concept or holds it. -/
theorem eq_branch (wf : f.WellFormed) {x : Handle} (owned : f.parent? x = some owner)
    (above : x = h ∨ f.Owns x h) : x = f.branch owner h := by
  have owns : f.Owns owner h := by
    rcases above with rfl | owns
    · exact owns_of_parent? owned
    · exact (owns_of_parent? owned).trans owns
  obtain ⟨below, whole⟩ := exists_lineage_eq wf owns
  have start := (lineage_prefix_iff wf).mpr above
  rw [lineage_of_parent? wf owned, whole, List.prefix_append_right_inj, List.cons_prefix_cons]
    at start
  exact start.1

/-! ### Plans -/

theorem exists_plan (wf : f.WellFormed) (nonempty : hs ≠ []) (gatherable : f.Gatherable hs) :
    ∃ plan, f.liftPlan hs = .ok plan := by
  obtain ⟨top, owns⟩ := gatherable.shared
  obtain ⟨h, mem⟩ := List.exists_mem_of_ne_nil hs nonempty
  have distinct : checkDistinct [] hs = .ok () :=
    checkDistinct_iff.mpr ⟨gatherable.nodup, by simp⟩
  have apart := (nested?_eq_none_iff wf).mpr gatherable.apart
  have start := lineage_prefix_commonStartAll wf nonempty owns
  have ne : commonStartAll (hs.map f.chain) ≠ [] := by
    intro none
    rw [none, List.prefix_nil] at start
    simp [lineage] at start
  obtain ⟨owner, last⟩ : ∃ owner, (commonStartAll (hs.map f.chain)).getLast? = some owner :=
    ⟨_, List.getLast?_eq_some_getLast ne⟩
  have shared := commonStartAll_eq_lineage wf mem last
  have owns := owns_of_last_commonStartAll wf mem last
  obtain ⟨c, live⟩ := contains_iff.mp (wf.contains_owner owns)
  have child : f.branch owner h ∈ c.children := by
    rw [← childrenOf_of_get? live]
    exact wf.mem_childrenOf.mpr (branch_spec wf owns).1
  have reached : c.children.idxOf (f.branch owner h) ∈
      ((hs.zip (hs.map f.chain)).map fun way =>
        (way.2[(commonStartAll (hs.map f.chain)).length]?).getD way.1).filterMap
          (c.children.idxOf? ·) := by
    rw [← List.map_prod_left_eq_zip, List.map_map, List.mem_filterMap, shared]
    exact ⟨_, List.mem_map.mpr ⟨h, mem, rfl⟩, idxOf?_eq_some_of_mem child⟩
  have least := List.isSome_min?_of_mem reached
  unfold liftPlan
  rw [distinct, ok_bind, apart]
  simp only [last]
  rw [orLiftError_node_iff.mpr live, ok_bind]
  split
  · next none => exact absurd none (Option.isSome_iff_ne_none.mp least)
  · exact ⟨_, rfl⟩

section Planned

variable (wf : f.WellFormed) (planned : f.liftPlan hs = .ok plan)

include wf planned

theorem gatherable_of_planned : f.Gatherable hs := by
  have gathers := gathers_of_planned wf planned
  refine ⟨gathers.nodup, ?_, plan.owner, gathers.owns⟩
  rw [← nested?_eq_none_iff wf]
  obtain ⟨_, -, planned⟩ := bind_eq_ok_iff.mp planned
  split at planned
  · cases planned
  · next none =>
    rw [Option.eq_none_iff_forall_ne_some]
    rintro ⟨a, b⟩
    exact none a b

/-- The owner that a plan names is the nearest that the concepts have in common. -/
theorem planned_lowest {a : Handle} (owns : ∀ h ∈ hs, f.Owns a h) :
    a = plan.owner ∨ f.Owns a plan.owner := by
  obtain ⟨nonempty, -⟩ := liftPlan_spec wf planned
  obtain ⟨-, last, -⟩ := liftPlan_inv planned
  obtain ⟨h, mem⟩ := List.exists_mem_of_ne_nil hs nonempty
  have start := lineage_prefix_commonStartAll wf nonempty owns
  rw [commonStartAll_eq_lineage wf mem last] at start
  exact (lineage_prefix_iff wf).mp start

/-- The place that a plan names is that of the first child of the owner that is one of the concepts
or holds one. -/
theorem planned_place : ∃ before first after,
    f.childrenOf plan.owner = before ++ first :: after ∧ before.length = plan.place ∧
      (∀ x ∈ before, ∀ h ∈ hs, x ≠ h ∧ ¬ f.Owns x h) ∧ ∃ h ∈ hs, first = h ∨ f.Owns first h := by
  obtain ⟨nonempty, gathers, -⟩ := liftPlan_spec wf planned
  obtain ⟨-, last, -, least, -⟩ := liftPlan_inv planned
  obtain ⟨h, mem⟩ := List.exists_mem_of_ne_nil hs nonempty
  rw [commonStartAll_eq_lineage wf mem last] at least
  change ((hs.map (f.branch plan.owner)).filterMap
    ((f.childrenOf plan.owner).idxOf? ·)).min? = _ at least
  obtain ⟨reached, first⟩ := List.min?_eq_some_iff.mp least
  have place_le : ∀ h ∈ hs,
      plan.place ≤ (f.childrenOf plan.owner).idxOf (f.branch plan.owner h) := by
    intro h mem
    have child := wf.mem_childrenOf.mpr (branch_spec wf (gathers.owns h mem)).1
    apply first
    rw [List.mem_filterMap]
    exact ⟨f.branch plan.owner h, List.mem_map.mpr ⟨h, mem, rfl⟩, idxOf?_eq_some_of_mem child⟩
  obtain ⟨_, mapped, found⟩ := List.mem_filterMap.mp reached
  obtain ⟨h, mem, rfl⟩ := List.mem_map.mp mapped
  obtain ⟨fits, same, -⟩ := List.findIdx?_eq_some_iff_getElem.mp found
  refine ⟨(f.childrenOf plan.owner).take plan.place, f.branch plan.owner h,
    (f.childrenOf plan.owner).drop (plan.place + 1), ?_, ?_, ?_, ?_⟩
  · have same : (f.childrenOf plan.owner)[plan.place] = f.branch plan.owner h := beq_iff_eq.mp same
    rw [← same, ← List.drop_eq_getElem_cons fits, List.take_append_drop]
  · rw [List.length_take, Nat.min_eq_left (Nat.le_of_lt fits)]
  · intro x before h mem
    rw [← not_or]
    intro above
    have child := List.mem_of_mem_take before
    obtain rfl := eq_branch wf (wf.mem_childrenOf.mp child) above
    exact Nat.not_lt.mpr (place_le h mem) ((List.mem_take_iff_idxOf_lt child).mp before)
  · exact ⟨h, mem, (branch_spec wf (gathers.owns h mem)).2⟩

end Planned

/-! ### What a lift makes of a forest -/

/-- The concepts that have another owner than the given one, each with it. -/
def strays (f : Forest) (hs : List Handle) (owner : Handle) : List (Handle × Handle) :=
  (hs.filterMap fun h => (f.parent? h).map (h, ·)).filter (·.2 != owner)

theorem mem_strays {pair : Handle × Handle} :
    pair ∈ f.strays hs owner ↔
      pair.1 ∈ hs ∧ f.parent? pair.1 = some pair.2 ∧ pair.2 ≠ owner := by
  simp only [strays, List.mem_filter, List.mem_filterMap, Option.map_eq_some_iff, bne_iff_ne]
  constructor
  · rintro ⟨⟨h, mem, p, owned, rfl⟩, other⟩
    exact ⟨mem, owned, other⟩
  · rintro ⟨mem, owned, other⟩
    exact ⟨⟨pair.1, mem, pair.2, owned, rfl⟩, other⟩

theorem strays_sublist (f : Forest) (hs : List Handle) (owner : Handle) :
    ((f.strays hs owner).map Prod.fst).Sublist hs := by
  refine (List.filter_sublist.map Prod.fst).trans ?_
  induction hs with
  | nil => simp
  | cons h hs ih =>
    cases owned : f.parent? h with
    | none => simpa [owned] using ih.cons h
    | some p => simpa [owned] using ih.cons_cons h

theorem getLast?_chain (wf : f.WellFormed) (h : Handle) : (f.chain h).getLast? = f.parent? h := by
  cases owned : f.parent? h with
  | none => simp [chain_of_root owned]
  | some p => simp [chain_eq_lineage wf owned, lineage]

theorem moved_eq_strays (wf : f.WellFormed) (planned : f.liftPlan hs = .ok plan) :
    plan.moved = f.strays hs plan.owner := by
  obtain ⟨-, -, -, -, moved⟩ := liftPlan_inv planned
  simp only [moved, getLast?_chain wf, strays]

/-- What becomes of a forest when a match is lifted, and the concept that stands for the match. -/
inductive LiftsTo (f : Forest) : Match → Handle → Forest → Prop where
  | whole (h : Handle) : LiftsTo f (.whole h) h f
  /-- A run of children is replaced by a new concept that has them as its children. -/
  | run {h : Handle} {start stop : Nat} {g : Forest}
    (groups : f.Groups g (((f.childrenOf h).take stop).drop start) h
      ((f.childrenOf h).take start ++ [f.next] ++ (f.childrenOf h).drop stop) []) :
    LiftsTo f ⟨[h], [.span start stop]⟩ f.next g
  /-- Several concepts become children of a new one under the nearest owner that they have in
  common. It stands in front of the first child of that owner that was one of them or held one, and
  those that had another owner are pieces of it. -/
  | several {hs : List Handle} {extents : List Extent} {owner : Handle} {before : List Handle}
    {first : Handle} {after : List Handle} {g : Forest} (several : 2 ≤ hs.length)
    (owns : ∀ h ∈ hs, f.Owns owner h)
    (lowest : ∀ a, (∀ h ∈ hs, f.Owns a h) → a = owner ∨ f.Owns a owner)
    (children : f.childrenOf owner = before ++ first :: after)
    (untouched : ∀ x ∈ before, ∀ h ∈ hs, x ≠ h ∧ ¬ f.Owns x h)
    (touched : ∃ h ∈ hs, first = h ∨ f.Owns first h)
    (groups : f.Groups g hs owner (before ++ [f.next] ++ (first :: after).filter (· ∉ hs))
      (f.unrecorded (f.strays hs owner))) :
    LiftsTo f ⟨hs, extents⟩ f.next g

theorem insertIdx_length (before after : List Handle) (x : Handle) :
    (before ++ after).insertIdx before.length x = before ++ [x] ++ after := by
  induction before with
  | nil => simp
  | cons y before ih => simpa using ih

/-- An element put in the place of a part of a list without repetition. -/
theorem insertIdx_filter_middle {before middle after : List Handle}
    (nodup : (before ++ middle ++ after).Nodup) (x : Handle) :
    ((before ++ middle ++ after).filter (· ∉ middle)).insertIdx before.length x =
      before ++ [x] ++ after := by
  obtain ⟨nodup, -, behind⟩ := List.nodup_append.mp nodup
  obtain ⟨-, -, ahead⟩ := List.nodup_append.mp nodup
  have left : (before ++ middle ++ after).filter (· ∉ middle) = before ++ after := by
    simp only [List.filter_append]
    rw [List.filter_eq_self.mpr, List.filter_eq_nil_iff.mpr, List.filter_eq_self.mpr,
      List.append_nil]
    · intro y mem
      exact decide_eq_true fun inside => behind y (List.mem_append_right _ inside) y mem rfl
    · intro y mem
      simpa using mem
    · intro y mem
      exact decide_eq_true fun inside => ahead y mem y inside rfl
  rw [left, insertIdx_length]

theorem groups_run (wf : f.WellFormed) {start stop : Nat}
    (found : f.run h start stop = .ok members) :
    f.Groups (f.gathered members h start) members h
      ((f.childrenOf h).take start ++ [f.next] ++ (f.childrenOf h).drop stop) [] := by
  have groups := groups_gathered wf (run_spec wf found)
  obtain ⟨-, some, within, rfl⟩ := run_eq_ok_iff.mp found
  have whole : f.childrenOf h = (f.childrenOf h).take start ++
      ((f.childrenOf h).take stop).drop start ++ (f.childrenOf h).drop stop := by
    conv_lhs => rw [← List.take_append_drop stop (f.childrenOf h),
      ← List.take_append_drop start ((f.childrenOf h).take stop), List.take_take,
      Nat.min_eq_left (Nat.le_of_lt some)]
  have length : ((f.childrenOf h).take start).length = start := by
    rw [List.length_take]
    omega
  have row := insertIdx_filter_middle (whole ▸ wf.nodup_childrenOf h) f.next
  rw [← whole, length] at row
  rwa [row] at groups

/-! ### Matches that can be lifted -/

/-- The match can become one concept. -/
structure Liftable (f : Forest) (m : Match) : Prop where
  concepts_ne_nil : m.concepts ≠ []
  length_eq : m.concepts.length = m.extents.length
  contains : ∀ h ∈ m.concepts, f.contains h = true
  /-- It is one whole concept, a run of children of one concept, or several whole concepts. -/
  shape : (∃ h, m = .whole h) ∨
    (∃ h start stop, m = ⟨[h], [.span start stop]⟩ ∧
      start < stop ∧ stop ≤ (f.childrenOf h).length) ∨
    2 ≤ m.extents.length ∧ (∀ extent ∈ m.extents, extent = .whole) ∧ f.Gatherable m.concepts

/-- Of several concepts none may be meant only in part. -/
theorem whole_of_isLiftable {m : Match} (liftable : m.isLiftable = true)
    (several : 2 ≤ m.concepts.length) : ∀ extent ∈ m.extents, extent = .whole := by
  have more : m.concepts.length ≠ 1 := by omega
  have none : m.partialCount = 0 := by simpa [Match.isLiftable, more] using liftable
  rw [Match.partialCount, List.countP_eq_zero] at none
  intro extent mem
  simpa [Extent.isPartial] using none extent mem

/-- A match of live concepts is one whole concept, a part of one concept, or several whole ones. -/
theorem shape_of_checkMatch {m : Match} (passed : f.checkMatch m = .ok ()) :
    (∃ h, m = .whole h) ∨ (∃ h start stop, m = ⟨[h], [.span start stop]⟩) ∨
      2 ≤ m.extents.length ∧ ∀ extent ∈ m.extents, extent = .whole := by
  obtain ⟨nonempty, length, liftable, -⟩ := checkMatch_iff.mp passed
  obtain ⟨concepts, extents⟩ := m
  dsimp only at nonempty length
  match concepts, extents, length with
  | [], _, _ => exact absurd rfl nonempty
  | [h], [.whole], _ => exact .inl ⟨h, rfl⟩
  | [h], [.span start stop], _ => exact .inr (.inl ⟨h, start, stop, rfl⟩)
  | a :: b :: hs, extents, length =>
    exact .inr (.inr ⟨by simp [← length], whole_of_isLiftable liftable (by simp)⟩)

theorem Liftable.checkMatch {m : Match} (liftable : f.Liftable m) : f.checkMatch m = .ok () := by
  refine checkMatch_iff.mpr ⟨liftable.concepts_ne_nil, liftable.length_eq, ?_, liftable.contains⟩
  obtain ⟨h, rfl⟩ | ⟨h, start, stop, rfl, -⟩ | ⟨-, whole, -⟩ := liftable.shape
  · rfl
  · rfl
  · have none : m.partialCount = 0 := by
      rw [Match.partialCount, List.countP_eq_zero]
      intro extent mem
      simp [whole extent mem, Extent.isPartial]
    simp [Match.isLiftable, none]

theorem liftsTo_of_planned (wf : f.WellFormed) (planned : f.liftPlan hs = .ok plan)
    (several : 2 ≤ hs.length) (extents : List Extent) :
    f.LiftsTo ⟨hs, extents⟩ f.next
      ((f.gathered hs plan.owner plan.place).pieced plan.moved) := by
  have gathers := gathers_of_planned wf planned
  obtain ⟨before, first, after, children, length, untouched, touched⟩ := planned_place wf planned
  have old : ∀ pair ∈ f.strays hs plan.owner, pair.1 ≠ f.next ∧ pair.2 ≠ f.next := by
    intro pair mem
    obtain ⟨-, owned, -⟩ := mem_strays.mp mem
    exact ⟨Nat.ne_of_lt (lt_next_of_contains (contains_of_parent? owned)),
      Nat.ne_of_lt (lt_next_of_contains (wf.contains_parent owned))⟩
  have groups := groups_pieced wf gathers
    (gathers.nodup.sublist (strays_sublist f hs plan.owner)) old
  have kept : before.filter (· ∉ hs) = before := by
    rw [List.filter_eq_self]
    intro x mem
    exact decide_eq_true fun inside => (untouched x mem x inside).1 rfl
  rw [children, List.filter_append, kept, ← length, insertIdx_length] at groups
  rw [moved_eq_strays wf planned, ← length]
  exact .several several gathers.owns (fun _ => planned_lowest wf planned) children untouched
    touched groups

theorem lift_eq_liftAll {hs : List Handle} {extents : List Extent}
    (several : 2 ≤ hs.length) (f : Forest) (passed : f.checkMatch ⟨hs, extents⟩ = .ok ()) :
    Edit.lift ⟨hs, extents⟩ f = Edit.liftAll hs f := by
  match hs, several with
  | a :: b :: hs, _ => exact bind_of_ok (ask_of_ok (Forest.checkMatch · _) passed)

/-- What becomes of a match: it is lifted if it can be, or it is refused and nothing is done. -/
def GrantedOrRefused (f : Forest) (m : Match) : Prop :=
  (f.Liftable m ∧ ∃ h g, Edit.lift m f = .ok h g ∧ f.LiftsTo m h g) ∨
    ¬ f.Liftable m ∧ ∃ e, Edit.lift m f = .error e f

theorem grantedOrRefused_span (wf : f.WellFormed) {start stop : Nat}
    (check : f.checkMatch ⟨[h], [.span start stop]⟩ = .ok ()) :
    f.GrantedOrRefused ⟨[h], [.span start stop]⟩ := by
  have passed := ask_of_ok (Forest.checkMatch · _) check
  obtain ⟨nonempty, length, -, live⟩ := checkMatch_iff.mp check
  cases found : f.run h start stop with
  | error e =>
    right
    refine ⟨?_, e, (bind_of_ok passed).trans
      (bind_of_error (ask_of_error (Forest.run · h start stop) found))⟩
    intro liftable
    obtain ⟨h, same⟩ | ⟨h, start, stop, same, some, within⟩ | ⟨several, -⟩ := liftable.shape
    · cases same
    · cases same
      have granted := run_eq_ok_iff.mpr ⟨live h (by simp), some, within, rfl⟩
      rw [found] at granted
      cases granted
    · simp at several
  | ok members =>
    left
    obtain ⟨-, some, within, rfl⟩ := run_eq_ok_iff.mp found
    exact ⟨⟨nonempty, length, live, .inr (.inl ⟨h, start, stop, rfl, some, within⟩)⟩, _, _,
      (bind_of_ok passed).trans (Edit.liftRun_of_run wf found), .run (groups_run wf found)⟩

theorem grantedOrRefused_several (wf : f.WellFormed) {extents : List Extent}
    (check : f.checkMatch ⟨hs, extents⟩ = .ok ()) (several : 2 ≤ extents.length)
    (whole : ∀ extent ∈ extents, extent = .whole) : f.GrantedOrRefused ⟨hs, extents⟩ := by
  obtain ⟨nonempty, length, -, live⟩ := checkMatch_iff.mp check
  dsimp only at nonempty length
  have lift_eq := lift_eq_liftAll (length ▸ several) f check
  cases planned : f.liftPlan hs with
  | error e =>
    right
    refine ⟨?_, e, lift_eq.trans (bind_of_error (ask_of_error (Forest.liftPlan · hs) planned))⟩
    intro liftable
    obtain ⟨h, same⟩ | ⟨h, start, stop, same, -⟩ | ⟨-, -, gatherable⟩ := liftable.shape
    · cases same
      simp at several
    · cases same
      simp at several
    · obtain ⟨plan, granted⟩ := exists_plan wf nonempty gatherable
      rw [planned] at granted
      cases granted
  | ok plan =>
    left
    exact ⟨⟨nonempty, length, live, .inr (.inr ⟨several, whole, gatherable_of_planned wf planned⟩)⟩,
      _, _, lift_eq.trans (Edit.liftAll_of_planned wf planned),
      liftsTo_of_planned wf planned (length ▸ several) extents⟩

/-- A match is lifted if it can be, and all else is refused without anything done. -/
theorem lift_granted_or_refused (wf : f.WellFormed) (m : Match) : f.GrantedOrRefused m := by
  cases check : f.checkMatch m with
  | error e =>
    right
    refine ⟨?_, e, bind_of_error (ask_of_error (Forest.checkMatch · m) check)⟩
    intro liftable
    rw [liftable.checkMatch] at check
    cases check
  | ok _ =>
    obtain ⟨h, rfl⟩ | ⟨h, start, stop, rfl⟩ | ⟨several, whole⟩ := shape_of_checkMatch check
    · left
      obtain ⟨nonempty, length, -, live⟩ := checkMatch_iff.mp check
      have passed := ask_of_ok (Forest.checkMatch · _) check
      exact ⟨⟨nonempty, length, live, .inl ⟨h, rfl⟩⟩, h, f, bind_of_ok passed, .whole h⟩
    · exact grantedOrRefused_span wf check
    · exact grantedOrRefused_several wf check several whole

/-- All about lifts. They are granted exactly for the matches that can be lifted, where they make
of the forest what is told above, and refused for all others, where they leave the forest as it
is. -/
theorem lift_exact (requests : List Request) (m : Match) :
    let f := ({} : Forest).afterAll requests
    (f.Liftable m → ∃ h g, Edit.lift m f = .ok h g ∧ f.LiftsTo m h g) ∧
      (¬ f.Liftable m → ∃ e, Edit.lift m f = .error e f) := by
  intro f
  have wf : f.WellFormed := (evolves_afterAll wellFormed_empty requests).wellFormed
  rcases lift_granted_or_refused wf m with ⟨liftable, granted⟩ | ⟨not_liftable, refused⟩
  · exact ⟨fun _ => granted, fun not_liftable => absurd liftable not_liftable⟩
  · exact ⟨fun liftable => absurd liftable not_liftable, fun _ => refused⟩

/-- The symbols of two statements under one root become one concept. -/
theorem lift_exact_cousins :
    let f := ({} : Forest).afterAll [.create { kind := .root },
      .create { kind := .statement, parent := some 0 }, .create { kind := .symbol, parent := some 1 },
      .create { kind := .statement, parent := some 0 }, .create { kind := .symbol, parent := some 3 }]
    let m : Match := ⟨[2, 4], [.whole, .whole]⟩
    f.Liftable m ∧ ∃ h g, Edit.lift m f = .ok h g ∧ f.LiftsTo m h g := by
  intro f m
  have wf : f.WellFormed := (evolves_afterAll wellFormed_empty _).wellFormed
  have live : ∀ h ∈ m.concepts, f.contains h = true := by decide +kernel
  have owned : ∀ h ∈ m.concepts, f.isAncestor 0 h = true := by decide +kernel
  have apart : f.nested? m.concepts = none := by decide +kernel
  have gatherable : f.Gatherable m.concepts :=
    ⟨by decide, (nested?_eq_none_iff wf).mp apart, 0,
      fun h mem => (isAncestor_iff wf).mp (owned h mem)⟩
  have liftable : f.Liftable m :=
    ⟨by decide, by decide, live, .inr (.inr ⟨by decide, by decide, gatherable⟩)⟩
  exact ⟨liftable, (lift_exact _ m).1 liftable⟩

end Forest

end ConceptForest
