import ConceptForest.Forest.Lift
import ConceptForest.Proofs.Forest.Edits
import ConceptForest.Proofs.Forest.Lineage

/-!
What a lift does.

A lift gathers concepts that an owner has, children or not, under a new one at a place among its
children. `gathered` is what becomes of the forest.

* `liftPlan_spec` — the owner that a plan names owns all the concepts, and the place that it names
  is still there after they have gone: no concept in front of it goes.
* `lift_cases` — a lift is refused, and then nothing of it is done, or leaves a whole concept as it
  is, or gathers; no step that follows the checks is ever refused.
-/

namespace ConceptForest

/-! ### The start that lists have in common -/

section CommonStart

variable {α : Type} [DecidableEq α]

theorem commonStart_prefix (xs ys : List α) :
    commonStart xs ys <+: xs ∧ commonStart xs ys <+: ys := by
  induction xs generalizing ys with
  | nil => simp [commonStart]
  | cons x xs ih =>
    cases ys with
    | nil => simp [commonStart]
    | cons y ys =>
      simp only [commonStart]
      split
      · next same =>
        subst same
        simp only [List.cons_prefix_cons, true_and]
        exact ih ys
      · simp

theorem commonStartAll_prefix {xss : List (List α)} {xs : List α} (mem : xs ∈ xss) :
    commonStartAll xss <+: xs := by
  have folded : ∀ (rest : List (List α)) (start : List α),
      rest.foldl commonStart start <+: start ∧
        ∀ ys ∈ rest, rest.foldl commonStart start <+: ys := by
    intro rest
    induction rest with
    | nil => simp
    | cons ys rest ih =>
      intro start
      obtain ⟨first, others⟩ := ih (commonStart start ys)
      obtain ⟨left, right⟩ := commonStart_prefix start ys
      constructor
      · exact first.trans left
      · exact List.forall_mem_cons.mpr ⟨first.trans right, others⟩
  cases xss with
  | nil => cases mem
  | cons first rest =>
    rcases List.mem_cons.mp mem with rfl | mem
    · exact (folded rest xs).1
    · exact (folded rest first).2 xs mem

theorem prefix_commonStart {start xs ys : List α} (left : start <+: xs) (right : start <+: ys) :
    start <+: commonStart xs ys := by
  induction start generalizing xs ys with
  | nil => exact List.nil_prefix
  | cons x start ih =>
    obtain ⟨xs, rfl, left_rest⟩ := List.cons_prefix_iff.mp left
    obtain ⟨ys, rfl, right_rest⟩ := List.cons_prefix_iff.mp right
    rw [commonStart, if_pos rfl, List.cons_prefix_cons]
    exact ⟨rfl, ih left_rest right_rest⟩

/-- Whatever all lists start with is the start of what they have in common. -/
theorem prefix_commonStartAll {start : List α} {xss : List (List α)} (some : xss ≠ [])
    (starts : ∀ xs ∈ xss, start <+: xs) : start <+: commonStartAll xss := by
  cases xss with
  | nil => exact absurd rfl some
  | cons first rest =>
    obtain ⟨left, right⟩ := List.forall_mem_cons.mp starts
    clear starts some
    show start <+: rest.foldl commonStart first
    induction rest generalizing first with
    | nil => exact left
    | cons xs rest ih =>
      obtain ⟨next, others⟩ := List.forall_mem_cons.mp right
      exact ih (commonStart first xs) (prefix_commonStart left next) others

end CommonStart

namespace Forest

variable {f : Forest} {h k owner : Handle} {members : List Handle} {place : Nat}

/-! ### Gathering -/

/-- What becomes of a forest when concepts are gathered under a new one at a place of an owner. -/
def gathered (f : Forest) (members : List Handle) (owner : Handle) (place : Nat) : Forest :=
  (f.created { kind := .lifted, children := members }).attached owner (some place) f.next

/-- The owner has the concepts, and enough children without them to have the place. -/
structure Gathers (f : Forest) (members : List Handle) (owner : Handle) (place : Nat) : Prop where
  nodup : members.Nodup
  owns : ∀ member ∈ members, f.Owns owner member
  within : place ≤ ((f.childrenOf owner).filter (· ∉ members)).length
  contains_owner : f.contains owner = true

section Gathers

variable (wf : f.WellFormed) (gathers : f.Gathers members owner place)

include gathers

theorem Gathers.admits : f.Admits { kind := .lifted, children := members } where
  contains_parent := nofun
  contains member mem := (gathers.owns member mem).contains
  nodup := gathers.nodup
  ne_parent := nofun
  notOwner := nofun

include wf

theorem Gathers.accepts :
    (f.created { kind := .lifted, children := members }).Accepts owner f.next place where
  contains_parent := by simp [gathers.contains_owner]
  contains_child := by simp
  ne_parent := Nat.ne_of_gt (lt_next_of_contains gathers.contains_owner)
  notOwner owns := by
    -- what the new concept owns is gathered or below that, and the owner is above it
    obtain ⟨member, mem, same | above⟩ := exists_child_of_owns_begun wf gathers.admits owns
    · exact wf.not_owns_self owner (same ▸ gathers.owns member mem)
    · exact wf.not_owns_self owner ((gathers.owns member mem).trans above)
  within := by
    have old : owner ≠ f.next := Nat.ne_of_lt (lt_next_of_contains gathers.contains_owner)
    have all : ((f.childrenOf owner).filter (· ∉ members)).filter (· != f.next) =
        (f.childrenOf owner).filter (· ∉ members) := by
      rw [List.filter_eq_self]
      intro x mem
      have owned := wf.mem_childrenOf.mp (List.mem_filter.mp mem).1
      exact bne_iff_ne.mpr (Nat.ne_of_lt (lt_next_of_contains (contains_of_parent? owned)))
    rw [childrenOf_created wf gathers.admits, if_neg old, if_neg nofun, List.append_nil, all]
    exact gathers.within

theorem WellFormed.gathered : (f.gathered members owner place).WellFormed :=
  (wf.created gathers.admits).attached_of_accepts (gathers.accepts wf)

theorem parent?_gathered (k : Handle) :
    (f.gathered members owner place).parent? k =
      if k = f.next then some owner else if k ∈ members then some f.next else f.parent? k := by
  rw [Forest.gathered, parent?_attached (gathers.accepts wf).contains_child,
    parent?_created gathers.admits]
  split <;> rfl

end Gathers

theorem rewired_gathered (f : Forest) (members : List Handle) (owner : Handle) (place : Nat) :
    (f.push (NewConcept.toConcept { kind := .lifted, children := members } f.next)).Rewired
      (f.gathered members owner place) :=
  (rewired_created f _).trans (rewired_attached _ _ _ _)

@[simp] theorem next_gathered (f : Forest) (members : List Handle) (owner : Handle) (place : Nat) :
    (f.gathered members owner place).next = f.next + 1 := by
  rw [(rewired_gathered f members owner place).next_eq, next_push]

@[simp] theorem contains_gathered (f : Forest) (members : List Handle) (owner : Handle) (place : Nat)
    (k : Handle) :
    (f.gathered members owner place).contains k = (decide (k = f.next) || f.contains k) := by
  rw [(rewired_gathered f members owner place).contains_eq, contains_push]

/-! ### Plans -/

/-- The places in front of the first of the members are still there when the members have gone. -/
theorem le_length_others {xs : List Handle} (le : place ≤ xs.length)
    (none : ∀ x ∈ xs.take place, x ∉ members) :
    place ≤ (xs.filter (· ∉ members)).length := by
  have kept : (xs.take place).filter (· ∉ members) = xs.take place := by
    rw [List.filter_eq_self]
    intro x mem
    exact decide_eq_true (none x mem)
  have sub := ((List.take_sublist place xs).filter (· ∉ members)).length_le
  rwa [kept, List.length_take, Nat.min_eq_left le] at sub

theorem orLiftError_node_iff {c : Concept} :
    orLiftError (f.node h) = .ok c ↔ f.get? h = some c := by
  rw [orLiftError, mapError_eq_ok_iff, node_eq_ok_iff]

theorem run_eq_ok_iff {start stop : Nat} :
    f.run h start stop = .ok members ↔
      f.contains h = true ∧ start < stop ∧ stop ≤ (f.childrenOf h).length ∧
        members = ((f.childrenOf h).take stop).drop start := by
  unfold run
  cases live : f.get? h with
  | none => simp [orLiftError, node_of_get?_eq_none live, contains, live, Except.mapError]
  | some c =>
    rw [orLiftError_node_iff.mpr live, ok_bind, childrenOf_of_get? live, contains_of_get? live]
    simp only [true_and]
    split
    · next unfit =>
      constructor
      · rintro ⟨⟩
      · rintro ⟨some, within, -⟩
        omega
    · next fits =>
      rw [not_or, Nat.not_le, Nat.not_lt] at fits
      simp [pure, Except.pure, fits.1, fits.2, List.drop_take, eq_comm]

theorem run_spec (wf : f.WellFormed) {start stop : Nat}
    (found : f.run h start stop = .ok members) : f.Gathers members h start := by
  obtain ⟨live, some, within, rfl⟩ := run_eq_ok_iff.mp found
  have nodup := wf.nodup_childrenOf h
  refine ⟨?_, ?_, ?_, live⟩
  · exact (nodup.sublist (List.take_sublist _ _)).sublist (List.drop_sublist _ _)
  · intro member mem
    have child := List.mem_of_mem_take (List.mem_of_mem_drop mem)
    exact owns_of_parent? (wf.mem_childrenOf.mp child)
  · apply le_length_others (by omega)
    intro x before mem
    rw [← List.take_append_drop start (f.childrenOf h)] at nodup
    rw [List.drop_take] at mem
    exact (List.nodup_append.mp nodup).2.2 x before x (List.mem_of_mem_take mem) rfl

theorem checkDistinct_iff {before hs : List Handle} :
    checkDistinct before hs = .ok () ↔ hs.Nodup ∧ ∀ h ∈ hs, h ∉ before := by
  induction hs generalizing before with
  | nil => simp [checkDistinct]
  | cons h hs ih =>
    simp only [checkDistinct]
    split
    · next twice => simp [List.contains_iff_mem.mp twice]
    · next once =>
      rw [ih]
      have once : h ∉ before := by simpa using once
      simp only [List.nodup_cons, List.mem_cons, not_or, forall_eq_or_imp]
      grind

/-- What the ways down to concepts have in common is the way down to the last concept of it. -/
theorem commonStartAll_eq_lineage (wf : f.WellFormed) {hs : List Handle} (mem : h ∈ hs)
    (last : (commonStartAll (hs.map f.chain)).getLast? = some owner) :
    commonStartAll (hs.map f.chain) = f.lineage owner := by
  have start : commonStartAll (hs.map f.chain) <+: f.chain h :=
    commonStartAll_prefix (List.mem_map.mpr ⟨h, mem, rfl⟩)
  exact eq_lineage_of_prefix wf (start.trans (List.prefix_append _ _)) last

theorem owns_of_last_commonStartAll (wf : f.WellFormed) {hs : List Handle} (mem : h ∈ hs)
    (last : (commonStartAll (hs.map f.chain)).getLast? = some owner) : f.Owns owner h := by
  have start : f.lineage owner <+: f.chain h := by
    rw [← commonStartAll_eq_lineage wf mem last]
    exact commonStartAll_prefix (List.mem_map.mpr ⟨h, mem, rfl⟩)
  exact (mem_chain_iff wf).mp (start.subset (mem_lineage_self f owner))

/-- What a plan is made of. -/
theorem liftPlan_inv {hs : List Handle} {plan : LiftPlan} (planned : f.liftPlan hs = .ok plan) :
    let shared := commonStartAll (hs.map f.chain)
    hs.Nodup ∧ shared.getLast? = some plan.owner ∧ f.contains plan.owner = true ∧
      ((hs.map fun h => ((f.chain h)[shared.length]?).getD h).filterMap
        ((f.childrenOf plan.owner).idxOf? ·)).min? = some plan.place ∧
      plan.moved = (hs.filterMap fun h => (f.chain h).getLast?.map (h, ·)).filter
        (·.2 != plan.owner) := by
  intro shared
  obtain ⟨_, distinct, planned⟩ := bind_eq_ok_iff.mp planned
  have nodup := (checkDistinct_iff.mp distinct).1
  dsimp only at planned
  split at planned
  · cases planned
  · split at planned
    · cases planned
    · next owner last =>
      obtain ⟨c, found, planned⟩ := bind_eq_ok_iff.mp planned
      have live := orLiftError_node_iff.mp found
      split at planned
      · cases planned
      · next place least =>
        obtain rfl := Except.ok.inj planned
        rw [← List.map_prod_left_eq_zip, List.map_map] at least
        refine ⟨nodup, last, contains_of_get? live, ?_, ?_⟩
        · rw [childrenOf_of_get? live]
          exact least
        · rw [← List.map_prod_left_eq_zip, List.filterMap_map]
          rfl

theorem idxOf?_eq_some_of_mem {x : Handle} {xs : List Handle} (mem : x ∈ xs) :
    xs.idxOf? x = some (xs.idxOf x) :=
  List.findIdx?_eq_some_iff_findIdx_eq.mpr ⟨List.idxOf_lt_length_of_mem mem, rfl⟩

theorem lt_length_of_idxOf? {x : Handle} {xs : List Handle} {i : Nat}
    (found : xs.idxOf? x = some i) : i < xs.length :=
  (List.findIdx?_eq_some_iff_findIdx_eq.mp found).1

section Planned

variable {hs : List Handle} {plan : LiftPlan}

/-- No concept that a plan is for stands in front of the place that it names. -/
theorem place_le_idxOf (wf : f.WellFormed) (planned : f.liftPlan hs = .ok plan)
    (mem : h ∈ hs) (owned : f.parent? h = some plan.owner) :
    plan.place ≤ (f.childrenOf plan.owner).idxOf h := by
  obtain ⟨-, last, -, least, -⟩ := liftPlan_inv planned
  obtain ⟨-, first⟩ := List.min?_eq_some_iff.mp least
  apply first
  rw [List.mem_filterMap]
  refine ⟨h, List.mem_map.mpr ⟨h, mem, ?_⟩, ?_⟩
  · -- a child of the owner is its own branch
    rw [commonStartAll_eq_lineage wf mem last, ← chain_eq_lineage wf owned,
      List.getElem?_eq_none (Nat.le_refl _), Option.getD_none]
  · exact idxOf?_eq_some_of_mem (wf.mem_childrenOf.mpr owned)

/-- The owner that a plan names has all the concepts, and the place that it names is there without
them. -/
theorem gathers_of_planned (wf : f.WellFormed) (planned : f.liftPlan hs = .ok plan) :
    f.Gathers hs plan.owner plan.place := by
  obtain ⟨nodup, last, live, least, -⟩ := liftPlan_inv planned
  obtain ⟨reached, -⟩ := List.min?_eq_some_iff.mp least
  refine ⟨nodup, fun h mem => owns_of_last_commonStartAll wf mem last, ?_, live⟩
  · obtain ⟨branch, -, found⟩ := List.mem_filterMap.mp reached
    apply le_length_others (Nat.le_of_lt (lt_length_of_idxOf? found))
    intro x before mem
    have child := List.mem_of_mem_take before
    have behind := place_le_idxOf wf planned mem (wf.mem_childrenOf.mp child)
    exact Nat.not_lt.mpr behind ((List.mem_take_iff_idxOf_lt child).mp before)

theorem liftPlan_spec (wf : f.WellFormed) (planned : f.liftPlan hs = .ok plan) :
    hs ≠ [] ∧ f.Gathers hs plan.owner plan.place ∧
      ∀ pair ∈ plan.moved, pair.1 ∈ hs ∧ f.Owns pair.2 pair.1 := by
  obtain ⟨-, last, -, -, moved⟩ := liftPlan_inv planned
  refine ⟨?_, gathers_of_planned wf planned, ?_⟩
  · rintro rfl
    cases last
  · intro pair mem
    rw [moved] at mem
    obtain ⟨h, member, found⟩ := List.mem_filterMap.mp (List.mem_filter.mp mem).1
    obtain ⟨owner, last, rfl⟩ := Option.map_eq_some_iff.mp found
    exact ⟨member, (mem_chain_iff wf).mp (List.mem_of_getLast? last)⟩

end Planned

/-- What becomes of a forest when concepts become pieces of others. -/
def pieced (f : Forest) (moved : List (Handle × Handle)) : Forest :=
  moved.foldl (fun g (h, owner) => g.associated h owner .piece) f

theorem kept_pieced (f : Forest) (moved : List (Handle × Handle)) : f.Kept (f.pieced moved) :=
  kept_foldl (fun g (h, owner) => kept_associated g h owner .piece) f moved

theorem checkLive_iff {hs : List Handle} :
    f.checkLive hs = .ok () ↔ ∀ h ∈ hs, f.contains h = true := by
  induction hs with
  | nil => simp [checkLive]
  | cons h hs ih =>
    rw [checkLive, bind_eq_ok_iff, List.forall_mem_cons, contains_iff]
    simp only [orLiftError_node_iff, exists_and_right]
    rw [ih]

theorem checkMatch_iff {m : Match} :
    f.checkMatch m = .ok () ↔ m.concepts ≠ [] ∧ m.concepts.length = m.extents.length ∧
      m.isLiftable = true ∧ ∀ h ∈ m.concepts, f.contains h = true := by
  rw [← checkLive_iff]
  dsimp only [checkMatch]
  rw [refuse_else_eq_ok_iff, refuse_else_eq_ok_iff, refuse_else_eq_ok_iff]
  simp

end Forest

/-! ### Lifts, step by step -/

namespace Edit

variable {f : Forest} {h owner : Handle} {members : List Handle} {place : Nat}

theorem forM_associate {moved : List (Handle × Handle)}
    (live : ∀ pair ∈ moved, f.contains pair.1 = true ∧ f.contains pair.2 = true) :
    (moved.forM fun (h, owner) => liftStep (associate h owner .piece)) f =
      .ok () (f.pieced moved) := by
  induction moved generalizing f with
  | nil => rfl
  | cons pair moved ih =>
    obtain ⟨source, target⟩ := live pair List.mem_cons_self
    obtain ⟨c, source⟩ := Forest.contains_iff.mp source
    have first : liftStep (associate pair.1 pair.2 .piece) f = .ok () _ :=
      adaptExcept_of_ok (associate_of_get? source target)
    refine (bind_of_ok first).trans (ih ?_)
    intro other mem
    have same := (Forest.kept_associated f pair.1 pair.2 .piece).contains_eq
    simpa only [same] using live other (List.mem_cons_of_mem _ mem)

/-- The two steps that gather concepts are both granted. -/
theorem gather_of_gathers (wf : f.WellFormed) (gathers : f.Gathers members owner place) :
    liftStep (create { kind := .lifted, children := members }) f =
        .ok f.next (f.created { kind := .lifted, children := members }) ∧
      liftStep (insertAt owner f.next place) (f.created { kind := .lifted, children := members }) =
        .ok () (f.gathered members owner place) := by
  constructor
  · exact adaptExcept_of_ok (create_of_admits wf gathers.admits)
  · exact adaptExcept_of_ok (insertAt_of_accepts (wf.created gathers.admits) (gathers.accepts wf))

theorem liftRun_of_run (wf : f.WellFormed) {start stop : Nat}
    (found : f.run h start stop = .ok members) :
    liftRun h start stop f = .ok f.next (f.gathered members h start) := by
  obtain ⟨created, inserted⟩ := gather_of_gathers wf (Forest.run_spec wf found)
  rw [liftRun, bind_of_ok (ask_of_ok (Forest.run · h start stop) found), bind_of_ok created]
  exact bind_of_ok inserted

theorem liftRun_cases (wf : f.WellFormed) (h : Handle) (start stop : Nat) :
    (∃ e, liftRun h start stop f = .error e f) ∨
      ∃ members, f.Gathers members h start ∧
        liftRun h start stop f = .ok f.next (f.gathered members h start) := by
  cases found : f.run h start stop with
  | error e => exact .inl ⟨e, bind_of_error (ask_of_error (Forest.run · h start stop) found)⟩
  | ok members => exact .inr ⟨members, Forest.run_spec wf found, liftRun_of_run wf found⟩

theorem liftAll_of_planned (wf : f.WellFormed) {hs : List Handle} {plan : Forest.LiftPlan}
    (planned : f.liftPlan hs = .ok plan) :
    liftAll hs f = .ok f.next ((f.gathered hs plan.owner plan.place).pieced plan.moved) := by
  obtain ⟨-, gathers, moved⟩ := Forest.liftPlan_spec wf planned
  obtain ⟨created, inserted⟩ := gather_of_gathers wf gathers
  have pieces : (plan.moved.forM fun (h, owner) => liftStep (associate h owner .piece))
      (f.gathered hs plan.owner plan.place) =
        .ok () ((f.gathered hs plan.owner plan.place).pieced plan.moved) := by
    apply forM_associate
    intro pair mem
    obtain ⟨member, owns⟩ := moved pair mem
    simp [wf.contains_owner owns, gathers.admits.contains pair.1 member]
  rw [liftAll, bind_of_ok (ask_of_ok (Forest.liftPlan · hs) planned), bind_of_ok created,
    bind_of_ok inserted]
  exact bind_of_ok pieces

theorem liftAll_cases (wf : f.WellFormed) (hs : List Handle) :
    (∃ e, liftAll hs f = .error e f) ∨
      ∃ plan, f.liftPlan hs = .ok plan ∧
        liftAll hs f =
          .ok f.next ((f.gathered hs plan.owner plan.place).pieced plan.moved) := by
  cases planned : f.liftPlan hs with
  | error e => exact .inl ⟨e, bind_of_error (ask_of_error (Forest.liftPlan · hs) planned)⟩
  | ok plan => exact .inr ⟨plan, rfl, liftAll_of_planned wf planned⟩

/-- A lift is refused and nothing of it done, or it leaves a whole concept as it is, or it gathers
concepts and makes some of them pieces of their former owners. The owner that gets the new concept
is one that the match names, or has one of those. -/
theorem lift_cases (wf : f.WellFormed) (m : Match) :
    (∃ e, lift m f = .error e f) ∨
      (∃ h, m = .whole h ∧ f.contains h = true ∧ lift m f = .ok h f) ∨
      ∃ members owner place moved, f.Gathers members owner place ∧
        (∃ x ∈ m.concepts, x = owner ∨ f.Owns owner x) ∧
          (∀ pair ∈ moved, pair.1 ∈ members ∧ f.Owns pair.2 pair.1) ∧
            lift m f = .ok f.next ((f.gathered members owner place).pieced moved) := by
  cases check : f.checkMatch m with
  | error e => exact .inl ⟨e, bind_of_error (ask_of_error (Forest.checkMatch · m) check)⟩
  | ok _ =>
    have passed := ask_of_ok (Forest.checkMatch · m) check
    unfold lift
    rw [bind_of_ok passed]
    split
    · next h start stop =>
      rcases liftRun_cases wf h start stop with refused | ⟨members, gathers, granted⟩
      · exact .inl refused
      · exact .inr (.inr ⟨members, h, start, [], gathers, ⟨h, List.mem_cons_self, .inl rfl⟩,
          by simp, granted⟩)
    · next h =>
      have live := (Forest.checkMatch_iff.mp check).2.2.2 h List.mem_cons_self
      exact .inr (.inl ⟨h, rfl, live, rfl⟩)
    · next hs _ _ _ =>
      rcases liftAll_cases wf hs with refused | ⟨plan, planned, granted⟩
      · exact .inl refused
      · obtain ⟨some_members, gathers, moved⟩ := Forest.liftPlan_spec wf planned
        obtain ⟨x, mem⟩ := List.exists_mem_of_ne_nil hs some_members
        exact .inr (.inr ⟨hs, plan.owner, plan.place, plan.moved, gathers,
          ⟨x, mem, .inr (gathers.owns x mem)⟩, moved, granted⟩)

end Edit

end ConceptForest
