import ConceptForest.Proofs.Forest.LiftedParts
import ConceptForest.Proofs.Forest.Wording

/-!
What is found once more.

A search that has found something to lift is repeated after the lift, with what was built anew of
the same symbols. The two kinds of parts come to different ends: a run of children is now the whole
of the new concept, so that is found; several whole children are now all children of the new
concept, and a run over all of them is found there just as it was before.

* `FoundAt.whole_of_part` — where a run of children has been lifted.
* `FoundAt.neighbours` — where several whole children have been lifted.
-/

namespace ConceptForest

namespace Forest

variable {f g : Forest} {c s h new owner : Handle} {before run after row : List Handle}
  {e e' : Expansion} {items items' : List Expansion} {m : Match} {extents : List Extent}

/-! ### Runs over whole children -/

theorem Covers.congr {extent : Extent} (covers : f.Covers row s extent)
    (same : g.childrenOf s = f.childrenOf s) : g.Covers row s extent := by
  cases covers with
  | whole all => exact .whole (same ▸ all)
  | span children some covered rest proper =>
    exact .span (same.trans children) some covered rest proper

theorem forall₂_covers_congr {hs : List Handle} (each : List.Forall₂ (f.Covers row) hs extents)
    (same : ∀ s ∈ hs, g.childrenOf s = f.childrenOf s) :
    List.Forall₂ (g.Covers row) hs extents := by
  induction each with
  | nil => exact .nil
  | cons first _ ih =>
    obtain ⟨one, others⟩ := List.forall_mem_cons.mp same
    exact .cons (first.congr one) (ih others)

/-- A run that covers concepts as a whole has all their children. -/
theorem mem_of_covers {hs : List Handle} (each : List.Forall₂ (f.Covers row) hs extents)
    (whole : ∀ extent ∈ extents, extent = .whole) :
    ∀ s ∈ hs, ∀ x ∈ f.childrenOf s, x ∈ row := by
  induction each with
  | nil => exact nofun
  | cons first _ ih =>
    obtain ⟨rfl, others⟩ := List.forall_mem_cons.mp whole
    refine List.forall_mem_cons.mpr ⟨?_, ih others⟩
    cases first with
    | whole all => exact all

theorem standIns_congr (same : g.childrenOf s = f.childrenOf s) : g.standIns s = f.standIns s := by
  rw [standIns, standIns, same]

theorem touches_congr (same : g.childrenOf s = f.childrenOf s) :
    g.touches row s = f.touches row s := by
  rw [touches, touches, standIns_congr same]

/-- Part of a row without repetition is what it has of the row. -/
theorem eq_filter_of_infix {xs ys : List Handle} (part : xs <:+: ys) (nodup : ys.Nodup) :
    xs = ys.filter (· ∈ xs) := by
  obtain ⟨ahead, behind, rfl⟩ := part
  obtain ⟨nodup, -, apart⟩ := List.nodup_append.mp nodup
  obtain ⟨-, -, apart'⟩ := List.nodup_append.mp nodup
  have none : ahead.filter (· ∈ xs) = [] := by
    rw [List.filter_eq_nil_iff]
    intro x left inside
    exact apart' x left x (of_decide_eq_true inside) rfl
  have none' : behind.filter (· ∈ xs) = [] := by
    rw [List.filter_eq_nil_iff]
    intro x right inside
    exact apart x (List.mem_append_right _ (of_decide_eq_true inside)) x right rfl
  have all : xs.filter (· ∈ xs) = xs := List.filter_eq_self.mpr (by simp)
  rw [List.filter_append, List.filter_append, none, none', all, List.nil_append, List.append_nil]

/-- A run that has all of each concept of which it has some is all that stands for these. -/
theorem Spans.eq_flatMap_standIns (wf : f.WellFormed) (spans : f.Spans items c row m)
    (whole : ∀ extent ∈ m.extents, extent = .whole) : row = m.concepts.flatMap f.standIns := by
  have each : ∀ s ∈ f.childrenOf c, (f.standIns s).filter (· ∈ row) =
      if f.touches row s then f.standIns s else [] := by
    intro s child
    split
    · next touched =>
      have mem : s ∈ m.concepts := spans.concepts ▸ List.mem_filter.mpr ⟨child, touched⟩
      have all := mem_of_covers spans.extents whole s mem
      obtain ⟨x, stands, inside⟩ := List.any_eq_true.mp touched
      rw [List.filter_eq_self]
      unfold standIns at stands ⊢
      split at stands
      · next leaf =>
        rw [if_pos leaf]
        obtain rfl := List.mem_singleton.mp stands
        simpa using inside
      · next inner =>
        rw [if_neg inner]
        exact fun x mem => decide_eq_true (all x mem)
    · next apart =>
      rw [List.filter_eq_nil_iff]
      intro x stands inside
      exact apart (List.any_eq_true.mpr ⟨x, stands, inside⟩)
  have gathered : ∀ hs : List Handle,
      (hs.flatMap fun s => if f.touches row s then f.standIns s else []) =
        (hs.filter (f.touches row)).flatMap f.standIns := by
    intro hs
    induction hs with
    | nil => rfl
    | cons s hs ih => cases touched : f.touches row s <;> simp [touched, ih]
  calc row = (f.row c).filter (· ∈ row) := eq_filter_of_infix spans.neighbours (nodup_row wf c)
    _ = (f.childrenOf c).flatMap fun s => (f.standIns s).filter (· ∈ row) := List.filter_flatMap
    _ = ((f.childrenOf c).filter (f.touches row)).flatMap f.standIns :=
      (List.flatMap_congr each).trans (gathered _)
    _ = m.concepts.flatMap f.standIns := by rw [spans.concepts]

/-! ### Where something has been lifted -/

theorem Wraps.childrenOf_eq (wraps : f.Wraps g new owner before run after)
    (live : f.contains h = true) (other : h ≠ owner) : g.childrenOf h = f.childrenOf h := by
  obtain ⟨c, live⟩ := contains_iff.mp live
  rw [childrenOf_of_get? (wraps.get?_of_get? live), childrenOf_of_get? live]
  exact if_neg other

theorem Wraps.childrenOf_new (wraps : f.Wraps g new owner before run after) :
    g.childrenOf new = run :=
  childrenOf_of_get? wraps.get?_new

/-- What has got a new concept over it are children of one concept only. -/
theorem Wraps.eq_owner (wf : f.WellFormed) (wraps : f.Wraps g new owner before run after)
    (children : ∀ s ∈ run, s ∈ f.childrenOf c) : c = owner := by
  obtain ⟨s, mem⟩ := List.exists_mem_of_ne_nil run wraps.run_ne_nil
  have parent := wf.mem_childrenOf.mp (children s mem)
  exact Option.some.inj (parent.symm.trans (wraps.parent?_of_mem wf mem))

/-- Where a run of children has been lifted, what was looked for is found to be the new concept. -/
theorem FoundAt.whole_of_part (wf : f.WellFormed) (wf' : g.WellFormed)
    (wraps : f.Wraps g new owner before run after) (rewords : f.Rewords e e')
    (found : f.FoundAt e c ⟨[owner], [.span before.length (before.length + run.length)]⟩) :
    g.FoundAt e' new (.whole new) := by
  generalize part : Match.mk _ _ = m at found
  cases found with
  | whole => cases part
  | @window items before' run' after' offers some proper children described =>
    simp only [Match.mk.injEq, List.cons.injEq, Extent.span.injEq, and_true] at part
    obtain ⟨rfl, start, stop⟩ := part
    have length : run.length = run'.length := by
      rw [← List.Forall₂.length_eq described]
      exact Nat.add_left_cancel (start ▸ stop)
    obtain ⟨same, -⟩ := List.append_inj (wraps.children.symm.trans children)
      (by rw [List.length_append, List.length_append, start, length])
    obtain ⟨-, rfl⟩ := List.append_inj same start
    obtain ⟨items', offers', each⟩ := rewords.exists_offers offers
    exact .whole (wraps.isDescribed_new wf wf' offers' (described.of_entails each))
  | spanning _ spans =>
    have several := spans.several
    rw [← part] at several
    exact absurd several (by simp)

/-- What is found of several concepts is a run that goes over from one into others. -/
theorem FoundAt.exists_spans (found : f.FoundAt e c m) (several : 2 ≤ m.concepts.length) :
    ∃ items row, e.Offers items ∧ f.Spans items c row m := by
  cases found with
  | whole => exact absurd several (by simp [Match.whole])
  | window => exact absurd several (by simp)
  | spanning offers spans => exact ⟨_, _, offers, spans⟩

/-- Where several whole children have been lifted, they are found again. -/
theorem FoundAt.neighbours (wf : f.WellFormed) (wf' : g.WellFormed)
    (wraps : f.Wraps g new owner before run after) (rewords : f.Rewords e e')
    (several : 2 ≤ run.length) (whole : ∀ extent ∈ extents, extent = .whole)
    (found : f.FoundAt e c ⟨run, extents⟩) : g.FoundAt e' new ⟨run, extents⟩ := by
  obtain ⟨items, row, offers, spans⟩ := found.exists_spans several
  obtain ⟨items', offers', each⟩ := rewords.exists_offers offers
  have members : ∀ s ∈ run, s ∈ f.childrenOf c ∧ f.touches row s = true := by
    have touched : run = (f.childrenOf c).filter (f.touches row) := spans.concepts
    intro s mem
    rw [touched] at mem
    exact List.mem_filter.mp mem
  obtain rfl : c = owner := wraps.eq_owner wf fun s mem => (members s mem).1
  have below : ∀ s ∈ run, f.Owns c s := fun s mem =>
    owns_of_parent? (wraps.parent?_of_mem wf mem)
  have same : ∀ s ∈ run, g.childrenOf s = f.childrenOf s := by
    intro s mem
    apply wraps.childrenOf_eq (below s mem).contains
    rintro rfl
    exact wf.not_owns_self s (below s mem)
  have stands := spans.eq_flatMap_standIns wf whole
  apply FoundAt.spanning offers'
  constructor
  case neighbours =>
    rw [Forest.row, wraps.childrenOf_new,
      List.flatMap_congr fun s mem => standIns_congr (same s mem), ← stands]
  case described =>
    apply (spans.described.of_entails each).congr
    intro x mem
    apply wraps.isDescribed_of_owns wf wf'
    rw [stands] at mem
    obtain ⟨s, inside, mem⟩ := List.mem_flatMap.mp mem
    rcases eq_or_parent?_of_mem_standIns wf mem with rfl | owned
    · exact below x inside
    · exact (below s inside).down owned
  case several => exact several
  case deep =>
    obtain ⟨x, mem, inner⟩ := spans.deep
    rw [wraps.childrenOf_new]
    exact ⟨x, mem, fun inside => inner (members x inside).1⟩
  case concepts =>
    rw [wraps.childrenOf_new, eq_comm, List.filter_eq_self]
    intro s mem
    rw [touches_congr (same s mem)]
    exact (members s mem).2
  case extents => exact forall₂_covers_congr spans.extents same

end Forest

end ConceptForest
