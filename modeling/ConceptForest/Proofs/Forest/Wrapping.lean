import ConceptForest.Proofs.Forest.Grouping
import ConceptForest.Proofs.Forest.Parts
import ConceptForest.Proofs.Forest.Regrouping

/-!
A new concept over neighbours.

`Wraps` says all of what a forest becomes when a new concept is put over neighbours among the
children of a concept.

* `wraps_of_groups` — what gathers neighbours does nothing else.
* `Wraps.regroups` — what concepts own is only grouped anew.
* `Wraps.isDescribed_new` — what describes the neighbours one by one describes the new concept.
-/

namespace ConceptForest

namespace Expansion

variable {e : Expansion} {items : List Expansion} {h k : Handle} {c d : Concept} {ts us : List Tree}

/-- The items of a sequence that the expansion offers describe the children of what it describes. -/
theorem describes_of_offers {t : Tree} (offers : e.Offers items)
    (described : eachDescribes items t.children = true) : e.describes t = true := by
  induction offers with
  | sequence => exact described
  | choice alternative _ ih =>
    rw [describes, anyDescribes_eq_any, List.any_eq_true]
    exact ⟨_, alternative, ih⟩

theorem eachDescribes_congr
    (alike : List.Forall₂ (fun t u => ∀ e : Expansion, e.describes u = e.describes t) ts us)
    (es : List Expansion) : eachDescribes es us = eachDescribes es ts := by
  induction alike generalizing es with
  | nil => rfl
  | cons first _ ih =>
    cases es with
    | nil => rfl
    | cons e es => rw [eachDescribes, eachDescribes, first, ih]

/-- What describes a concept hangs on its texts and on what describes its children. -/
theorem describes_congr (texts : d.representations = c.representations)
    (alike : List.Forall₂ (fun t u => ∀ e : Expansion, e.describes u = e.describes t) ts us) :
    (e : Expansion) → e.describes (.node k d us) = e.describes (.node h c ts)
  | leaf text => by simp only [describes, Tree.concept, texts]
  | sequence es => eachDescribes_congr alike es
  | choice es => by
    rw [describes, describes, anyDescribes_eq_any, anyDescribes_eq_any, Bool.eq_iff_iff,
      List.any_eq_true, List.any_eq_true]
    apply exists_congr
    intro e
    apply and_congr_right
    intro alternative
    rw [describes_congr texts alike e]

end Expansion

namespace Forest

variable {f g : Forest} {h new owner : Handle} {e : Expansion} {t : Tree} {ts : List Tree}
  {before members run after : List Handle} {items : List Expansion}

/-- The second forest has one more concept, which has been put over neighbours: it has the place
that they had among the children of the owner, and has them for its own. Nothing else has
changed. -/
structure Wraps (f g : Forest) (new owner : Handle) (before run after : List Handle) : Prop where
  children : f.childrenOf owner = before ++ run ++ after
  run_ne_nil : run ≠ []
  fresh : f.get? new = none
  get?_new : g.get? new = some { NewConcept.toConcept { kind := .lifted } new with
    parent := some owner, children := run }
  get?_old : ∀ k, k ≠ new → g.get? k = (f.get? k).map fun c =>
    { c with
      parent := if k ∈ run then some new else c.parent
      children := if k = owner then before ++ [new] ++ after else c.children }

/-- What has taken over neighbours has taken nothing from other concepts than their owner. -/
theorem wraps_of_groups (wf : f.WellFormed)
    (groups : f.Groups g members owner (before ++ [f.next] ++ after) [])
    (children : f.childrenOf owner = before ++ members ++ after) (some : members ≠ []) :
    f.Wraps g f.next owner before members after where
  children := children
  run_ne_nil := some
  fresh := get?_eq_none_of_next_le (Nat.le_refl _)
  get?_new := groups.get?_new
  get?_old k old := by
    rw [groups.get?_old k old]
    apply Option.map_congr
    intro c live
    have apart : k ≠ owner → ∀ x ∈ c.children, x ∉ members := by
      intro other x mem inside
      have owned : f.parent? x = .some k := by
        rw [← wf.mem_childrenOf, childrenOf_of_get? live]
        exact mem
      have owned' : f.parent? x = .some owner := by
        rw [← wf.mem_childrenOf, children]
        simp [inside]
      exact other (Option.some.inj (owned.symm.trans owned'))
    by_cases same : k = owner
    · simp [same]
    · simpa [same] using apart same

theorem Wraps.get?_of_get? (wraps : f.Wraps g new owner before run after) {c : Concept}
    (live : f.get? h = some c) : g.get? h = some { c with
      parent := if h ∈ run then some new else c.parent
      children := if h = owner then before ++ [new] ++ after else c.children } := by
  have old : h ≠ new := by
    rintro rfl
    cases wraps.fresh.symm.trans live
  rw [wraps.get?_old h old, live]
  rfl

/-! ### What concepts own -/

/-- Concepts that keep their contexts, one after the other, make a row that is grouped anew. -/
theorem exists_row (each : ∀ t ∈ ts, ∃ d us, g.Shows (.node t.handle d us) ∧
      d.context = t.concept.context ∧ Tree.Regrouped t.children us) :
    ∃ us, us.map Tree.handle = ts.map Tree.handle ∧ (∀ u ∈ us, g.Shows u) ∧
      Tree.Regrouped ts us := by
  induction ts with
  | nil => exact ⟨[], rfl, by simp, .nil⟩
  | cons t ts ih =>
    obtain ⟨first, others⟩ := List.forall_mem_cons.mp each
    obtain ⟨d, below, shows, context, inside⟩ := first
    obtain ⟨us, handles, shown, rest⟩ := ih others
    refine ⟨.node t.handle d below :: us, ?_, List.forall_mem_cons.mpr ⟨shows, shown⟩, ?_⟩
    · rw [List.map_cons, List.map_cons, handles]
      rfl
    · cases t with
      | node h c ts => exact .cons context inside rest

/-- Where a new concept is put over neighbours, what a concept owns is only grouped anew. -/
theorem Wraps.regroups (wraps : f.Wraps g new owner before run after) : f.Regroups g := by
  obtain ⟨lifted, top, bare, gathered⟩ : ∃ lifted, g.get? new = some lifted ∧
      lifted.context = {} ∧ lifted.children = run := ⟨_, wraps.get?_new, rfl, rfl⟩
  intro t shows
  induction shows with
  | @node h c ts live handles _ ih =>
    have now := wraps.get?_of_get? live
    by_cases same : h = owner
    · subst same
      rw [← childrenOf_of_get? live, wraps.children] at handles
      obtain ⟨front, last, rfl, front_eq, rfl⟩ := List.map_eq_append_iff.mp handles
      obtain ⟨first, middle, rfl, rfl, rfl⟩ := List.map_eq_append_iff.mp front_eq
      rw [List.forall_mem_append, List.forall_mem_append] at ih
      obtain ⟨us, first_eq, first_shown, ahead⟩ := exists_row ih.1.1
      obtain ⟨vs, middle_eq, middle_shown, inside⟩ := exists_row ih.1.2
      obtain ⟨ws, last_eq, last_shown, behind⟩ := exists_row ih.2
      have shown : g.Shows (.node new lifted vs) :=
        .node top (middle_eq.trans gathered.symm) middle_shown
      refine ⟨_, us ++ .node new lifted vs :: ws, .node now ?_ ?_, rfl, ?_⟩
      · rw [List.map_append, List.map_cons, first_eq, last_eq]
        simp [Tree.handle]
      · rw [List.forall_mem_append, List.forall_mem_cons]
        exact ⟨first_shown, shown, last_shown⟩
      · show Tree.Regrouped (first ++ middle ++ last) _
        rw [List.append_assoc]
        exact ahead.append (.group bare (by simpa using wraps.run_ne_nil) inside behind)
    · obtain ⟨us, us_eq, shown, regrouped⟩ := exists_row ih
      refine ⟨_, us, .node now ?_ shown, rfl, regrouped⟩
      simp only [us_eq, handles, if_neg same]

/-! ### What concepts are described by -/

/-- Concepts that are described as they were make a row that is described as it was. -/
theorem exists_row_alike {ts : List Tree} (each : ∀ t ∈ ts, ∃ u, g.Shows u ∧
      u.handle = t.handle ∧ ∀ e : Expansion, e.describes u = e.describes t) :
    ∃ us, us.map Tree.handle = ts.map Tree.handle ∧ (∀ u ∈ us, g.Shows u) ∧
      List.Forall₂ (fun t u => ∀ e : Expansion, e.describes u = e.describes t) ts us := by
  induction ts with
  | nil => exact ⟨[], rfl, nofun, .nil⟩
  | cons t ts ih =>
    obtain ⟨⟨u, shows, same, alike⟩, others⟩ := List.forall_mem_cons.mp each
    obtain ⟨us, handles, shown, rest⟩ := ih others
    refine ⟨u :: us, ?_, List.forall_mem_cons.mpr ⟨shows, shown⟩, .cons alike rest⟩
    rw [List.map_cons, List.map_cons, same, handles]

/-- What does not hold the owner is described as before. -/
theorem Wraps.exists_shows (wraps : f.Wraps g new owner before run after) (shows : f.Shows t)
    (apart : owner ∉ t.handles) :
    ∃ u, g.Shows u ∧ u.handle = t.handle ∧ ∀ e : Expansion, e.describes u = e.describes t := by
  induction shows with
  | @node h c ts live children _ ih =>
    rw [Tree.handles_node, List.mem_cons, not_or] at apart
    obtain ⟨us, handles, shown, alike⟩ := exists_row_alike fun s mem => ih s mem fun inside =>
      apart.2 (List.mem_flatMap.mpr ⟨s, mem, inside⟩)
    have now := wraps.get?_of_get? live
    rw [if_neg (Ne.symm apart.1)] at now
    exact ⟨.node h _ us, .node now (handles.trans children) shown, rfl,
      Expansion.describes_congr rfl alike⟩

/-- What the owner owns is described as before when a new concept has been put over some of it. -/
theorem Wraps.isDescribed_of_owns (wf : f.WellFormed) (wf' : g.WellFormed)
    (wraps : f.Wraps g new owner before run after) (above : f.Owns owner h) (e : Expansion) :
    g.isDescribed e h = f.isDescribed e h := by
  obtain ⟨t, -, shows, rfl⟩ := exists_tree wf above.contains
  -- the one concept that has got other children is above these concepts, not below them
  have apart : owner ∉ t.handles := by
    rw [shows.mem_handles_iff wf]
    rintro (same | below)
    · exact wf.not_owns_self _ (same ▸ above)
    · exact wf.not_owns_self _ (above.trans below)
  obtain ⟨u, shown, same, alike⟩ := wraps.exists_shows shows apart
  rw [shows.isDescribed wf, ← same, shown.isDescribed wf', alike]

theorem Wraps.parent?_of_mem (wf : f.WellFormed) (wraps : f.Wraps g new owner before run after)
    (mem : h ∈ run) : f.parent? h = some owner := by
  rw [← wf.mem_childrenOf, wraps.children]
  simp [mem]

theorem DescribesEach.congr (described : f.DescribesEach items run)
    (same : ∀ h ∈ run, ∀ e, g.isDescribed e h = f.isDescribed e h) : g.DescribesEach items run := by
  induction described with
  | nil => exact .nil
  | cons first _ ih =>
    obtain ⟨one, others⟩ := List.forall_mem_cons.mp same
    exact .cons ((one _).trans first) (ih others)

/-- What describes neighbours one by one describes a new concept that has been put over them. -/
theorem Wraps.isDescribed_new (wf : f.WellFormed) (wf' : g.WellFormed)
    (wraps : f.Wraps g new owner before run after) (offers : e.Offers items)
    (described : f.DescribesEach items run) : g.isDescribed e new = true := by
  have inside := described.congr fun h mem =>
    wraps.isDescribed_of_owns wf wf' (owns_of_parent? (wraps.parent?_of_mem wf mem))
  obtain ⟨t, -, shows, rfl⟩ := exists_tree wf' (contains_of_get? wraps.get?_new)
  rw [shows.isDescribed wf']
  apply Expansion.describes_of_offers offers
  rw [← describesEach_iff wf' fun s => shows.of_mem_children, shows.map_handle_children,
    childrenOf_of_get? wraps.get?_new]
  exact inside

end Forest

end ConceptForest
