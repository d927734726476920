import ConceptForest.Proofs.Forest.Lifts
import ConceptForest.Proofs.Forest.Wrapping

/-!
Lifting what a search has found.

What is found and can be lifted is a whole concept or neighbours among the children of one concept.
So a lift only puts a new concept over neighbours, and the content of all concepts stays the same.

* `lift_run`, `lift_neighbours` — lifting neighbours puts a new concept over them.
* `FoundAt.unitAt` — what is found and can be lifted is a whole concept or neighbours.
* `lift_found_sameContent` — so a lift changes the content of no concept, in all forests that
  requests have made of the empty one.
-/

namespace ConceptForest

namespace Forest

variable {f : Forest} {c : Handle} {e : Expansion} {m : Match}
  {before members after : List Handle}

theorem exists_lift_of_liftable (wf : f.WellFormed) (liftable : f.Liftable m) :
    ∃ k g, Edit.lift m f = .ok k g ∧ f.LiftsTo m k g := by
  rcases lift_granted_or_refused wf m with ⟨-, granted⟩ | ⟨refused, -⟩
  · exact granted
  · exact absurd liftable refused

theorem lift_whole (wf : f.WellFormed) (live : f.contains c = true) :
    Edit.lift (.whole c) f = .ok c f := by
  have liftable : f.Liftable (.whole c) :=
    ⟨List.cons_ne_nil _ _, rfl, by simpa [Match.whole] using live, .inl ⟨c, rfl⟩⟩
  obtain ⟨k, g, granted, lifts⟩ := exists_lift_of_liftable wf liftable
  rw [granted]
  generalize whole : Match.whole c = m at lifts
  cases lifts with
  | whole =>
    cases whole
    rfl
  | run => cases whole
  | several several =>
    cases whole
    simp at several

theorem lift_run (wf : f.WellFormed) (children : f.childrenOf c = before ++ members ++ after)
    (some : members ≠ []) :
    ∃ g, Edit.lift ⟨[c], [.span before.length (before.length + members.length)]⟩ f = .ok f.next g ∧
      f.Wraps g f.next c before members after := by
  have length : 0 < members.length := List.length_pos_of_ne_nil some
  have live : f.contains c = true := by
    obtain ⟨x, mem⟩ := List.exists_mem_of_ne_nil members some
    exact contains_of_mem_childrenOf (h := x) (by simp [children, mem])
  have within : before.length + members.length ≤ (f.childrenOf c).length := by
    simp only [children, List.length_append]
    omega
  have liftable : f.Liftable ⟨[c], [.span before.length (before.length + members.length)]⟩ :=
    ⟨List.cons_ne_nil _ _, rfl, by simpa using live,
      .inr (.inl ⟨c, _, _, rfl, Nat.lt_add_of_pos_right length, within⟩)⟩
  obtain ⟨k, g, granted, lifts⟩ := exists_lift_of_liftable wf liftable
  cases lifts with
  | run groups =>
    refine ⟨g, granted, ?_⟩
    have front : (f.childrenOf c).take (before.length + members.length) = before ++ members := by
      rw [children, ← List.length_append, List.take_left]
    have start : (f.childrenOf c).take before.length = before := by
      rw [children, List.append_assoc, List.take_left]
    have rear : (f.childrenOf c).drop (before.length + members.length) = after := by
      rw [children, ← List.length_append, List.drop_left]
    rw [front, start, rear, List.drop_left] at groups
    exact wraps_of_groups wf groups children some
  | several several => simp at several

/-- Where the first element of a part of a list is, there the part begins. -/
theorem eq_append_of_first_mem {first : Handle} {before' after' : List Handle}
    (same : before' ++ first :: after' = before ++ members ++ after) (mem : first ∈ members)
    (ahead : ∀ x ∈ before, x ∉ members) (ahead' : ∀ x ∈ before', x ∉ members) :
    before' = before ∧ first :: after' = members ++ after := by
  have start : ∀ {xs ys : List Handle} {y : Handle}, (∀ x ∈ xs, x ∉ members) → y ∈ members →
      (xs ++ y :: ys).takeWhile (· ∉ members) = xs := by
    intro xs ys y none inside
    rw [List.takeWhile_append_of_pos (by simpa using none), List.takeWhile_cons_of_neg (by simpa),
      List.append_nil]
  obtain ⟨y, rest, rfl⟩ := List.exists_cons_of_ne_nil (List.ne_nil_of_mem mem)
  have begins := congrArg (List.takeWhile (· ∉ y :: rest)) same
  rw [start ahead' mem, List.append_assoc, List.cons_append, start ahead (by simp)] at begins
  subst begins
  rw [List.append_assoc, List.append_cancel_left_eq] at same
  exact ⟨rfl, same⟩

/-- Several whole neighbours can become one concept. -/
theorem liftable_of_neighbours (wf : f.WellFormed) {extents : List Extent}
    (children : f.childrenOf c = before ++ members ++ after) (several : 2 ≤ members.length)
    (length : members.length = extents.length) (whole : ∀ extent ∈ extents, extent = .whole) :
    f.Liftable ⟨members, extents⟩ := by
  have inside : ∀ h ∈ members, h ∈ f.childrenOf c := by
    intro h mem
    simp [children, mem]
  have nodup := wf.nodup_childrenOf c
  rw [children, List.append_assoc] at nodup
  have gatherable : f.Gatherable members :=
    ⟨(List.nodup_append.mp (List.nodup_append.mp nodup).2.1).1,
      fun a mem b mem' => not_owns_of_mem_childrenOf wf (inside a mem) (inside b mem'), c,
      fun h mem => owns_of_parent? (wf.mem_childrenOf.mp (inside h mem))⟩
  exact ⟨List.ne_nil_of_length_pos (Nat.lt_of_lt_of_le Nat.zero_lt_two several), length,
    fun h mem => contains_of_parent? (wf.mem_childrenOf.mp (inside h mem)),
    .inr (.inr ⟨length ▸ several, whole, gatherable⟩)⟩

theorem strays_eq_nil (owned : ∀ h ∈ members, f.parent? h = some c) : f.strays members c = [] := by
  rw [List.eq_nil_iff_forall_not_mem]
  intro pair mem
  obtain ⟨mem, parent, other⟩ := mem_strays.mp mem
  exact other (Option.some.inj (parent.symm.trans (owned _ mem)))

theorem lift_neighbours (wf : f.WellFormed) {extents : List Extent}
    (children : f.childrenOf c = before ++ members ++ after) (several : 2 ≤ members.length)
    (length : members.length = extents.length) (whole : ∀ extent ∈ extents, extent = .whole) :
    ∃ g, Edit.lift ⟨members, extents⟩ f = .ok f.next g ∧
      f.Wraps g f.next c before members after := by
  have owned : ∀ h ∈ members, f.parent? h = some c := by
    intro h mem
    rw [← wf.mem_childrenOf, children]
    simp [mem]
  have nodup := wf.nodup_childrenOf c
  rw [children] at nodup
  obtain ⟨nodup, -, behind⟩ := List.nodup_append.mp nodup
  obtain ⟨-, -, ahead⟩ := List.nodup_append.mp nodup
  have liftable := liftable_of_neighbours wf children several length whole
  obtain ⟨k, g, granted, lifts⟩ := exists_lift_of_liftable wf liftable
  cases lifts with
  | whole => simp at several
  | run => simp at several
  | @several _ _ owner before' first after' _ _ owns lowest children' untouched touched groups =>
    refine ⟨g, granted, ?_⟩
    obtain ⟨h, mem⟩ := List.exists_mem_of_ne_nil members liftable.concepts_ne_nil
    -- No owner of all of them is nearer than their parent, and the parent is none that is farther.
    obtain rfl : owner = c := by
      rcases (owns h mem).up (owned h mem) with same | above
      · exact same
      · rcases lowest c fun h mem => owns_of_parent? (owned h mem) with same | below
        · exact same.symm
        · exact absurd (above.trans below) (wf.not_owns_self owner)
    have met : first ∈ members := by
      obtain ⟨h, mem, same | owns⟩ := touched
      · exact same ▸ mem
      · have child : first ∈ f.childrenOf owner := by simp [children']
        have sibling := wf.mem_childrenOf.mpr (owned h mem)
        exact absurd owns (not_owns_of_mem_childrenOf wf child sibling)
    obtain ⟨rfl, rest⟩ := eq_append_of_first_mem (children'.symm.trans children) met
      (fun x left inside => ahead x left x inside rfl)
      fun x left inside => (untouched x left x inside).1 rfl
    have left : (members ++ after).filter (· ∉ members) = after := by
      rw [List.filter_append, List.filter_eq_nil_iff.mpr (by simp), List.filter_eq_self.mpr,
        List.nil_append]
      intro x inside
      exact decide_eq_true fun mem => behind x (List.mem_append_right _ mem) x inside rfl
    rw [rest, left, strays_eq_nil owned] at groups
    exact wraps_of_groups wf groups children liftable.concepts_ne_nil

/-- What an expansion has found at a concept and can become one: the concept as a whole, a run of
its children that the expansion describes, or several of its children as a whole, one behind the
other. -/
inductive UnitAt (f : Forest) (e : Expansion) (c : Handle) : Match → Prop where
  | whole : UnitAt f e c (.whole c)
  | run {items : List Expansion} {before run after : List Handle} (offers : e.Offers items)
    (described : f.DescribesEach items run) (some : run ≠ [])
    (children : f.childrenOf c = before ++ run ++ after) :
    UnitAt f e c ⟨[c], [.span before.length (before.length + run.length)]⟩
  | neighbours {before run after : List Handle} {extents : List Extent}
    (children : f.childrenOf c = before ++ run ++ after) (several : 2 ≤ run.length)
    (length : run.length = extents.length) (whole : ∀ extent ∈ extents, extent = .whole) :
    UnitAt f e c ⟨run, extents⟩

/-- Whatever is found and can be lifted is a unit. -/
theorem FoundAt.unitAt (wf : f.WellFormed) (live : f.contains c = true) (found : f.FoundAt e c m)
    (liftable : m.isLiftable = true) : f.UnitAt e c m := by
  cases found with
  | whole => exact .whole
  | @window items before run after offers some proper children described =>
    have length : items.length = run.length := List.Forall₂.length_eq described
    rw [length] at some ⊢
    exact .run offers described (List.ne_nil_of_length_pos some) children
  | @spanning items run m offers spans =>
    obtain ⟨t, -, shows, rfl⟩ := exists_tree wf live
    obtain ⟨before, after, children⟩ := spans.concepts_infix wf shows
    exact .neighbours children.symm spans.several spans.extents.length_eq
      (whole_of_isLiftable liftable spans.several)

/-- A unit is lifted, and what concepts own is only grouped anew. -/
theorem UnitAt.exists_lift (wf : f.WellFormed) (live : f.contains c = true)
    (unit : f.UnitAt e c m) : ∃ k g, Edit.lift m f = .ok k g ∧ f.Regroups g := by
  cases unit with
  | whole => exact ⟨c, f, lift_whole wf live, .refl f⟩
  | run _ _ some children =>
    obtain ⟨g, granted, wraps⟩ := lift_run wf children some
    exact ⟨f.next, g, granted, wraps.regroups⟩
  | neighbours children several length whole =>
    obtain ⟨g, granted, wraps⟩ := lift_neighbours wf children several length whole
    exact ⟨f.next, g, granted, wraps.regroups⟩

/-- Lifting what a search under a live concept has found changes the content of no concept, in any
forest that requests have made of the empty one. -/
theorem lift_found_sameContent (requests : List Request) (e : Expansion) (r : Handle)
    (ms : List Match) (m : Match)
    (owned : (({} : Forest).afterAll requests).DefinitionsOwned)
    (searched : (({} : Forest).afterAll requests).parts e r = .ok ms) (found : m ∈ ms)
    (liftable : m.isLiftable = true) :
    let f := ({} : Forest).afterAll requests
    ∃ k g, Edit.lift m f = .ok k g ∧ ∀ x, f.contains x = true → SameContent f g x := by
  intro f
  have wf : f.WellFormed := (evolves_afterAll wellFormed_empty requests).wellFormed
  have live : f.contains r = true := contains_of_parts searched
  obtain ⟨ms', searched', -, all⟩ := exists_parts wf e live
  obtain rfl := Except.ok.inj (searched'.symm.trans searched)
  obtain ⟨c, below, found⟩ := (all m).mp found
  have live' : f.contains c = true := below.elim (fun same => same ▸ live) Owns.contains
  obtain ⟨k, g, granted, regroups⟩ := (found.unitAt wf live' liftable).exists_lift wf live'
  have wf' : g.WellFormed := by
    have after := (evolves_after wf (.lift m)).wellFormed
    rwa [Request.after, leftBy_of_ok granted] at after
  exact ⟨k, g, granted, fun x live => regroups.sameContent wf wf' owned live⟩

/-- The first two symbols of a statement become one, though the definition of the first looks up a
name. -/
theorem lift_found_sameContent_symbols :
    let symbol (text : String) : Request := .create
      { kind := .symbol, parent := some 1, representations := [⟨text, .inputMorphism⟩] }
    let f := ({} : Forest).afterAll [.create { kind := .root },
      .create { kind := .statement, parent := some 0 }, symbol "a", symbol "b", symbol "c",
      .bindDefinition 2 (.script ⟨2, "expr", "x", .ok ["x"]⟩), .bind 3 "x" (.literal "1")]
    let e : Expansion := .sequence [.leaf "a", .leaf "b"]
    let m : Match := ⟨[1], [.span 0 2]⟩
    f.DefinitionsOwned ∧ f.parts e 0 = .ok [m] ∧ m ∈ [m] ∧ m.isLiftable = true ∧
      ∃ k g, Edit.lift m f = .ok k g ∧ ∀ x, f.contains x = true → SameContent f g x := by
  intro symbol f e m
  have owned : f.DefinitionsOwned := by decide +kernel
  have searched : f.parts e 0 = .ok [m] := by decide +kernel
  have found : m ∈ [m] := List.mem_singleton_self m
  exact ⟨owned, searched, found, rfl,
    lift_found_sameContent _ e 0 [m] m owned searched found rfl⟩

end Forest

end ConceptForest
