import ConceptForest.Proofs.Forest.Lifting

/-!
What a forest looks like after a lift.

`Groups` says all of it: one new concept, which has taken some concepts over and stands in a row of
children, some of those it has taken over associated with their former owners, and nothing else
changed.

* `groups_gathered` — gathering concepts is such a change, with nothing associated.
* `groups_pieced` — so it is when some of the concepts become pieces of others after that.
-/

namespace ConceptForest

namespace Forest

variable {f g : Forest} {h k owner : Handle} {members : List Handle} {place : Nat}

/-- The second forest has one more concept, which has taken over the members and stands among the
children of the owner, now the row. The pieces, each with another concept, have become pieces of
those. All else is as in the first forest. -/
structure Groups (f g : Forest) (members : List Handle) (owner : Handle) (row : List Handle)
    (pieces : List (Handle × Handle)) : Prop where
  next_eq : g.next = f.next + 1
  get?_new : g.get? f.next =
    some { NewConcept.toConcept { kind := .lifted } f.next with
      parent := some owner, children := members }
  get?_old : ∀ k, k ≠ f.next → g.get? k = (f.get? k).map fun c =>
    { c with
      parent := if k ∈ members then some f.next else c.parent
      children := if k = owner then row else c.children.filter (· ∉ members)
      associations :=
        c.associations ++ (pieces.filter (·.1 = k)).map fun (_, other) => ⟨.piece, other⟩
      associatedBy :=
        c.associatedBy ++ (pieces.filter (·.2 = k)).map fun (piece, _) => ⟨.piece, piece⟩ }

/-! ### Gathering -/

/-- A concept is told by what it is apart from its place, and by its place. -/
theorem Rewired.get?_eq (rewired : f.Rewired g) (k : Handle) :
    g.get? k = (f.get? k).map fun c =>
      { c with parent := g.parent? k, children := g.childrenOf k } := by
  have same := rewired.unplaced_eq k
  cases now : g.get? k with
  | none =>
    rw [now] at same
    rw [Option.map_eq_none_iff.mp same.symm]
    rfl
  | some d =>
    obtain ⟨c, was, unplaced⟩ := rewired.get? now
    rw [was, parent?_of_get? now, childrenOf_of_get? now]
    cases c
    cases d
    cases unplaced
    rfl

/-- A concept that is the same in another place is told by its new parent and its new children. -/
theorem Rewired.get?_eq_map (rewired : f.Rewired g) {parent : Concept → Option Handle}
    {children : Concept → List Handle}
    (place : ∀ c, f.get? k = some c → g.parent? k = parent c ∧ g.childrenOf k = children c) :
    g.get? k = (f.get? k).map fun c => { c with parent := parent c, children := children c } := by
  rw [rewired.get?_eq]
  apply Option.map_congr
  intro c live
  rw [(place c live).1, (place c live).2]

/-- No live concept has the next handle, so nothing is struck from a list of live concepts with
it. -/
theorem filter_ne_next {hs : List Handle} (live : ∀ h ∈ hs, f.contains h = true) :
    hs.filter (· != f.next) = hs := by
  rw [List.filter_eq_self]
  intro h mem
  exact bne_iff_ne.mpr (Nat.ne_of_lt (lt_next_of_contains (live h mem)))

theorem WellFormed.contains_child (wf : f.WellFormed) (mem : h ∈ f.childrenOf k) :
    f.contains h = true :=
  contains_of_parent? (wf.mem_childrenOf.mp mem)

theorem childrenOf_gathered (wf : f.WellFormed) (gathers : f.Gathers members owner place)
    (k : Handle) :
    (f.gathered members owner place).childrenOf k =
      if k = f.next then members
      else if k = owner then ((f.childrenOf k).filter (· ∉ members)).insertIdx place f.next
      else (f.childrenOf k).filter (· ∉ members) := by
  have old : owner ≠ f.next := Nat.ne_of_lt (lt_next_of_contains gathers.contains_owner)
  have without : ∀ k, ((f.created { kind := .lifted, children := members }).childrenOf k).filter
      (· != f.next) = if k = f.next then members else (f.childrenOf k).filter (· ∉ members) := by
    intro k
    rw [childrenOf_created wf gathers.admits]
    split
    · exact filter_ne_next gathers.admits.contains
    · rw [if_neg nofun, List.append_nil]
      apply filter_ne_next
      intro x mem
      exact wf.contains_child (List.mem_filter.mp mem).1
  rw [gathered, childrenOf_attached (wf.created gathers.admits) (by simp [gathers.contains_owner]),
    without, without, if_neg old]
  split
  · next same =>
    subst same
    rw [if_neg old]
    rfl
  · rfl

theorem groups_gathered (wf : f.WellFormed) (gathers : f.Gathers members owner place) :
    f.Groups (f.gathered members owner place) members owner
      (((f.childrenOf owner).filter (· ∉ members)).insertIdx place f.next) [] where
  next_eq := next_gathered f members owner place
  get?_new := by
    rw [(rewired_gathered f members owner place).get?_eq, get?_push, if_pos rfl,
      parent?_gathered wf gathers, if_pos rfl, childrenOf_gathered wf gathers, if_pos rfl]
    rfl
  get?_old k old := by
    rw [(rewired_gathered f members owner place).get?_eq, get?_push, if_neg old]
    cases live : f.get? k with
    | none => rfl
    | some c =>
      rw [parent?_gathered wf gathers, if_neg old, parent?_of_get? live,
        childrenOf_gathered wf gathers, if_neg old, childrenOf_of_get? live]
      simp only [Option.map_some, List.filter_nil, List.map_nil, List.append_nil]
      by_cases same : k = owner
      · subst same
        simp [childrenOf_of_get? live]
      · simp [same]

/-! ### Pieces -/

/-- Is the association known to the first concept of it? -/
def records (f : Forest) (source : Handle) (a : Association) : Bool :=
  (f.get? source).any (·.associations.contains a)

theorem associated_of_records {source target : Handle} {kind : AssociationKind}
    (known : f.records source ⟨kind, target⟩ = true) : f.associated source target kind = f :=
  if_pos known

theorem get?_associated_of_not_records {source target : Handle} {kind : AssociationKind}
    (new : f.records source ⟨kind, target⟩ = false) (k : Handle) :
    (f.associated source target kind).get? k = (f.get? k).map fun c =>
      { c with
        associations := c.associations ++ if source = k then [⟨kind, target⟩] else []
        associatedBy := c.associatedBy ++ if target = k then [⟨kind, source⟩] else [] } := by
  have two : f.associated source target kind =
      (f.update source fun c => { c with associations := c.associations ++ [⟨kind, target⟩] }).update
        target fun c => { c with associatedBy := c.associatedBy ++ [⟨kind, source⟩] } :=
    if_neg (Bool.not_eq_true _ ▸ new)
  rw [two, get?_update, get?_update]
  cases f.get? k with
  | none => simp
  | some c =>
    by_cases from_here : source = k <;> by_cases to_here : target = k <;>
      simp [from_here, to_here, eq_comm (a := k)]

/-- An association of one concept is nothing to the associations of another one. -/
theorem records_associated_of_ne {source target : Handle} {kind : AssociationKind}
    (ne : source ≠ h) (a : Association) :
    (f.associated source target kind).records h a = f.records h a := by
  cases known : f.records source ⟨kind, target⟩ with
  | true => rw [associated_of_records known]
  | false =>
    rw [records, get?_associated_of_not_records known, records]
    cases f.get? h <;> simp [ne]

/-- The pairs of which the one is not yet known to be a piece of the other. -/
def unrecorded (f : Forest) (pairs : List (Handle × Handle)) : List (Handle × Handle) :=
  pairs.filter fun pair => !f.records pair.1 ⟨.piece, pair.2⟩

theorem unrecorded_associated {source target : Handle} {pairs : List (Handle × Handle)}
    (fresh : ∀ pair ∈ pairs, source ≠ pair.1) :
    (f.associated source target .piece).unrecorded pairs = f.unrecorded pairs := by
  apply List.filter_congr
  intro pair mem
  rw [records_associated_of_ne (fresh pair mem)]

/-- Concepts become pieces of others, each of one, where they were not before. -/
theorem get?_pieced {pairs : List (Handle × Handle)} (nodup : (pairs.map Prod.fst).Nodup)
    (k : Handle) :
    (f.pieced pairs).get? k = (f.get? k).map fun c =>
      { c with
        associations := c.associations ++
          ((f.unrecorded pairs).filter (·.1 = k)).map fun (_, other) => ⟨.piece, other⟩
        associatedBy := c.associatedBy ++
          ((f.unrecorded pairs).filter (·.2 = k)).map fun (piece, _) => ⟨.piece, piece⟩ } := by
  induction pairs generalizing f with
  | nil => simp [pieced, unrecorded]
  | cons pair pairs ih =>
    obtain ⟨source, target⟩ := pair
    obtain ⟨once, nodup⟩ := List.nodup_cons.mp nodup
    have fresh : ∀ pair ∈ pairs, source ≠ pair.1 := by
      rintro pair mem rfl
      exact once (List.mem_map.mpr ⟨pair, mem, rfl⟩)
    refine (ih nodup).trans ?_
    rw [unrecorded_associated fresh]
    cases known : f.records source ⟨.piece, target⟩ with
    | true => simp [associated_of_records known, unrecorded, known]
    | false =>
      have one_more : f.unrecorded ((source, target) :: pairs) =
          (source, target) :: f.unrecorded pairs := by
        simp [unrecorded, known]
      rw [get?_associated_of_not_records known, Option.map_map, one_more]
      apply Option.map_congr
      intro c _
      by_cases from_here : source = k <;> by_cases to_here : target = k <;>
        simp [from_here, to_here]

theorem groups_pieced (wf : f.WellFormed) (gathers : f.Gathers members owner place)
    {pairs : List (Handle × Handle)} (nodup : (pairs.map Prod.fst).Nodup)
    (old : ∀ pair ∈ pairs, pair.1 ≠ f.next ∧ pair.2 ≠ f.next) :
    f.Groups ((f.gathered members owner place).pieced pairs) members owner
      (((f.childrenOf owner).filter (· ∉ members)).insertIdx place f.next)
      (f.unrecorded pairs) := by
  have groups := groups_gathered wf gathers
  have same : (f.gathered members owner place).unrecorded pairs = f.unrecorded pairs := by
    apply List.filter_congr
    intro pair mem
    rw [records, groups.get?_old pair.1 (old pair mem).1, records]
    cases f.get? pair.1 <;> simp
  have others : ∀ {p : Handle × Handle → Handle}, (∀ pair ∈ pairs, p pair ≠ f.next) →
      (f.unrecorded pairs).filter (p · = f.next) = [] := by
    intro p old
    rw [List.filter_eq_nil_iff]
    intro pair mem
    simpa using old pair (List.mem_of_mem_filter mem)
  constructor
  case next_eq => rw [(kept_pieced _ pairs).next_eq, groups.next_eq]
  case get?_new =>
    rw [get?_pieced nodup, groups.get?_new, same, others fun pair mem => (old pair mem).1,
      others fun pair mem => (old pair mem).2]
    rfl
  case get?_old =>
    intro k ne
    rw [get?_pieced nodup, groups.get?_old k ne, same, Option.map_map]
    apply Option.map_congr
    intro c _
    simp

end Forest

end ConceptForest
