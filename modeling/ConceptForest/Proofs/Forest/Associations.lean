import ConceptForest.Proofs.Forest.Grouping
import ConceptForest.Proofs.Forest.Requests

/-!
Associations, from both ends.

An association is kept by the concept that is associated and by the one that it is associated with.
Whatever is asked of a forest, and whether it is granted or refused, the two agree, and neither has
an association twice (`Linked`).

* `AssociatedAlike` — the edits that leave all associations as they are: moves, new concepts,
  buildings, and changes of names, definitions and texts.
* `get?_released` — what stays of a concept when others are released: its associations with the
  concepts that stay, and all that has nothing to do with associations.
* `linked_after`, `linked_afterAll` — the step and the run.
-/

namespace ConceptForest

open Grammar (Expression)
open Script (Registry)

namespace Forest

variable {e f g : Forest} {h k source target : Handle} {c : Concept} {kind : AssociationKind}

/-- The associations of a concept with others; a concept that is not live has none. -/
def associationsOf (f : Forest) (h : Handle) : List Association :=
  ((f.get? h).map Concept.associations).getD []

/-- The associations of others with a concept. -/
def associatedByOf (f : Forest) (h : Handle) : List Association :=
  ((f.get? h).map Concept.associatedBy).getD []

/-- Every association is known to both concepts of it, and to neither of them twice. -/
structure Linked (f : Forest) : Prop where
  mem_iff : ∀ kind a b, ⟨kind, b⟩ ∈ f.associationsOf a ↔ ⟨kind, a⟩ ∈ f.associatedByOf b
  nodup_associationsOf : ∀ a, (f.associationsOf a).Nodup
  nodup_associatedByOf : ∀ b, (f.associatedByOf b).Nodup

theorem associationsOf_of_get? (live : f.get? h = some c) : f.associationsOf h = c.associations := by
  simp [associationsOf, live]

theorem associatedByOf_of_get? (live : f.get? h = some c) : f.associatedByOf h = c.associatedBy := by
  simp [associatedByOf, live]

theorem exists_of_mem_associationsOf {a : Association} (mem : a ∈ f.associationsOf h) :
    ∃ c, f.get? h = some c ∧ a ∈ c.associations := by
  cases live : f.get? h with
  | none => simp [associationsOf, live] at mem
  | some c => exact ⟨c, rfl, associationsOf_of_get? live ▸ mem⟩

theorem exists_of_mem_associatedByOf {a : Association} (mem : a ∈ f.associatedByOf h) :
    ∃ c, f.get? h = some c ∧ a ∈ c.associatedBy := by
  cases live : f.get? h with
  | none => simp [associatedByOf, live] at mem
  | some c => exact ⟨c, rfl, associatedByOf_of_get? live ▸ mem⟩

/-- Both concepts of an association are live. -/
theorem Linked.contains_ends (linked : f.Linked) (mem : ⟨kind, k⟩ ∈ f.associationsOf h) :
    f.contains h = true ∧ f.contains k = true := by
  obtain ⟨c, live, -⟩ := exists_of_mem_associationsOf mem
  obtain ⟨d, there, -⟩ := exists_of_mem_associatedByOf ((linked.mem_iff kind h k).mp mem)
  exact ⟨contains_of_get? live, contains_of_get? there⟩

/-! ### Edits that leave the associations as they are -/

/-- Every concept has the same associations in both forests. -/
structure AssociatedAlike (f g : Forest) : Prop where
  associationsOf_eq : ∀ k, g.associationsOf k = f.associationsOf k
  associatedByOf_eq : ∀ k, g.associatedByOf k = f.associatedByOf k

namespace AssociatedAlike

theorem refl (f : Forest) : f.AssociatedAlike f :=
  ⟨fun _ => rfl, fun _ => rfl⟩

theorem trans (first : e.AssociatedAlike f) (second : f.AssociatedAlike g) :
    e.AssociatedAlike g where
  associationsOf_eq k := (second.associationsOf_eq k).trans (first.associationsOf_eq k)
  associatedByOf_eq k := (second.associatedByOf_eq k).trans (first.associatedByOf_eq k)

theorem linked (alike : f.AssociatedAlike g) (linked : f.Linked) : g.Linked where
  mem_iff kind a b := by
    rw [alike.associationsOf_eq, alike.associatedByOf_eq]
    exact linked.mem_iff kind a b
  nodup_associationsOf a := alike.associationsOf_eq a ▸ linked.nodup_associationsOf a
  nodup_associatedByOf b := alike.associatedByOf_eq b ▸ linked.nodup_associatedByOf b

/-- A concept that is not changed but for its place has the associations it had. -/
theorem of_unplaced
    (same : ∀ k, (g.get? k).map Concept.unplaced = (f.get? k).map Concept.unplaced) :
    f.AssociatedAlike g := by
  have unplaced : ∀ (f : Forest) k,
      f.associationsOf k = (((f.get? k).map Concept.unplaced).map Concept.associations).getD [] ∧
        f.associatedByOf k =
          (((f.get? k).map Concept.unplaced).map Concept.associatedBy).getD [] := by
    intro f k
    rw [Option.map_map, Option.map_map]
    exact ⟨rfl, rfl⟩
  constructor <;> intro k
  · rw [(unplaced g k).1, same, ← (unplaced f k).1]
  · rw [(unplaced g k).2, same, ← (unplaced f k).2]

theorem update (f : Forest) (h : Handle) {change : Concept → Concept}
    (associations : ∀ c, (change c).associations = c.associations)
    (associatedBy : ∀ c, (change c).associatedBy = c.associatedBy) :
    f.AssociatedAlike (f.update h change) := by
  constructor <;> intro k
  · rw [associationsOf, get?_update]
    split
    · rw [Option.map_map, associationsOf]
      exact congrArg (Option.getD · []) (Option.map_congr fun c _ => associations c)
    · rfl
  · rw [associatedByOf, get?_update]
    split
    · rw [Option.map_map, associatedByOf]
      exact congrArg (Option.getD · []) (Option.map_congr fun c _ => associatedBy c)
    · rfl

/-- A concept that has just been made is not associated with any other, as a handle that has not
been given out is not. -/
theorem push (f : Forest) (spec : NewConcept) :
    f.AssociatedAlike (f.push (spec.toConcept f.next)) := by
  have dead : f.get? f.next = none := get?_eq_none_of_next_le (Nat.le_refl _)
  constructor <;> intro k
  · rw [associationsOf, get?_push, associationsOf]
    split
    · next new => rw [new, dead]; rfl
    · rfl
  · rw [associatedByOf, get?_push, associatedByOf]
    split
    · next new => rw [new, dead]; rfl
    · rfl

end AssociatedAlike

theorem Rewired.associatedAlike (rewired : f.Rewired g) : f.AssociatedAlike g :=
  .of_unplaced rewired.unplaced_eq

theorem associatedAlike_created (f : Forest) (spec : NewConcept) :
    f.AssociatedAlike (f.created spec) :=
  (AssociatedAlike.push f spec).trans (rewired_created f spec).associatedAlike

theorem associatedAlike_gathered (f : Forest) (members : List Handle) (owner : Handle)
    (place : Nat) : f.AssociatedAlike (f.gathered members owner place) :=
  (AssociatedAlike.push f _).trans (rewired_gathered f members owner place).associatedAlike

/-- What is built is not associated with anything. -/
theorem Grows.associatedAlike {p : Handle} (grows : f.Grows p g) : f.AssociatedAlike g := by
  have each : ∀ k, g.associationsOf k = f.associationsOf k ∧
      g.associatedByOf k = f.associatedByOf k := by
    intro k
    cases now : g.get? k with
    | none =>
      have dead : f.get? k = none := by
        cases was : f.get? k with
        | none => rfl
        | some c =>
          obtain ⟨d, still, -⟩ := grows.get?_of_get? was
          rw [now] at still
          cases still
      simp [associationsOf, associatedByOf, now, dead]
    | some d =>
      rw [associationsOf_of_get? now, associatedByOf_of_get? now]
      rcases grows.get?_cases now with ⟨c, was, -, same⟩ | ⟨new, plain, -⟩
      · rw [associationsOf_of_get? was, associatedByOf_of_get? was]
        have associations := congrArg Concept.associations same
        have associatedBy := congrArg Concept.associatedBy same
        exact ⟨associations, associatedBy⟩
      · have dead : f.get? k = none := get?_eq_none_of_next_le new
        simp [associationsOf, associatedByOf, dead, plain.associations_eq, plain.associatedBy_eq]
  exact ⟨fun k => (each k).1, fun k => (each k).2⟩

theorem associatedAlike_of_built {parent : Handle} {expression : Expression}
    (built : Build.Built f parent expression g) : f.AssociatedAlike g := by
  cases expression with
  | command name args => exact (associatedAlike_created f _).trans (Grows.associatedAlike built)
  | statement | snippet => exact Grows.associatedAlike built

/-- Expressions are built one after the other. -/
theorem associatedAlike_buildExpressions (wf : f.WellFormed) {registry : Registry}
    {parent : Handle} (live : f.contains parent = true) (expressions : List Expression)
    (resolves : Build.Resolves registry (expressions.flatMap Expression.snippets)) :
    f.AssociatedAlike (leftBy (Build.buildExpressions registry parent expressions) f) := by
  induction expressions generalizing f with
  | nil => exact .refl f
  | cons expression expressions ih =>
    obtain ⟨first, others⟩ := Build.resolves_append.mp resolves
    obtain ⟨g, built, shape⟩ := Build.buildExpression_of_resolves wf live expression first
    have more := shape.toExtends wf live
    obtain ⟨hs, d, rest, -⟩ := Build.buildExpressions_of_resolves more.wellFormed
      (more.contains live) expressions others
    have all : Build.buildExpressions registry parent (expression :: expressions) f =
        .ok (f.next :: hs) d := (bind_of_ok built).trans (bind_of_ok rest)
    have last := ih more.wellFormed (more.contains live) others
    rw [leftBy_of_ok rest] at last
    rw [leftBy_of_ok all]
    exact (associatedAlike_of_built shape).trans last

/-! ### New and forgotten associations -/

theorem records_iff {a : Association} :
    f.records source a = true ↔ a ∈ f.associationsOf source := by
  cases live : f.get? source <;> simp [records, associationsOf, live]

theorem associationsOf_associated (live : f.contains source = true)
    (new : f.records source ⟨kind, target⟩ = false) (k : Handle) :
    (f.associated source target kind).associationsOf k =
      f.associationsOf k ++ if source = k then [⟨kind, target⟩] else [] := by
  rw [associationsOf, get?_associated_of_not_records new, associationsOf]
  cases there : f.get? k with
  | some c => rfl
  | none =>
    have other : source ≠ k := by
      rintro rfl
      simp [contains, there] at live
    simp [other]

theorem associatedByOf_associated (live : f.contains target = true)
    (new : f.records source ⟨kind, target⟩ = false) (k : Handle) :
    (f.associated source target kind).associatedByOf k =
      f.associatedByOf k ++ if target = k then [⟨kind, source⟩] else [] := by
  rw [associatedByOf, get?_associated_of_not_records new, associatedByOf]
  cases there : f.get? k with
  | some c => rfl
  | none =>
    have other : target ≠ k := by
      rintro rfl
      simp [contains, there] at live
    simp [other]

theorem nodup_append_of_not_mem {as : List Association} {a : Association} {here : Prop}
    [Decidable here] (nodup : as.Nodup) (new : here → a ∉ as) :
    (as ++ if here then [a] else []).Nodup := by
  split
  · next here =>
    refine List.nodup_append.mpr ⟨nodup, List.nodup_singleton a, ?_⟩
    rintro b mem _ only rfl
    exact new here (List.mem_singleton.mp only ▸ mem)
  · rwa [List.append_nil]

/-- Live concepts may be associated, a concept with itself as well. -/
theorem Linked.associated (linked : f.Linked) (liveSource : f.contains source = true)
    (liveTarget : f.contains target = true) : (f.associated source target kind).Linked := by
  cases known : f.records source ⟨kind, target⟩ with
  | true => rwa [associated_of_records known]
  | false =>
    have new : ⟨kind, target⟩ ∉ f.associationsOf source := by
      rw [← records_iff, known]
      exact Bool.false_ne_true
    have associationsOf_eq := associationsOf_associated liveSource known
    have associatedByOf_eq := associatedByOf_associated liveTarget known
    constructor
    case mem_iff =>
      intro kind' a b
      rw [associationsOf_eq, associatedByOf_eq, List.mem_append, List.mem_append,
        linked.mem_iff]
      apply or_congr_right
      by_cases from_here : source = a <;> by_cases to_here : target = b <;>
        simp [from_here, to_here, eq_comm]
    case nodup_associationsOf =>
      intro a
      rw [associationsOf_eq]
      apply nodup_append_of_not_mem (linked.nodup_associationsOf a)
      rintro rfl
      exact new
    case nodup_associatedByOf =>
      intro b
      rw [associatedByOf_eq]
      apply nodup_append_of_not_mem (linked.nodup_associatedByOf b)
      rintro rfl
      rwa [← linked.mem_iff]

/-- Concepts that become pieces of others are associated one after the other. -/
theorem Linked.pieced (linked : f.Linked) {moved : List (Handle × Handle)}
    (live : ∀ pair ∈ moved, f.contains pair.1 = true ∧ f.contains pair.2 = true) :
    (f.pieced moved).Linked := by
  induction moved generalizing f with
  | nil => exact linked
  | cons pair moved ih =>
    obtain ⟨liveSource, liveTarget⟩ := live pair List.mem_cons_self
    apply ih (linked.associated liveSource liveTarget)
    intro other mem
    have same := (kept_associated f pair.1 pair.2 .piece).contains_eq
    simpa only [same] using live other (List.mem_cons_of_mem _ mem)

theorem get?_dissociated (f : Forest) (source target : Handle) (kind : AssociationKind)
    (k : Handle) :
    (f.dissociated source target kind).get? k = (f.get? k).map fun c =>
      { c with
        associations :=
          if k = source then c.associations.filter (· != ⟨kind, target⟩) else c.associations
        associatedBy :=
          if k = target then c.associatedBy.filter (· != ⟨kind, source⟩) else c.associatedBy } := by
  rw [dissociated, get?_update, get?_update]
  cases f.get? k with
  | none => simp
  | some c =>
    rcases eq_or_ne k source with rfl | from_other <;>
      rcases eq_or_ne k target with rfl | to_other <;> simp [*]

theorem associationsOf_dissociated (f : Forest) (source target : Handle) (kind : AssociationKind)
    (k : Handle) :
    (f.dissociated source target kind).associationsOf k =
      if k = source then (f.associationsOf k).filter (· != ⟨kind, target⟩)
      else f.associationsOf k := by
  rw [associationsOf, get?_dissociated, associationsOf]
  cases f.get? k <;> split <;> simp

theorem associatedByOf_dissociated (f : Forest) (source target : Handle) (kind : AssociationKind)
    (k : Handle) :
    (f.dissociated source target kind).associatedByOf k =
      if k = target then (f.associatedByOf k).filter (· != ⟨kind, source⟩)
      else f.associatedByOf k := by
  rw [associatedByOf, get?_dissociated, associatedByOf]
  cases f.get? k <;> split <;> simp

theorem Linked.dissociated (linked : f.Linked) (source target : Handle) (kind : AssociationKind) :
    (f.dissociated source target kind).Linked where
  mem_iff kind' a b := by
    -- both lists lose the association that is forgotten, and no other
    have source_iff : ⟨kind', b⟩ ∈ (f.dissociated source target kind).associationsOf a ↔
        ⟨kind', b⟩ ∈ f.associationsOf a ∧ ¬ (a = source ∧ b = target ∧ kind' = kind) := by
      rw [associationsOf_dissociated]
      split
      · next here => simp [List.mem_filter, here, and_comm]
      · next elsewhere => simp [elsewhere]
    have target_iff : ⟨kind', a⟩ ∈ (f.dissociated source target kind).associatedByOf b ↔
        ⟨kind', a⟩ ∈ f.associatedByOf b ∧ ¬ (a = source ∧ b = target ∧ kind' = kind) := by
      rw [associatedByOf_dissociated]
      split
      · next here => simp [List.mem_filter, here, and_comm]
      · next elsewhere => simp [elsewhere]
    rw [source_iff, target_iff, linked.mem_iff]
  nodup_associationsOf a := by
    rw [associationsOf_dissociated]
    split
    · exact (linked.nodup_associationsOf a).filter _
    · exact linked.nodup_associationsOf a
  nodup_associatedByOf b := by
    rw [associatedByOf_dissociated]
    split
    · exact (linked.nodup_associatedByOf b).filter _
    · exact linked.nodup_associatedByOf b

/-! ### Releasing -/

/-- The live concepts are among those that are taken out. -/
theorem mem_takeOut_of_get? {hs : List Handle} (mem : h ∈ hs) (live : f.get? h = some c) :
    c ∈ (f.takeOut hs).2 := by
  induction hs generalizing f with
  | nil => cases mem
  | cons first hs ih =>
    by_cases same : h = first
    · subst same
      simp [takeOut, live]
    · apply List.mem_append_right
      apply ih ((List.mem_cons.mp mem).resolve_left same)
      rw [get?_clear, if_neg same, live]

/-- Concepts that are changed one after the other, where a second change does nothing more. -/
theorem get?_foldl_update {change : Concept → Concept} (again : ∀ c, change (change c) = change c)
    (hs : List Handle) (f : Forest) (k : Handle) :
    (hs.foldl (fun g h => g.update h change) f).get? k =
      if k ∈ hs then (f.get? k).map change else f.get? k := by
  induction hs generalizing f with
  | nil => simp
  | cons h hs ih =>
    rw [List.foldl_cons, ih, get?_update]
    rcases eq_or_ne k h with rfl | other
    · cases f.get? k <;> simp [again]
    · simp [other]

/-- The concepts that stay among those of associations. -/
def remaining (doomed : List Handle) (as : List Association) : List Handle :=
  (as.map Association.other).filter (!doomed.contains ·)

theorem mem_remaining_iff {doomed : List Handle} {as : List Association} :
    k ∈ remaining doomed as ↔ k ∉ doomed ∧ ∃ kind, ⟨kind, k⟩ ∈ as := by
  simp only [remaining, List.mem_filter, List.mem_map, Bool.not_eq_true', List.contains_eq_mem,
    decide_eq_false_iff_not]
  constructor
  · rintro ⟨⟨⟨kind, _⟩, mem, rfl⟩, stays⟩
    exact ⟨stays, kind, mem⟩
  · rintro ⟨stays, kind, mem⟩
    exact ⟨⟨_, mem, rfl⟩, stays⟩

/-- What is left of the associations of a concept when released ones are struck, each from those
concepts that it knows. -/
def unstruck (doomed : List Handle) (known : Concept → List Association) (k : Handle)
    (cs : List Concept) (as : List Association) : List Association :=
  as.filter fun a => cs.all fun c => !(remaining doomed (known c)).contains k || a.other != c.handle

theorem unstruck_cons (doomed : List Handle) (known : Concept → List Association) (k : Handle)
    (c : Concept) (cs : List Concept) (as : List Association) :
    unstruck doomed known k (c :: cs) as = unstruck doomed known k cs
      (if k ∈ remaining doomed (known c) then as.filter (·.other != c.handle) else as) := by
  simp only [unstruck, List.all_cons]
  split
  · next here => simp [here, List.filter_filter, Bool.and_comm]
  · next elsewhere => simp [elsewhere]

theorem get?_strike (doomed : List Handle) (f : Forest) (c : Concept) (k : Handle) :
    (strike doomed f c).get? k = (f.get? k).map fun d =>
      { d with
        associations := if k ∈ remaining doomed c.associatedBy then
          d.associations.filter (·.other != c.handle) else d.associations
        associatedBy := if k ∈ remaining doomed c.associations then
          d.associatedBy.filter (·.other != c.handle) else d.associatedBy } := by
  have unfolded : strike doomed f c =
      (remaining doomed c.associatedBy).foldl (fun g h => g.update h fun d =>
          { d with associations := d.associations.filter (·.other != c.handle) })
        ((remaining doomed c.associations).foldl (fun g h => g.update h fun d =>
          { d with associatedBy := d.associatedBy.filter (·.other != c.handle) }) f) := rfl
  rw [unfolded, get?_foldl_update (by simp), get?_foldl_update (by simp)]
  cases f.get? k <;> split <;> split <;> simp

/-- The released concepts are struck from all others. -/
theorem get?_foldl_strike (doomed : List Handle) (cs : List Concept) (f : Forest) (k : Handle) :
    (cs.foldl (strike doomed) f).get? k = (f.get? k).map fun d =>
      { d with
        associations := unstruck doomed Concept.associatedBy k cs d.associations
        associatedBy := unstruck doomed Concept.associations k cs d.associatedBy } := by
  induction cs generalizing f with
  | nil =>
    have all : ∀ known as, unstruck doomed known k [] as = as := by
      intro known as
      simp [unstruck]
    simp [all]
  | cons c cs ih =>
    rw [List.foldl_cons, ih, get?_strike, Option.map_map]
    apply Option.map_congr
    intro d _
    simp [unstruck_cons]

/-- A concept that is released is struck from every concept that it is associated with, so where it
knows all concepts that know it, no association with a released concept is left. -/
theorem unstruck_takeOut (wf : f.WellFormed) {doomed : List Handle}
    {known : Concept → List Association} {as : List Association} (stays : k ∉ doomed)
    (knows : ∀ a ∈ as, ∃ c, f.get? a.other = some c ∧ ⟨a.kind, k⟩ ∈ known c) :
    unstruck doomed known k (f.takeOut doomed).2 as = as.filter (·.other ∉ doomed) := by
  apply List.filter_congr
  intro a mem
  rw [Bool.eq_iff_iff, List.all_eq_true, decide_eq_true_iff]
  constructor
  · intro unstruck gone
    obtain ⟨c, live, known_there⟩ := knows a mem
    have struck := unstruck c (mem_takeOut_of_get? gone live)
    have there : k ∈ remaining doomed (known c) :=
      mem_remaining_iff.mpr ⟨stays, a.kind, known_there⟩
    simp [there, wf.handle_eq live] at struck
  · intro others c taken
    obtain ⟨h, gone, live⟩ := mem_takeOut taken
    have other : a.other ≠ c.handle := by
      rw [wf.handle_eq live]
      rintro rfl
      exact others gone
    simp [other]

section Released

variable (wf : f.WellFormed) (linked : f.Linked) (doomed : List Handle)

include wf linked

/-- What stays of a concept when others are released: all but its associations with them. -/
theorem get?_released (k : Handle) :
    (f.released doomed).get? k = if k ∈ doomed then none else (f.get? k).map fun c =>
      { c with
        associations := c.associations.filter (·.other ∉ doomed)
        associatedBy := c.associatedBy.filter (·.other ∉ doomed) } := by
  rw [released, get?_foldl_strike, get?_without]
  split
  · rfl
  · next stays =>
    apply Option.map_congr
    intro d live
    have associations : unstruck doomed Concept.associatedBy k (f.takeOut doomed).2 d.associations =
        d.associations.filter (·.other ∉ doomed) := by
      apply unstruck_takeOut wf stays
      intro a mem
      rw [← associationsOf_of_get? live] at mem
      exact exists_of_mem_associatedByOf ((linked.mem_iff a.kind k a.other).mp mem)
    have associatedBy : unstruck doomed Concept.associations k (f.takeOut doomed).2 d.associatedBy =
        d.associatedBy.filter (·.other ∉ doomed) := by
      apply unstruck_takeOut wf stays
      intro a mem
      rw [← associatedByOf_of_get? live] at mem
      exact exists_of_mem_associationsOf ((linked.mem_iff a.kind a.other k).mpr mem)
    rw [associations, associatedBy]

theorem associationsOf_released (k : Handle) :
    (f.released doomed).associationsOf k =
      if k ∈ doomed then [] else (f.associationsOf k).filter (·.other ∉ doomed) := by
  rw [associationsOf, get?_released wf linked, associationsOf]
  split
  · rfl
  · cases f.get? k <;> rfl

theorem associatedByOf_released (k : Handle) :
    (f.released doomed).associatedByOf k =
      if k ∈ doomed then [] else (f.associatedByOf k).filter (·.other ∉ doomed) := by
  rw [associatedByOf, get?_released wf linked, associatedByOf]
  split
  · rfl
  · cases f.get? k <;> rfl

/-- The associations that are left are those of two concepts that stay. -/
theorem mem_associationsOf_released (kind : AssociationKind) (a b : Handle) :
    ⟨kind, b⟩ ∈ (f.released doomed).associationsOf a ↔
      ⟨kind, b⟩ ∈ f.associationsOf a ∧ a ∉ doomed ∧ b ∉ doomed := by
  rw [associationsOf_released wf linked]
  split
  · next gone => simp [gone]
  · next stays => simp [List.mem_filter, stays]

theorem Linked.released : (f.released doomed).Linked where
  mem_iff kind a b := by
    rw [mem_associationsOf_released wf linked, associatedByOf_released wf linked, linked.mem_iff]
    split
    · next gone => simp [gone]
    · next stays => simp [List.mem_filter, stays]
  nodup_associationsOf a := by
    rw [associationsOf_released wf linked]
    split
    · exact List.nodup_nil
    · exact (linked.nodup_associationsOf a).filter _
  nodup_associatedByOf b := by
    rw [associatedByOf_released wf linked]
    split
    · exact List.nodup_nil
    · exact (linked.nodup_associatedByOf b).filter _

end Released

/-! ### Requests -/

theorem linked_empty : ({} : Forest).Linked where
  mem_iff kind a b := by simp [associationsOf, associatedByOf, get?]
  nodup_associationsOf _ := List.nodup_nil
  nodup_associatedByOf _ := List.nodup_nil

/-- An edit that is refused without anything done, or granted with an effect under which the
associations still agree, leaves a forest in which they agree. -/
theorem linked_leftBy {ε α : Type} {edit : Edit ε α} (linked : f.Linked)
    (cases : (∃ e, edit f = .error e f) ∨ ∃ a g, edit f = .ok a g ∧ g.Linked) :
    (leftBy edit f).Linked := by
  rcases cases with ⟨e, refused⟩ | ⟨a, g, granted, linked'⟩
  · rwa [leftBy_of_error refused]
  · rwa [leftBy_of_ok granted]

/-- A change of one concept that has nothing to do with associations. -/
theorem linked_change {α : Type} (linked : f.Linked) (h : Handle) {change : Concept → Concept}
    (associations : ∀ c, (change c).associations = c.associations)
    (associatedBy : ∀ c, (change c).associatedBy = c.associatedBy) (answer : Concept → α) :
    (leftBy (Edit.change h change >>= fun c => pure (answer c)) f).Linked := by
  apply linked_leftBy linked
  rcases Edit.answer_cases f h change answer with refused | ⟨c, -, granted⟩
  · exact .inl refused
  · exact .inr ⟨_, _, granted, (AssociatedAlike.update f h associations associatedBy).linked linked⟩

theorem linked_build (wf : f.WellFormed) (linked : f.Linked) (registry : Registry)
    (parent : Handle) (program : Grammar.Program) :
    (leftBy (Edit.build registry parent program) f).Linked := by
  rcases Edit.checked_cases program.snippets
      (Build.buildExpressions registry parent program.expressions) f with
    ⟨e, refused⟩ | ⟨live, resolves, same⟩
  · have refused : Edit.build registry parent program f = .error e f := refused
    rwa [leftBy_of_error refused]
  · have alike := associatedAlike_buildExpressions wf live program.expressions resolves
    have same : Edit.build registry parent program f =
      Build.buildExpressions registry parent program.expressions f := same
    rw [leftBy, same]
    exact alike.linked linked

/-- What one request leaves of a well-formed forest whose associations agree. -/
theorem linked_after (wf : f.WellFormed) (linked : f.Linked) (request : Request) :
    (request.after f).Linked := by
  cases request with
  | create spec =>
    apply linked_leftBy linked
    rcases Edit.create_cases wf spec with refused | ⟨-, granted⟩
    · exact .inl refused
    · exact .inr ⟨_, _, granted, (associatedAlike_created f spec).linked linked⟩
  | insertAt parent child index =>
    apply linked_leftBy linked
    rcases Edit.insertAt_cases wf parent child index with refused | ⟨-, granted⟩
    · exact .inl refused
    · exact .inr ⟨_, _, granted, (rewired_attached _ _ _ _).associatedAlike.linked linked⟩
  | unlink h =>
    apply linked_leftBy linked
    rcases Edit.unlink_cases f h with refused | ⟨-, granted⟩
    · exact .inl refused
    · exact .inr ⟨_, _, granted, (rewired_detached f h).associatedAlike.linked linked⟩
  | release h =>
    apply linked_leftBy linked
    rcases Edit.release_cases wf h with refused | ⟨-, -, doomed, -, granted⟩
    · exact .inl refused
    · exact .inr ⟨_, _, granted, linked.released wf doomed⟩
  | bind h name value => exact linked_change linked h (by simp) (by simp) _
  | bindDefinition h d => exact linked_change linked h (by simp) (by simp) _
  | takeDefinition h => exact linked_change linked h (by simp) (by simp) _
  | addRepresentation h r => exact linked_change linked h (by simp) (by simp) _
  | associate source target kind =>
    apply linked_leftBy linked
    rcases Edit.associate_cases f source target kind with
      refused | ⟨liveSource, liveTarget, granted⟩
    · exact .inl refused
    · exact .inr ⟨_, _, granted, linked.associated liveSource liveTarget⟩
  | dissociate source target kind =>
    apply linked_leftBy linked
    rcases Edit.dissociate_cases f source target kind with refused | ⟨told, granted⟩
    · exact .inl refused
    · exact .inr ⟨_, _, granted, linked.dissociated source target kind⟩
  | lift m =>
    apply linked_leftBy linked
    rcases Edit.lift_cases wf m with
      refused | ⟨h, -, -, granted⟩ | ⟨members, owner, place, moved, gathers, -, former, granted⟩
    · exact .inl refused
    · exact .inr ⟨_, _, granted, linked⟩
    · refine .inr ⟨_, _, granted, ?_⟩
      apply ((associatedAlike_gathered f members owner place).linked linked).pieced
      intro pair mem
      obtain ⟨member, owns⟩ := former pair mem
      simp [gathers.admits.contains pair.1 member, wf.contains_owner owns]
  | buildOne registry parent e =>
    apply linked_leftBy linked
    rcases Edit.buildOne_cases wf registry parent e with refused | ⟨-, g, granted, built⟩
    · exact .inl refused
    · exact .inr ⟨_, g, granted, (associatedAlike_of_built built).linked linked⟩
  | build registry parent program => exact linked_build wf linked registry parent program
  | buildText registry parent text =>
    show (leftBy (Edit.buildText registry parent text) f).Linked
    cases parsed : Grammar.Program.parse text with
    | error reason => rwa [leftBy_of_error (Edit.buildText_of_parse_error parsed)]
    | ok program =>
      rw [leftBy, Edit.buildText_eq parsed]
      exact linked_build wf linked registry parent program

/-- What any requests leave of such a forest, one after the other. -/
theorem linked_afterAll (wf : f.WellFormed) (linked : f.Linked) (requests : List Request) :
    (f.afterAll requests).Linked := by
  induction requests generalizing f with
  | nil => exact linked
  | cons request requests ih =>
    exact ih (evolves_after wf request).wellFormed (linked_after wf linked request)

/-- After a release, granted or refused, the associations are those of two concepts that are still
there. -/
theorem mem_associationsOf_release (wf : f.WellFormed) (linked : f.Linked) (h : Handle)
    (kind : AssociationKind) (a b : Handle) :
    ⟨kind, b⟩ ∈ ((Request.release h).after f).associationsOf a ↔
      ⟨kind, b⟩ ∈ f.associationsOf a ∧ ((Request.release h).after f).contains a = true ∧
        ((Request.release h).after f).contains b = true := by
  show ⟨kind, b⟩ ∈ (leftBy (Edit.release h) f).associationsOf a ↔
    _ ∧ (leftBy (Edit.release h) f).contains a = true ∧
      (leftBy (Edit.release h) f).contains b = true
  rcases Edit.release_cases wf h with ⟨e, refused⟩ | ⟨-, -, doomed, -, granted⟩
  · rw [leftBy_of_error refused]
    exact ⟨fun mem => ⟨mem, linked.contains_ends mem⟩, And.left⟩
  · have stays : ∀ k, (f.released doomed).contains k = true ↔ k ∉ doomed ∧ f.contains k = true := by
      intro k
      rw [(kept_released f doomed).contains_eq, contains, get?_without]
      split
      · next gone => simp [gone]
      · next stays => simp [stays, contains]
    rw [leftBy_of_ok granted, mem_associationsOf_released wf linked, stays, stays]
    constructor
    · rintro ⟨mem, first, second⟩
      obtain ⟨liveFirst, liveSecond⟩ := linked.contains_ends mem
      exact ⟨mem, ⟨first, liveFirst⟩, second, liveSecond⟩
    · rintro ⟨mem, ⟨first, -⟩, second, -⟩
      exact ⟨mem, first, second⟩

/-- What any requests make of the empty forest has every association at both concepts of it, at
neither of them twice, and only between live concepts; and whatever is released after that, exactly
the associations between the concepts that are left are left. -/
theorem associations_afterAll (requests : List Request) :
    let f := ({} : Forest).afterAll requests
    (∀ kind a b, ⟨kind, b⟩ ∈ f.associationsOf a ↔ ⟨kind, a⟩ ∈ f.associatedByOf b) ∧
      (∀ h, (f.associationsOf h).Nodup ∧ (f.associatedByOf h).Nodup) ∧
      (∀ kind a b, ⟨kind, b⟩ ∈ f.associationsOf a → f.contains a = true ∧ f.contains b = true) ∧
      ∀ h kind a b,
        let g := (Request.release h).after f
        ⟨kind, b⟩ ∈ g.associationsOf a ↔
          ⟨kind, b⟩ ∈ f.associationsOf a ∧ g.contains a = true ∧ g.contains b = true := by
  have wf := (evolves_afterAll wellFormed_empty requests).wellFormed
  have linked := linked_afterAll wellFormed_empty linked_empty requests
  refine ⟨linked.mem_iff, ?_, ?_, ?_⟩
  · intro h
    exact ⟨linked.nodup_associationsOf h, linked.nodup_associatedByOf h⟩
  · intro kind a b mem
    exact linked.contains_ends mem
  · intro h kind a b
    exact mem_associationsOf_release wf linked h kind a b

end Forest

end ConceptForest
