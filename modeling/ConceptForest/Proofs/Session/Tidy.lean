import ConceptForest.Proofs.Forest.Building

/-!
The forest of a session.

While a command is carried out, the concept that it was built as and all below it stand apart from
the rest of the forest; they are going to be released, and all other concepts stay. A forest is tidy
(`Forest.Tidy`) when nothing that stays refers to anything that goes, and everything that stays is
owned, at whatever remove, by one root. Between commands nothing goes (`Forest.AtRest`).

* `Tidy.update`, `Tidy.associated`, `Tidy.gathered` — what commands do to a forest leaves it tidy.
* `AtRest.grown` — so does building an expression that is not a command.
-/

namespace ConceptForest

namespace Forest

variable {f g : Forest} {h k p root top : Handle} {c d : Concept} {going : Handle → Prop}

/-- The concept is live, and is not one of those that go. -/
def Stays (f : Forest) (going : Handle → Prop) (h : Handle) : Prop :=
  f.contains h = true ∧ ¬ going h

/-- What a concept that stays is and refers to. -/
structure Orderly (f : Forest) (going : Handle → Prop) (c : Concept) : Prop where
  kind_ne : c.kind ≠ .command
  identifier_eq : c.identifier = .assigned c.handle
  bound : ∀ name h, (name, Value.concept h) ∈ c.context.bindings → f.Stays going h
  owner_eq : ∀ d, c.context.definition? = some d → d.owner = c.handle
  associations : ∀ a ∈ c.associations, f.Stays going a.other
  associatedBy : ∀ a ∈ c.associatedBy, f.Stays going a.other

/-- The concepts that go are `top` and what it owns, the others are `root` and what it owns, and no
reference leads from the others to them. -/
structure Tidy (f : Forest) (root top : Handle) (going : Handle → Prop) : Prop where
  wellFormed : f.WellFormed
  stays_root : f.Stays going root
  parent?_root : f.parent? root = none
  eq_root : ∀ h, f.Stays going h → f.parent? h = none → h = root
  contains_top : f.contains top = true
  parent?_top : f.parent? top = none
  eq_top : ∀ h, f.contains h = true → going h → f.parent? h = none → h = top
  /-- No concept is going that does not exist yet. -/
  lt_next : ∀ h, going h → h < f.next
  /-- A concept goes exactly if its parent goes. -/
  going_iff : ∀ p h, f.parent? h = some p → (going p ↔ going h)
  orderly : ∀ h c, f.get? h = some c → ¬ going h → f.Orderly going c
  /-- What goes has no associations. -/
  idle : ∀ h c, f.get? h = some c → going h → c.associations = [] ∧ c.associatedBy = []

/-- The forest between commands: nothing goes. -/
abbrev AtRest (f : Forest) (root : Handle) : Prop :=
  f.Tidy root root fun _ => False

/-- A forest is at rest if all is owned by the root, and all concepts are orderly. -/
theorem AtRest.of_root (wf : f.WellFormed) (live : f.contains root = true)
    (parentless : f.parent? root = none)
    (single : ∀ h, f.contains h = true → f.parent? h = none → h = root)
    (orderly : ∀ h c, f.get? h = some c → f.Orderly (fun _ => False) c) : f.AtRest root where
  wellFormed := wf
  stays_root := ⟨live, id⟩
  parent?_root := parentless
  eq_root h stays := single h stays.1
  contains_top := live
  parent?_top := parentless
  eq_top _ _ goes := goes.elim
  lt_next _ goes := goes.elim
  going_iff _ _ _ := Iff.rfl
  orderly h c live _ := orderly h c live
  idle _ _ _ goes := goes.elim

/-- The second forest still has the concepts of the first one, each of its kind and under its
identifier. -/
def Lasts (f g : Forest) : Prop :=
  ∀ h c, f.get? h = some c → ∃ d, g.get? h = some d ∧ d.kind = c.kind ∧ d.identifier = c.identifier

theorem Lasts.refl (f : Forest) : f.Lasts f := fun _ c live => ⟨c, live, rfl, rfl⟩

theorem Lasts.trans {e : Forest} (first : e.Lasts f) (second : f.Lasts g) : e.Lasts g := by
  intro h c live
  obtain ⟨d, live, kind, identifier⟩ := first h c live
  obtain ⟨b, live, kind', identifier'⟩ := second h d live
  exact ⟨b, live, kind'.trans kind, identifier'.trans identifier⟩

/-! ### What stays -/

/-- What stays in one forest may stay in another one, where other concepts go. -/
theorem Orderly.mono (orderly : f.Orderly going c) {gone : Handle → Prop}
    (more : ∀ k, f.Stays going k → g.Stays gone k) : g.Orderly gone c :=
  ⟨orderly.kind_ne, orderly.identifier_eq, fun name h mem => more h (orderly.bound name h mem),
    orderly.owner_eq, fun a mem => more a.other (orderly.associations a mem),
    fun a mem => more a.other (orderly.associatedBy a mem)⟩

/-- Whether a concept is orderly does not hang on its place. -/
theorem Orderly.of_unplaced (orderly : f.Orderly going c) (same : d.unplaced = c.unplaced) :
    f.Orderly going d := by
  cases c
  cases d
  cases same
  exact ⟨orderly.kind_ne, orderly.identifier_eq, orderly.bound, orderly.owner_eq,
    orderly.associations, orderly.associatedBy⟩

/-- A concept that has just been built refers to nothing. -/
theorem Orderly.of_plain (plain : c.Plain) : f.Orderly going c where
  kind_ne := plain.kind_ne
  identifier_eq := plain.identifier_eq
  bound := by simp [plain.bindings_eq]
  owner_eq := plain.owner_eq
  associations := by simp [plain.associations_eq]
  associatedBy := by simp [plain.associatedBy_eq]

namespace Tidy

theorem going_iff_of_owns (tidy : f.Tidy root top going) (owns : f.Owns p h) :
    going p ↔ going h := by
  induction owns with
  | single owned => exact tidy.going_iff _ _ owned
  | tail _ owned ih => exact ih.trans (tidy.going_iff _ _ owned)

theorem stays_of_owns_root (tidy : f.Tidy root top going) (owns : k = root ∨ f.Owns root k) :
    f.Stays going k := by
  rcases owns with rfl | owns
  · exact tidy.stays_root
  · exact ⟨owns.contains,
      fun goes => tidy.stays_root.2 ((tidy.going_iff_of_owns owns).mpr goes)⟩

/-- All that stays is the root or owned by it. -/
theorem owns_root_of_stays (tidy : f.Tidy root top going) (stays : f.Stays going h) :
    h = root ∨ f.Owns root h := by
  induction h using tidy.wellFormed.wellFounded.induction with
  | _ h ih =>
    cases owned : f.parent? h with
    | none => exact .inl (tidy.eq_root h stays owned)
    | some p =>
      have above : f.Stays going p := ⟨tidy.wellFormed.contains_parent owned,
        fun goes => stays.2 ((tidy.going_iff p h owned).mp goes)⟩
      rcases ih p owned above with rfl | owns
      · exact .inr (owns_of_parent? owned)
      · exact .inr (owns.down owned)

/-- All that goes is the top concept or owned by it. -/
theorem owns_top_of_going (tidy : f.Tidy root top going) (live : f.contains h = true)
    (goes : going h) : h = top ∨ f.Owns top h := by
  induction h using tidy.wellFormed.wellFounded.induction with
  | _ h ih =>
    cases owned : f.parent? h with
    | none => exact .inl (tidy.eq_top h live goes owned)
    | some p =>
      have above := (tidy.going_iff p h owned).mpr goes
      rcases ih p owned (tidy.wellFormed.contains_parent owned) above with rfl | owns
      · exact .inr (owns_of_parent? owned)
      · exact .inr (owns.down owned)

/-! ### Changes of one concept -/

/-- A change of a concept that leaves it in its place leaves the forest tidy if it leaves the
concept orderly. -/
theorem update (tidy : f.Tidy root top going) (h : Handle) {change : Concept → Concept}
    (keeps : KeepsPlace change)
    (stay : ∀ c, f.get? h = some c → ¬ going h → f.Orderly going c → f.Orderly going (change c))
    (go : ∀ c, f.get? h = some c → going h →
      (change c).associations = c.associations ∧ (change c).associatedBy = c.associatedBy) :
    (f.update h change).Tidy root top going := by
  have stays : ∀ k, (f.update h change).Stays going k ↔ f.Stays going k := by
    simp [Stays]
  constructor
  case wellFormed => exact tidy.wellFormed.update h keeps
  case stays_root => exact (stays root).mpr tidy.stays_root
  case parent?_root => rw [keeps.parent?_update, tidy.parent?_root]
  case eq_root =>
    intro k live
    rw [keeps.parent?_update]
    exact tidy.eq_root k ((stays k).mp live)
  case contains_top => rw [contains_update, tidy.contains_top]
  case parent?_top => rw [keeps.parent?_update, tidy.parent?_top]
  case eq_top =>
    intro k live
    rw [contains_update] at live
    rw [keeps.parent?_update]
    exact tidy.eq_top k live
  case lt_next =>
    rw [next_update]
    exact tidy.lt_next
  case going_iff =>
    intro p k
    rw [keeps.parent?_update]
    exact tidy.going_iff p k
  case orderly =>
    intro k c live stay'
    rw [get?_update] at live
    apply Orderly.mono _ (fun k => (stays k).mpr)
    split at live
    · next same =>
      subst same
      obtain ⟨d, was, rfl⟩ := Option.map_eq_some_iff.mp live
      exact stay d was stay' (tidy.orderly k d was stay')
    · exact tidy.orderly k c live stay'
  case idle =>
    intro k c live goes
    rw [get?_update] at live
    split at live
    · next same =>
      subst same
      obtain ⟨d, was, rfl⟩ := Option.map_eq_some_iff.mp live
      rw [(go d was goes).1, (go d was goes).2]
      exact tidy.idle k d was goes
    · exact tidy.idle k c live goes

end Tidy

/-- A change that keeps what a concept is keeps what there is in a forest. -/
theorem lasts_update (f : Forest) (h : Handle) {change : Concept → Concept}
    (kind : ∀ c, (change c).kind = c.kind)
    (identifier : ∀ c, (change c).identifier = c.identifier) : f.Lasts (f.update h change) := by
  intro k c live
  rw [get?_update]
  split
  · exact ⟨change c, by rw [live]; rfl, kind c, identifier c⟩
  · exact ⟨c, live, rfl, rfl⟩

/-! ### Associations -/

theorem Orderly.associate (orderly : f.Orderly going c) (stays : f.Stays going h)
    (kind : AssociationKind) :
    f.Orderly going { c with associations := c.associations ++ [⟨kind, h⟩] } := by
  refine { orderly with associations := ?_ }
  intro a mem
  rcases List.mem_append.mp mem with mem | mem
  · exact orderly.associations a mem
  · obtain rfl := List.mem_singleton.mp mem
    exact stays

theorem Orderly.associateBy (orderly : f.Orderly going c) (stays : f.Stays going h)
    (kind : AssociationKind) :
    f.Orderly going { c with associatedBy := c.associatedBy ++ [⟨kind, h⟩] } := by
  refine { orderly with associatedBy := ?_ }
  intro a mem
  rcases List.mem_append.mp mem with mem | mem
  · exact orderly.associatedBy a mem
  · obtain rfl := List.mem_singleton.mp mem
    exact stays

/-- A concept that stays may be associated with another one that stays. -/
theorem Tidy.associated (tidy : f.Tidy root top going) {source target : Handle}
    (source_stays : f.Stays going source) (target_stays : f.Stays going target)
    (kind : AssociationKind) : (f.associated source target kind).Tidy root top going := by
  unfold Forest.associated
  split
  · exact tidy
  · apply update
    · apply tidy.update source (keepsPlace_associations _)
      · intro c _ _ orderly
        exact orderly.associate target_stays kind
      · intro c _ goes
        exact absurd goes source_stays.2
    · exact keepsPlace_associatedBy _
    · intro c _ _ orderly
      apply orderly.associateBy _ kind
      rw [Stays, contains_update]
      exact source_stays
    · intro c _ goes
      exact absurd goes target_stays.2

theorem lasts_associated (f : Forest) (source target : Handle) (kind : AssociationKind) :
    f.Lasts (f.associated source target kind) := by
  unfold associated
  split
  · exact .refl f
  · refine (lasts_update f source ?_ ?_).trans (lasts_update _ target ?_ ?_) <;> exact fun _ => rfl

theorem Tidy.pieced (tidy : f.Tidy root top going) {moved : List (Handle × Handle)}
    (stay : ∀ pair ∈ moved, f.Stays going pair.1 ∧ f.Stays going pair.2) :
    (f.pieced moved).Tidy root top going ∧ f.Lasts (f.pieced moved) := by
  induction moved generalizing f with
  | nil => exact ⟨tidy, .refl f⟩
  | cons pair moved ih =>
    obtain ⟨source, target⟩ := stay pair List.mem_cons_self
    have same := (kept_associated f pair.1 pair.2 .piece).contains_eq
    have others : ∀ other ∈ moved, (f.associated pair.1 pair.2 .piece).Stays going other.1 ∧
        (f.associated pair.1 pair.2 .piece).Stays going other.2 := by
      intro other mem
      simpa only [Stays, same] using stay other (List.mem_cons_of_mem _ mem)
    obtain ⟨rest, lasts⟩ := ih (tidy.associated source target .piece) others
    exact ⟨rest, (lasts_associated f pair.1 pair.2 .piece).trans lasts⟩

/-! ### Gathering -/

theorem unplaced_eq_of_rewired (rewired : f.Rewired g) (live : f.get? h = some c) :
    ∃ d, g.get? h = some d ∧ d.unplaced = c.unplaced := by
  have same := rewired.unplaced_eq h
  rw [live] at same
  exact Option.map_eq_some_iff.mp same

theorem lasts_gathered (f : Forest) (members : List Handle) (owner : Handle) (place : Nat) :
    f.Lasts (f.gathered members owner place) := by
  intro h c live
  have old : (f.push (NewConcept.toConcept { kind := .lifted, children := members }
      f.next)).get? h = some c := by
    rw [get?_push, if_neg (Nat.ne_of_lt (lt_next_of_get? live)), live]
  obtain ⟨d, live, same⟩ := unplaced_eq_of_rewired (rewired_gathered f members owner place) old
  have kind : d.unplaced.kind = c.unplaced.kind := by rw [same]
  have identifier : d.unplaced.identifier = c.unplaced.identifier := by rw [same]
  exact ⟨d, live, kind, identifier⟩

/-- A concept without a parent is not gathered, and the new one has a parent. -/
theorem parentless_gathered_iff (wf : f.WellFormed) {members : List Handle} {owner : Handle}
    {place : Nat} (gathers : f.Gathers members owner place) (k : Handle) :
    (f.gathered members owner place).contains k = true ∧
        (f.gathered members owner place).parent? k = none ↔
      f.contains k = true ∧ f.parent? k = none := by
  rw [contains_gathered, parent?_gathered wf gathers]
  by_cases new : k = f.next
  · subst new
    have dead : f.contains f.next = false := by
      rw [contains, get?_eq_none_of_next_le (Nat.le_refl _), Option.isSome_none]
    simp [dead]
  · by_cases member : k ∈ members
    · obtain ⟨p, owned⟩ := (gathers.owns k member).exists_parent
      simp [new, member, owned]
    · simp [new, member]

/-- Concepts may be gathered under an owner that stays: what it owns stays as well. -/
theorem Tidy.gathered (tidy : f.Tidy root top going) {members : List Handle} {owner : Handle}
    {place : Nat} (gathers : f.Gathers members owner place) (owner_stays : ¬ going owner) :
    (f.gathered members owner place).Tidy root top going := by
  have wf := tidy.wellFormed
  have later := extends_gathered wf gathers
  have rewired := rewired_gathered f members owner place
  have parentless := parentless_gathered_iff wf gathers
  have new_stays : ¬ going f.next := by
    intro goes
    exact Nat.lt_irrefl _ (tidy.lt_next f.next goes)
  have stays : ∀ k, f.Stays going k → (f.gathered members owner place).Stays going k := by
    rintro k ⟨live, stay⟩
    exact ⟨later.contains live, stay⟩
  constructor
  case wellFormed => exact later.wellFormed
  case stays_root => exact stays root tidy.stays_root
  case parent?_root => exact ((parentless root).mpr ⟨tidy.stays_root.1, tidy.parent?_root⟩).2
  case eq_root =>
    rintro k ⟨live, stay⟩ none
    obtain ⟨live, none⟩ := (parentless k).mp ⟨live, none⟩
    exact tidy.eq_root k ⟨live, stay⟩ none
  case contains_top => exact ((parentless top).mpr ⟨tidy.contains_top, tidy.parent?_top⟩).1
  case parent?_top => exact ((parentless top).mpr ⟨tidy.contains_top, tidy.parent?_top⟩).2
  case eq_top =>
    intro k live goes none
    obtain ⟨live, none⟩ := (parentless k).mp ⟨live, none⟩
    exact tidy.eq_top k live goes none
  case lt_next =>
    intro k goes
    exact Nat.lt_of_lt_of_le (tidy.lt_next k goes) later.next_le
  case going_iff =>
    intro p k owned
    rw [parent?_gathered wf gathers] at owned
    split at owned
    · next new =>
      cases owned
      subst new
      exact iff_of_false owner_stays new_stays
    · split at owned
      · next member =>
        cases owned
        have member_stays : ¬ going k := by
          intro goes
          exact owner_stays ((tidy.going_iff_of_owns (gathers.owns k member)).mpr goes)
        exact iff_of_false new_stays member_stays
      · exact tidy.going_iff p k owned
  case orderly =>
    intro k c live stay
    obtain ⟨d, was, same⟩ := rewired.get? live
    apply Orderly.mono (Orderly.of_unplaced _ same) stays
    rw [get?_push] at was
    split at was
    · obtain rfl := Option.some.inj was
      have plain : NewConcept.Plain { kind := .lifted, children := members } :=
        ⟨by simp, rfl, rfl⟩
      exact .of_plain (plain.toConcept f.next)
    · exact tidy.orderly k d was stay
  case idle =>
    intro k c live goes
    obtain ⟨d, was, same⟩ := rewired.get? live
    rw [get?_push] at was
    split at was
    · next new =>
      subst new
      exact absurd goes new_stays
    · have idle := tidy.idle k d was goes
      have associations : c.unplaced.associations = d.unplaced.associations := by rw [same]
      have associatedBy : c.unplaced.associatedBy = d.unplaced.associatedBy := by rw [same]
      exact ⟨associations.trans idle.1, associatedBy.trans idle.2⟩

end Forest

end ConceptForest
