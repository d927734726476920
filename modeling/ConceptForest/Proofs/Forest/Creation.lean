import ConceptForest.Proofs.Forest.Edges
import ConceptForest.Proofs.Steps

/-!
Creating concepts.

A new concept takes its children over, one after the other, and then comes under its parent itself.
`created` is what becomes of a forest in all.

* `checkNew_iff` — a description passes the check exactly if the forest admits it.
* `WellFormed.created` — the forest stays well-formed: a new concept owns nothing but what it takes
  over, and none of that owns its parent.
* `parent?_created`, `childrenOf_created` — all edges afterwards.
-/

namespace ConceptForest

/-! ### Taking concepts over -/

namespace Forest

variable {f g : Forest} {h k p parent : Handle} {c : Concept} {children : List Handle}

/-- What becomes of a forest when concepts are moved under a parent, one after the other. -/
def adopted (f : Forest) (parent : Handle) (children : List Handle) : Forest :=
  children.foldl (fun g child => g.attached parent none child) f

/-- The concepts can be moved under the parent, one after the other. -/
structure Adoptable (f : Forest) (parent : Handle) (children : List Handle) : Prop where
  contains_parent : f.contains parent = true
  contains : ∀ child ∈ children, f.contains child = true
  nodup : children.Nodup
  ne_parent : ∀ child ∈ children, child ≠ parent
  notOwner : ∀ child ∈ children, ¬ f.Owns child parent

/-- A move under a parent changes nothing about the owners of that parent. -/
theorem owns_of_attached {child a : Handle} (live : f.contains child = true) (ne : child ≠ parent)
    (notOwner : ¬ f.Owns child parent) {index? : Option Nat}
    (owns : (f.attached parent index? child).Owns a parent) : f.Owns a parent := by
  have up : ∀ {x}, (f.attached parent index? child).Owns a x → x ≠ child → ¬ f.Owns child x →
      f.Owns a x := by
    intro x owns
    induction owns with
    | single owned =>
      intro ne _
      rw [parent?_attached live, if_neg ne] at owned
      exact owns_of_parent? owned
    | tail _ owned ih =>
      intro ne notOwner
      rw [parent?_attached live, if_neg ne] at owned
      have above := ih
        (by rintro rfl; exact notOwner (owns_of_parent? owned))
        (by intro owns; exact notOwner (owns.down owned))
      exact above.down owned
  exact up owns ne.symm notOwner

/-- After the first concept has been moved the others still can be. -/
theorem Adoptable.attached {child : Handle} (adoptable : f.Adoptable parent (child :: children)) :
    (f.attached parent none child).Adoptable parent children := by
  have first : child ∈ child :: children := List.mem_cons_self
  have rest : ∀ x ∈ children, x ∈ child :: children := by
    intro x mem
    exact List.mem_cons_of_mem child mem
  have contains_eq := (rewired_attached f parent none child).contains_eq
  constructor
  case contains_parent => rw [contains_eq, adoptable.contains_parent]
  case contains =>
    intro x mem
    rw [contains_eq, adoptable.contains x (rest x mem)]
  case nodup => exact (List.nodup_cons.mp adoptable.nodup).2
  case ne_parent =>
    intro x mem
    exact adoptable.ne_parent x (rest x mem)
  case notOwner =>
    intro x mem owns
    apply adoptable.notOwner x (rest x mem)
    exact owns_of_attached (adoptable.contains child first) (adoptable.ne_parent child first)
      (adoptable.notOwner child first) owns

theorem WellFormed.attached_of_adoptable (wf : f.WellFormed) {child : Handle}
    (adoptable : f.Adoptable parent (child :: children)) :
    (f.attached parent none child).WellFormed := by
  have first : child ∈ child :: children := List.mem_cons_self
  exact wf.attached adoptable.contains_parent (adoptable.contains child first)
    (adoptable.ne_parent child first) (adoptable.notOwner child first) (by simp)

theorem WellFormed.adopted (wf : f.WellFormed) (adoptable : f.Adoptable parent children) :
    (f.adopted parent children).WellFormed := by
  induction children generalizing f with
  | nil => exact wf
  | cons child children ih => exact ih (wf.attached_of_adoptable adoptable) adoptable.attached

theorem rewired_adopted (f : Forest) (parent : Handle) (children : List Handle) :
    f.Rewired (f.adopted parent children) := by
  induction children generalizing f with
  | nil => exact .refl f
  | cons child children ih => exact (rewired_attached f parent none child).trans (ih _)

theorem parent?_adopted (adoptable : f.Adoptable parent children) (k : Handle) :
    (f.adopted parent children).parent? k =
      if k ∈ children then some parent else f.parent? k := by
  induction children generalizing f with
  | nil => simp [Forest.adopted]
  | cons child children ih =>
    refine (ih adoptable.attached).trans ?_
    rw [parent?_attached (adoptable.contains child List.mem_cons_self)]
    by_cases first : k = child <;> simp [first]

theorem childrenOf_adopted (wf : f.WellFormed) (adoptable : f.Adoptable parent children)
    (k : Handle) :
    (f.adopted parent children).childrenOf k =
      (f.childrenOf k).filter (· ∉ children) ++ if k = parent then children else [] := by
  induction children generalizing f with
  | nil => simp [Forest.adopted]
  | cons child children ih =>
    have fresh : child ∉ children := (List.nodup_cons.mp adoptable.nodup).1
    have others : ∀ xs : List Handle,
        (xs.filter (· != child)).filter (· ∉ children) = xs.filter (· ∉ child :: children) := by
      intro xs
      rw [List.filter_filter]
      apply List.filter_congr
      intro x _
      by_cases same : x = child <;> simp [same]
    refine (ih (wf.attached_of_adoptable adoptable) adoptable.attached).trans ?_
    rw [childrenOf_attached wf adoptable.contains_parent]
    split
    · next same =>
      subst same
      rw [Edit.withChild, List.filter_append, others, List.append_assoc]
      simp [fresh]
    · rw [others]

/-! ### New concepts -/

/-- The parent and the children that `spec` names are there, and the parent is not below a child. -/
structure Admits (f : Forest) (spec : NewConcept) : Prop where
  contains_parent : ∀ p, spec.parent = some p → f.contains p = true
  contains : ∀ child ∈ spec.children, f.contains child = true
  nodup : spec.children.Nodup
  ne_parent : ∀ p, spec.parent = some p → ∀ child ∈ spec.children, child ≠ p
  notOwner : ∀ p, spec.parent = some p → ∀ child ∈ spec.children, ¬ f.Owns child p

theorem checkOwnership_iff (wf : f.WellFormed) :
    f.checkOwnership p h = .ok () ↔ h ≠ p ∧ ¬ f.Owns h p := by
  rw [checkOwnership, ← isAncestor_iff wf, ← not_or]
  split <;> simp [*]

theorem checkChildren_cons_iff {parent : Option Handle} {before : List Handle} :
    f.checkChildren parent before (h :: children) = .ok () ↔
      f.contains h = true ∧ h ∉ before ∧
        (∀ p, parent = some p → f.checkOwnership p h = .ok ()) ∧
          f.checkChildren parent (h :: before) children = .ok () := by
  rw [checkChildren, bind_eq_ok_iff]
  simp only [exists_and_right, exists_node_iff]
  apply and_congr_right
  intro _
  split
  · next twice =>
    constructor
    · intro passed
      cases passed
    · rintro ⟨once, -⟩
      exact absurd (List.contains_iff_mem.mp twice) once
  · next once =>
    have once : h ∉ before := by simpa using once
    cases parent with
    | none => simp [once]
    | some p => simp [once, check_bind_eq_ok_iff]

theorem checkChildren_iff (wf : f.WellFormed) {parent : Option Handle} {before : List Handle} :
    f.checkChildren parent before children = .ok () ↔
      (∀ child ∈ children, f.contains child = true) ∧ (∀ child ∈ children, child ∉ before) ∧
        children.Nodup ∧
          ∀ p, parent = some p → ∀ child ∈ children, child ≠ p ∧ ¬ f.Owns child p := by
  induction children generalizing before with
  | nil => simp [checkChildren]
  | cons child children ih =>
    rw [checkChildren_cons_iff, ih]
    simp only [checkOwnership_iff wf, List.mem_cons, forall_eq_or_imp, List.nodup_cons, not_or]
    grind

theorem checkNew_iff (wf : f.WellFormed) {spec : NewConcept} :
    f.checkNew spec = .ok () ↔ f.Admits spec := by
  have split : f.checkNew spec = .ok () ↔
      (∀ p, spec.parent = some p → f.contains p = true) ∧
        f.checkChildren spec.parent [] spec.children = .ok () := by
    simp only [checkNew]
    cases spec.parent with
    | none => simp
    | some p => simp [bind_eq_ok_iff, exists_node_iff]
  rw [split, checkChildren_iff wf]
  constructor
  · rintro ⟨parent, live, -, nodup, below⟩
    exact ⟨parent, live, nodup, fun p eq x mem => (below p eq x mem).1,
      fun p eq x mem => (below p eq x mem).2⟩
  · intro admits
    exact ⟨admits.contains_parent, admits.contains, by simp, admits.nodup,
      fun p eq x mem => ⟨admits.ne_parent p eq x mem, admits.notOwner p eq x mem⟩⟩

/-- What becomes of a forest when a concept is created that has no parent yet. -/
def begun (f : Forest) (spec : NewConcept) : Forest :=
  (f.push (spec.toConcept f.next)).adopted f.next spec.children

/-- What becomes of a forest when a concept is created. -/
def created (f : Forest) (spec : NewConcept) : Forest :=
  match spec.parent with
  | none => f.begun spec
  | some p => (f.begun spec).attached p none f.next

section Created

variable {spec : NewConcept}

theorem rewired_created (f : Forest) (spec : NewConcept) :
    (f.push (spec.toConcept f.next)).Rewired (f.created spec) := by
  unfold created
  split
  · exact rewired_adopted _ _ _
  · exact (rewired_adopted _ _ _).trans (rewired_attached _ _ _ _)

@[simp] theorem next_created (f : Forest) (spec : NewConcept) : (f.created spec).next = f.next + 1 := by
  rw [(rewired_created f spec).next_eq, next_push]

@[simp] theorem contains_created (f : Forest) (spec : NewConcept) (k : Handle) :
    (f.created spec).contains k = (decide (k = f.next) || f.contains k) := by
  rw [(rewired_created f spec).contains_eq, contains_push]

@[simp] theorem parent?_push_new (f : Forest) (spec : NewConcept) (k : Handle) :
    (f.push (spec.toConcept f.next)).parent? k = f.parent? k := by
  rw [parent?_push]
  split
  · next new => exact (parent?_of_next_le (Nat.le_of_eq new.symm)).symm
  · rfl

@[simp] theorem childrenOf_push_new (f : Forest) (spec : NewConcept) (k : Handle) :
    (f.push (spec.toConcept f.next)).childrenOf k = f.childrenOf k := by
  rw [childrenOf_push]
  split
  · next new => exact (childrenOf_of_next_le (Nat.le_of_eq new.symm)).symm
  · rfl

theorem WellFormed.push_new (wf : f.WellFormed) (spec : NewConcept) :
    (f.push (spec.toConcept f.next)).WellFormed :=
  wf.push rfl rfl rfl (by simp [NewConcept.toConcept, identityRepresentations])

/-- A concept that has just been made owns nothing, so it can take over any others. -/
theorem Admits.adoptable (admits : f.Admits spec) :
    (f.push (spec.toConcept f.next)).Adoptable f.next spec.children where
  contains_parent := by simp
  contains child mem := by simp [admits.contains child mem]
  nodup := admits.nodup
  ne_parent child mem := Nat.ne_of_lt (lt_next_of_contains (admits.contains child mem))
  notOwner child mem owns := by
    obtain ⟨p, owned⟩ := owns.exists_parent
    rw [parent?_push_new] at owned
    exact Nat.lt_irrefl _ (lt_next_of_contains (contains_of_parent? owned))

/-- What a new concept owns is a child of it, or below one. -/
theorem exists_child_of_owns_begun (wf : f.WellFormed) (admits : f.Admits spec)
    (owns : (f.begun spec).Owns f.next k) :
    ∃ child ∈ spec.children, child = k ∨ f.Owns child k := by
  have parents := fun x => parent?_adopted (admits.adoptable) x
  simp only [parent?_push_new] at parents
  induction owns with
  | single owned =>
    rw [begun, parents] at owned
    split at owned
    · next mem => exact ⟨_, mem, .inl rfl⟩
    · exact absurd owned (wf.parent?_ne_next _)
  | tail _ owned ih =>
    rw [begun, parents] at owned
    split at owned
    · next mem => exact ⟨_, mem, .inl rfl⟩
    · obtain ⟨child, mem, above⟩ := ih
      refine ⟨child, mem, .inr ?_⟩
      rcases above with rfl | above
      · exact owns_of_parent? owned
      · exact above.down owned

theorem WellFormed.begun (wf : f.WellFormed) (admits : f.Admits spec) :
    (f.begun spec).WellFormed :=
  (wf.push_new spec).adopted (admits.adoptable)

@[simp] theorem contains_begun (f : Forest) (spec : NewConcept) (k : Handle) :
    (f.begun spec).contains k = (decide (k = f.next) || f.contains k) := by
  rw [begun, (rewired_adopted _ _ _).contains_eq, contains_push]

theorem WellFormed.created (wf : f.WellFormed) (admits : f.Admits spec) :
    (f.created spec).WellFormed := by
  unfold Forest.created
  split
  · exact wf.begun admits
  · next p parent =>
    have live := admits.contains_parent p parent
    have ne : f.next ≠ p := Nat.ne_of_gt (lt_next_of_contains live)
    refine (wf.begun admits).attached ?_ ?_ ne ?_ (by simp)
    · simp [live]
    · simp
    · intro owns
      obtain ⟨child, mem, rfl | above⟩ := exists_child_of_owns_begun wf admits owns
      · exact admits.ne_parent child parent child mem rfl
      · exact admits.notOwner p parent child mem above

theorem parent?_begun (admits : f.Admits spec) (k : Handle) :
    (f.begun spec).parent? k = if k ∈ spec.children then some f.next else f.parent? k := by
  rw [begun, parent?_adopted admits.adoptable, parent?_push_new]

theorem childrenOf_begun (wf : f.WellFormed) (admits : f.Admits spec) (k : Handle) :
    (f.begun spec).childrenOf k =
      (f.childrenOf k).filter (· ∉ spec.children) ++ if k = f.next then spec.children else [] := by
  rw [begun, childrenOf_adopted (wf.push_new spec) admits.adoptable, childrenOf_push_new]

theorem Admits.next_not_mem (admits : f.Admits spec) : f.next ∉ spec.children := by
  intro mem
  exact Nat.lt_irrefl _ (lt_next_of_contains (admits.contains _ mem))

theorem parent?_created (admits : f.Admits spec) (k : Handle) :
    (f.created spec).parent? k =
      if k = f.next then spec.parent
      else if k ∈ spec.children then some f.next else f.parent? k := by
  unfold Forest.created
  split
  · next parent =>
    rw [parent?_begun admits]
    split
    · next mem =>
      have old : k ≠ f.next := by
        rintro rfl
        exact admits.next_not_mem mem
      rw [if_neg old]
    · split
      · next new => rw [parent, parent?_of_next_le (Nat.le_of_eq new.symm)]
      · rfl
  · next p parent =>
    rw [parent?_attached (by simp), parent?_begun admits, parent]

theorem childrenOf_created (wf : f.WellFormed) (admits : f.Admits spec) (k : Handle) :
    (f.created spec).childrenOf k =
      if k = f.next then spec.children
      else (f.childrenOf k).filter (· ∉ spec.children) ++
        if spec.parent = some k then [f.next] else [] := by
  have begun := childrenOf_begun wf admits
  unfold Forest.created
  split
  · next parent =>
    rw [begun]
    split
    · next new => rw [childrenOf_of_next_le (Nat.le_of_eq new.symm)]; simp
    · simp [parent]
  · next p parent =>
    have live := admits.contains_parent p parent
    have ne : p ≠ f.next := Nat.ne_of_lt (lt_next_of_contains live)
    -- the new concept is nobody's child yet
    have kept :
        ((f.begun spec).childrenOf k).filter (· != f.next) = (f.begun spec).childrenOf k := by
      rw [List.filter_eq_self]
      intro x mem
      rw [bne_iff_ne]
      rintro rfl
      have owned := (wf.begun admits).mem_childrenOf.mp mem
      rw [parent?_begun admits, if_neg admits.next_not_mem] at owned
      rw [parent?_of_next_le (Nat.le_refl _)] at owned
      cases owned
    rw [childrenOf_attached (wf.begun admits) (by simp [live])]
    split
    · next same =>
      subst same
      rw [kept, begun, if_neg ne, if_neg ne, if_pos parent, List.append_nil]
      rfl
    · next other =>
      have other : spec.parent ≠ some k := by simpa [parent] using Ne.symm other
      rw [kept, begun, if_neg other, List.append_nil]
      split
      · next new => rw [childrenOf_of_next_le (Nat.le_of_eq new.symm)]; simp
      · simp

end Created

end Forest

end ConceptForest
