import ConceptForest.Proofs.Forest.Creation
import ConceptForest.Proofs.Forest.Release

/-!
What the edits do.

Each edit of a well-formed forest is either refused, and then nothing of it is done, or it has one
effect, which is written down here without steps: `detached` and `attached` for the moves, `created`
for a new concept, `released` for concepts that go. No step that follows the check of an edit is
ever refused.

* `unlink_cases`, `create_cases`, `insertAt_cases`, `release_cases` — what becomes of an edit of the
  edges.
* `answer_cases`, `associate_cases`, `dissociate_cases` — what becomes of a change of concepts in
  their places.
-/

namespace ConceptForest

namespace Forest

variable {f : Forest} {h parent : Handle} {c : Concept}

theorem ask_node_of_get? (live : f.get? h = some c) : ask (fun f => node f h) f = .ok c f :=
  ask_of_ok _ (node_of_get? live)

theorem ask_node_of_get?_eq_none (dead : f.get? h = none) :
    ask (fun f => node f h) f = .error (.conceptNotFound h) f :=
  ask_of_error _ (node_of_get?_eq_none dead)

/-! ### Concepts that are moved -/

/-- The concept can be moved under the parent, to the index among the other children. -/
structure Accepts (f : Forest) (parent child : Handle) (index : Nat) : Prop where
  contains_parent : f.contains parent = true
  contains_child : f.contains child = true
  ne_parent : child ≠ parent
  notOwner : ¬ f.Owns child parent
  within : index ≤ ((f.childrenOf parent).filter (· != child)).length

/-- A child is one of the children that are counted, so there are others to be counted without
it. -/
theorem length_others (wf : f.WellFormed) (parent child : Handle) :
    ((f.childrenOf parent).filter (· != child)).length =
      if f.parent? child = some parent then (f.childrenOf parent).length - 1
      else (f.childrenOf parent).length := by
  rw [← (wf.nodup_childrenOf parent).erase_eq_filter]
  split
  · next owned => rw [List.length_erase_of_mem (wf.mem_childrenOf.mpr owned)]
  · next other => rw [List.erase_of_not_mem fun mem => other (wf.mem_childrenOf.mp mem)]

theorem checkInsert_iff (wf : f.WellFormed) {child : Handle} {index : Nat} :
    f.checkInsert parent child index = .ok () ↔ f.Accepts parent child index := by
  have conditions : f.checkInsert parent child index = .ok () ↔
      f.contains parent = true ∧ f.contains child = true ∧
        f.checkOwnership parent child = .ok () ∧
          index ≤ ((f.childrenOf parent).filter (· != child)).length := by
    rw [length_others wf]
    cases there : f.get? parent with
    | none =>
      have dead : f.contains parent = false := by simp [contains, there]
      simp [checkInsert, node, there, dead]
    | some p =>
      cases live : f.get? child with
      | none =>
        have dead : f.contains child = false := by simp [contains, live]
        simp [checkInsert, node, there, live, dead]
      | some c =>
        simp only [checkInsert, node_of_get? there, node_of_get? live, parent?_of_get? live,
          childrenOf_of_get? there, contains_of_get? there, contains_of_get? live, true_and]
        refine check_bind_eq_ok_iff.trans ?_
        apply and_congr_right
        intro _
        exact refuse_eq_ok_iff.trans Nat.not_lt
  rw [conditions, checkOwnership_iff wf]
  constructor
  · rintro ⟨parent, child, ⟨ne, below⟩, within⟩
    exact ⟨parent, child, ne, below, within⟩
  · rintro ⟨parent, child, ne, below, within⟩
    exact ⟨parent, child, ⟨ne, below⟩, within⟩

theorem WellFormed.attached_of_accepts (wf : f.WellFormed) {child : Handle} {index : Nat}
    (accepts : f.Accepts parent child index) :
    (f.attached parent (some index) child).WellFormed := by
  refine wf.attached accepts.contains_parent accepts.contains_child accepts.ne_parent
    accepts.notOwner ?_
  rintro _ ⟨⟩
  exact accepts.within

end Forest

namespace Edit

open Forest (ask_node_of_get? ask_node_of_get?_eq_none)

variable {f : Forest} {h parent child source target : Handle} {c : Concept} {spec : NewConcept}
  {kind : AssociationKind} {index : Nat} {index? : Option Nat}

/-! ### Changes of one concept -/

theorem change_of_get? (live : f.get? h = some c) (new : Concept → Concept) :
    change h new f = .ok c (f.update h new) := by
  rw [change, bind_of_ok (ask_node_of_get? live)]
  rfl

/-- A concept is changed if it is live. -/
theorem change_cases (f : Forest) (h : Handle) (new : Concept → Concept) :
    (∃ e, change h new f = .error e f) ∨
      ∃ c, f.get? h = some c ∧ change h new f = .ok c (f.update h new) := by
  cases live : f.get? h with
  | none =>
    exact .inl ⟨_, bind_of_error (ask_node_of_get?_eq_none live)⟩
  | some c => exact .inr ⟨c, rfl, change_of_get? live new⟩

/-- A change of a concept that is there is followed by the rest, whatever the concept has been. -/
theorem change_then {β : Type} {rest : Edit ForestError β} {new : Concept → Concept}
    (live : f.contains h = true) : (change h new >>= fun _ => rest) f = rest (f.update h new) := by
  obtain ⟨c, live⟩ := Forest.contains_iff.mp live
  exact bind_of_ok (change_of_get? live new)

/-! ### Moves -/

theorem unlink_of_contains (live : f.contains h = true) : unlink h f = .ok () (f.detached h) := by
  obtain ⟨c, live⟩ := Forest.contains_iff.mp live
  rw [unlink, bind_of_ok (ask_node_of_get? live), Forest.detached,
    Forest.parent?_of_get? live]
  cases c.parent with
  | none => rfl
  | some p =>
    -- the concept is still there after its parent has been changed
    apply change_then
    rw [Forest.contains_update, Forest.contains_of_get? live]

theorem unlink_cases (f : Forest) (h : Handle) :
    (∃ e, unlink h f = .error e f) ∨
      f.contains h = true ∧ unlink h f = .ok () (f.detached h) := by
  cases live : f.get? h with
  | none =>
    exact .inl ⟨_, bind_of_error (ask_node_of_get?_eq_none live)⟩
  | some c =>
    have live := Forest.contains_of_get? live
    exact .inr ⟨live, unlink_of_contains live⟩

theorem attach_of_contains (liveParent : f.contains parent = true)
    (liveChild : f.contains child = true) :
    attach parent index? child f = .ok () (f.attached parent index? child) := by
  rw [attach, bind_of_ok (unlink_of_contains liveChild), change_then]
  · apply change_then
    rw [Forest.contains_update, Forest.contains_detached, liveChild]
  · rw [Forest.contains_detached, liveParent]

/-! ### Edits of the edges -/

theorem forM_attach {children : List Handle} (adoptable : f.Adoptable parent children) :
    children.forM (attach parent none) f = .ok () (f.adopted parent children) := by
  induction children generalizing f with
  | nil => rfl
  | cons child children ih =>
    have first : attach parent none child f = .ok () (f.attached parent none child) :=
      attach_of_contains adoptable.contains_parent (adoptable.contains child List.mem_cons_self)
    exact (bind_of_ok first).trans (ih adoptable.attached)

theorem create_of_admits (wf : f.WellFormed) (admits : f.Admits spec) :
    create spec f = .ok f.next (f.created spec) := by
  have taken := forM_attach admits.adoptable
  have check := (Forest.checkNew_iff wf).mpr admits
  rw [create, bind_of_ok (ask_of_ok (Forest.checkNew · spec) check)]
  refine (bind_of_ok taken).trans ?_
  unfold Forest.created
  cases parent : spec.parent with
  | none => rfl
  | some p =>
    apply bind_of_ok
    apply attach_of_contains
    · show (f.begun spec).contains p = true
      simp [admits.contains_parent p parent]
    · show (f.begun spec).contains f.next = true
      simp

/-- A concept is created if all that its description names is there and no cycle would come of
it. -/
theorem create_cases (wf : f.WellFormed) (spec : NewConcept) :
    (∃ e, create spec f = .error e f) ∨
      f.Admits spec ∧ create spec f = .ok f.next (f.created spec) := by
  cases check : f.checkNew spec with
  | error e => exact .inl ⟨e, bind_of_error (ask_of_error (Forest.checkNew · spec) check)⟩
  | ok _ =>
    have admits := (Forest.checkNew_iff wf).mp check
    exact .inr ⟨admits, create_of_admits wf admits⟩

theorem insertAt_of_accepts (wf : f.WellFormed) (accepts : f.Accepts parent child index) :
    insertAt parent child index f = .ok () (f.attached parent (some index) child) := by
  have check := (Forest.checkInsert_iff wf).mpr accepts
  rw [insertAt, bind_of_ok (ask_of_ok (Forest.checkInsert · parent child index) check)]
  exact attach_of_contains accepts.contains_parent accepts.contains_child

/-- A concept is moved if the place is there and no cycle would come of it. -/
theorem insertAt_cases (wf : f.WellFormed) (parent child : Handle) (index : Nat) :
    (∃ e, insertAt parent child index f = .error e f) ∨
      f.Accepts parent child index ∧
        insertAt parent child index f = .ok () (f.attached parent (some index) child) := by
  cases check : f.checkInsert parent child index with
  | error e =>
    exact .inl ⟨e, bind_of_error (ask_of_error (Forest.checkInsert · parent child index) check)⟩
  | ok _ =>
    have accepts := (Forest.checkInsert_iff wf).mp check
    exact .inr ⟨accepts, insertAt_of_accepts wf accepts⟩

theorem release_of_doomed {doomed : List Handle} (granted : f.doomed h = .ok doomed) :
    release h f = .ok (f.takeOut doomed).2.length (f.released doomed) := by
  rw [release, bind_of_ok (ask_of_ok (Forest.doomed · h) granted), Forest.released, Forest.without,
    ← Forest.live_takeOut f doomed]
  rfl

theorem release_of_root (wf : f.WellFormed) (live : f.contains h = true)
    (root : f.parent? h = none) :
    ∃ doomed, (∀ k, k ∈ doomed ↔ k = h ∨ f.Owns h k) ∧
      release h f = .ok (f.takeOut doomed).2.length (f.released doomed) := by
  obtain ⟨doomed, granted, whole⟩ := Forest.exists_doomed wf live root
  exact ⟨doomed, whole, release_of_doomed granted⟩

/-- A concept is released with all that it owns, if it has no owner itself. -/
theorem release_cases (wf : f.WellFormed) (h : Handle) :
    (∃ e, release h f = .error e f) ∨
      f.contains h = true ∧ f.parent? h = none ∧
        ∃ doomed, (∀ k, k ∈ doomed ↔ k = h ∨ f.Owns h k) ∧
          release h f = .ok (f.takeOut doomed).2.length (f.released doomed) := by
  rcases Forest.doomed_cases wf h with ⟨e, refused⟩ | ⟨live, root, doomed, granted, whole⟩
  · exact .inl ⟨e, bind_of_error (ask_of_error (Forest.doomed · h) refused)⟩
  · exact .inr ⟨live, root, doomed, whole, release_of_doomed granted⟩

/-! ### Changes of concepts in their places -/

/-- A change that gives something of the concept as it was. -/
theorem answer_cases {α : Type} (f : Forest) (h : Handle) (new : Concept → Concept)
    (answer : Concept → α) :
    (∃ e, (change h new >>= fun c => pure (answer c)) f = .error e f) ∨
      ∃ c, f.get? h = some c ∧
        (change h new >>= fun c => pure (answer c)) f = .ok (answer c) (f.update h new) := by
  rcases change_cases f h new with ⟨e, refused⟩ | ⟨c, live, granted⟩
  · exact .inl ⟨e, bind_of_error refused⟩
  · exact .inr ⟨c, live, bind_of_ok granted⟩

theorem bind_of_get? (live : f.get? h = some c) (name : String) (value : Value) :
    bind h name value f = .ok (c.context.get? name)
      (f.update h fun c => { c with context := c.context.bind name value }) :=
  bind_of_ok (change_of_get? live _)

theorem bindDefinition_of_get? (live : f.get? h = some c) (d : Definition) :
    bindDefinition h d f = .ok c.context.definition?
      (f.update h fun c => { c with context := { c.context with definition? := some d } }) :=
  bind_of_ok (change_of_get? live _)

theorem takeDefinition_of_get? (live : f.get? h = some c) :
    takeDefinition h f = .ok c.context.definition?
      (f.update h fun c => { c with context := { c.context with definition? := none } }) :=
  bind_of_ok (change_of_get? live _)

theorem addRepresentation_of_get? (live : f.get? h = some c) (r : Representation) :
    addRepresentation h r f = .ok ()
      (f.update h fun c =>
        { c with representations := r :: c.representations.filter (!r.sameText ·) }) :=
  bind_of_ok (change_of_get? live _)

theorem associate_of_get? (live : f.get? source = some c) (there : f.contains target = true) :
    associate source target kind f = .ok () (f.associated source target kind) := by
  obtain ⟨d, there⟩ := Forest.contains_iff.mp there
  rw [associate, bind_of_ok (ask_node_of_get? there), bind_of_ok (ask_node_of_get? live),
    Forest.associated, live, Option.any_some]
  split
  · rfl
  · rw [change_then (Forest.contains_of_get? live)]
    apply change_then
    rw [Forest.contains_update, Forest.contains_of_get? there]

theorem associate_cases (f : Forest) (source target : Handle) (kind : AssociationKind) :
    (∃ e, associate source target kind f = .error e f) ∨
      f.contains source = true ∧ f.contains target = true ∧
        associate source target kind f = .ok () (f.associated source target kind) := by
  cases there : f.get? target with
  | none => exact .inl ⟨_, bind_of_error (ask_node_of_get?_eq_none there)⟩
  | some d =>
    cases live : f.get? source with
    | none =>
      refine .inl ⟨.conceptNotFound source, (bind_of_ok (ask_node_of_get? there)).trans ?_⟩
      exact bind_of_error (ask_node_of_get?_eq_none live)
    | some c =>
      have there := Forest.contains_of_get? there
      exact .inr ⟨Forest.contains_of_get? live, there, associate_of_get? live there⟩

theorem dissociate_cases (f : Forest) (source target : Handle) (kind : AssociationKind) :
    (∃ e, dissociate source target kind f = .error e f) ∨
      ∃ told, dissociate source target kind f = .ok told (f.dissociated source target kind) := by
  cases there : f.get? target with
  | none => exact .inl ⟨_, bind_of_error (ask_node_of_get?_eq_none there)⟩
  | some d =>
    cases live : f.get? source with
    | none =>
      refine .inl ⟨.conceptNotFound source, (bind_of_ok (ask_node_of_get? there)).trans ?_⟩
      exact bind_of_error (bind_of_error (ask_node_of_get?_eq_none live))
    | some c =>
      refine .inr ⟨c.associations.contains ⟨kind, target⟩, ?_⟩
      rw [dissociate, bind_of_ok (ask_node_of_get? there), bind_of_ok (change_of_get? live _)]
      apply change_then
      rw [Forest.contains_update, Forest.contains_of_get? there]

end Edit

end ConceptForest
