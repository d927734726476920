import ConceptForest.Proofs.Forest.Associations
import ConceptForest.Proofs.Forest.Traversals

/-!
What the edits of the edges do to every concept.

An edit of the edges is either refused, and then the forest is left as it was, or it has one effect.
Here the effects are told concept by concept, so that whatever they do not name is seen to stay.

* `Creates`, `Moves`, `Unlinks`, `Releases` — the effects.
* `edits_exact` — creating, moving and unlinking: when they are granted, and what they do.
* `release_exact` — the same of releasing.
-/

namespace ConceptForest

namespace Forest

variable {f g : Forest} {h k parent child : Handle} {index : Nat} {spec : NewConcept}
  {doomed : List Handle}

/-! ### New and moved concepts -/

/-- The second forest has one concept more, with the next handle. It stands last among the children
of its parent, if it has one, and has taken its own children from their owners. -/
structure Creates (f g : Forest) (spec : NewConcept) : Prop where
  next_eq : g.next = f.next + 1
  live_eq : g.live = f.live + 1
  get?_new : g.get? f.next = some
    { spec.toConcept f.next with parent := spec.parent, children := spec.children }
  get?_old : ∀ k, k ≠ f.next → g.get? k = (f.get? k).map fun c =>
    { c with
      parent := if k ∈ spec.children then some f.next else c.parent
      children := c.children.filter (· ∉ spec.children) ++
        if spec.parent = some k then [f.next] else [] }

/-- The child has left the children that it was among, and stands at the index among the children of
the parent. -/
structure Moves (f g : Forest) (parent child : Handle) (index : Nat) : Prop where
  next_eq : g.next = f.next
  live_eq : g.live = f.live
  get?_eq : ∀ k, g.get? k = (f.get? k).map fun c =>
    { c with
      parent := if k = child then some parent else c.parent
      children :=
        if k = parent then (c.children.filter (· != child)).insertIdx index child
        else c.children.filter (· != child) }

/-- The concept has no parent, and its former parent one child less. -/
structure Unlinks (f g : Forest) (h : Handle) : Prop where
  next_eq : g.next = f.next
  live_eq : g.live = f.live
  get?_eq : ∀ k, g.get? k = (f.get? k).map fun c =>
    { c with
      parent := if k = h then none else c.parent
      children := if f.parent? h = some k then c.children.filter (· != h) else c.children }

theorem creates_created (wf : f.WellFormed) (admits : f.Admits spec) :
    f.Creates (f.created spec) spec where
  next_eq := next_created f spec
  live_eq := (rewired_created f spec).live_eq
  get?_new := by
    rw [(rewired_created f spec).get?_eq, get?_push, if_pos rfl, parent?_created admits, if_pos rfl,
      childrenOf_created wf admits, if_pos rfl]
    rfl
  get?_old k old := by
    have same : (f.push (spec.toConcept f.next)).get? k = f.get? k := by
      rw [get?_push, if_neg old]
    rw [← same]
    apply (rewired_created f spec).get?_eq_map
    intro c live
    rw [same] at live
    rw [parent?_created admits, if_neg old, childrenOf_created wf admits, if_neg old,
      parent?_of_get? live, childrenOf_of_get? live]
    exact ⟨rfl, rfl⟩

theorem moves_attached (wf : f.WellFormed) (accepts : f.Accepts parent child index) :
    f.Moves (f.attached parent (some index) child) parent child index where
  next_eq := (rewired_attached f parent _ child).next_eq
  live_eq := (rewired_attached f parent _ child).live_eq
  get?_eq k := by
    apply (rewired_attached f parent _ child).get?_eq_map
    intro c live
    rw [parent?_attached accepts.contains_child, childrenOf_attached wf accepts.contains_parent,
      parent?_of_get? live, childrenOf_of_get? live]
    refine ⟨rfl, ?_⟩
    split
    · next same =>
      subst same
      rw [childrenOf_of_get? live]
      rfl
    · rfl

theorem unlinks_detached (wf : f.WellFormed) (h : Handle) : f.Unlinks (f.detached h) h where
  next_eq := next_detached f h
  live_eq := (rewired_detached f h).live_eq
  get?_eq k := by
    apply (rewired_detached f h).get?_eq_map
    intro c live
    rw [parent?_detached, childrenOf_detached wf, parent?_of_get? live, childrenOf_of_get? live]
    refine ⟨rfl, ?_⟩
    split
    · rfl
    · next other =>
      -- only its parent has the concept among its children
      rw [← childrenOf_of_get? live, List.filter_eq_self]
      intro x mem
      rw [bne_iff_ne]
      rintro rfl
      exact other (wf.mem_childrenOf.mp mem)

/-- In any forest that can come about, each edit of the edges is granted exactly if what it asks for
makes sense, and then has its effect; a refused one leaves the forest as it was. A concept can be
moved under any other one that it does not own, to a place that is there among the other
children. -/
theorem edits_exact (requests : List Request) :
    let f := ({} : Forest).afterAll requests
    (∀ spec, ¬ f.Admits spec ∧ (∃ e, Edit.create spec f = .error e f) ∨
      f.Admits spec ∧ ∃ g, Edit.create spec f = .ok f.next g ∧ f.Creates g spec) ∧
    (∀ parent child index,
      ¬ f.Accepts parent child index ∧ (∃ e, Edit.insertAt parent child index f = .error e f) ∨
      f.Accepts parent child index ∧
        ∃ g, Edit.insertAt parent child index f = .ok () g ∧ f.Moves g parent child index) ∧
    ∀ h, f.contains h = false ∧ (∃ e, Edit.unlink h f = .error e f) ∨
      f.contains h = true ∧ ∃ g, Edit.unlink h f = .ok () g ∧ f.Unlinks g h := by
  intro f
  have wf : f.WellFormed := (evolves_afterAll wellFormed_empty requests).wellFormed
  refine ⟨fun spec => ?_, fun parent child index => ?_, fun h => ?_⟩
  · by_cases admits : f.Admits spec
    · exact .inr ⟨admits, _, Edit.create_of_admits wf admits, creates_created wf admits⟩
    · exact .inl ⟨admits, (Edit.create_cases wf spec).resolve_right fun ⟨holds, _⟩ => admits holds⟩
  · by_cases accepts : f.Accepts parent child index
    · exact .inr ⟨accepts, _, Edit.insertAt_of_accepts wf accepts, moves_attached wf accepts⟩
    · exact .inl ⟨accepts,
        (Edit.insertAt_cases wf parent child index).resolve_right fun ⟨holds, _⟩ => accepts holds⟩
  · cases live : f.contains h with
    | true => exact .inr ⟨rfl, _, Edit.unlink_of_contains live, unlinks_detached wf h⟩
    | false =>
      refine .inl ⟨rfl, (Edit.unlink_cases f h).resolve_right ?_⟩
      rintro ⟨there, -⟩
      rw [live] at there
      cases there

/-! ### Released concepts -/

/-- The doomed concepts are gone, and what others have to do with them is struck. -/
structure Releases (f g : Forest) (doomed : List Handle) : Prop where
  next_eq : g.next = f.next
  live_eq : g.live + doomed.length = f.live
  get?_eq : ∀ k, g.get? k = if k ∈ doomed then none else (f.get? k).map fun c =>
    { c with
      associations := c.associations.filter (·.other ∉ doomed)
      associatedBy := c.associatedBy.filter (·.other ∉ doomed) }

/-- What is left without the concepts that go, and has nothing more to do with them, is counted
right, for the ones that go are all live. -/
theorem releases_released (wf : f.WellFormed) (linked : f.Linked) (root : f.parent? h = none)
    (lists : f.ListsBelow h doomed) (live : f.contains h = true) :
    f.Releases (f.released doomed) doomed where
  next_eq := (kept_released f doomed).next_eq.trans (next_without f doomed)
  live_eq := by
    have left : (f.released doomed).live = (f.takeOut doomed).1.handles.length := by
      rw [(wf.released root lists.mem_iff).live_eq, (kept_released f doomed).handles_eq]
      rfl
    rw [left, ← length_takeOut_of_contains lists.nodup (lists.contains live), Nat.add_comm,
      length_takeOut, wf.live_eq]
  get?_eq := get?_released wf linked doomed

/-- In any forest that can come about, a concept can be released exactly if it is live and has no
parent; else the forest is left as it was. It goes with all that it owns, and they are counted.
Every other concept stays as it is, but for its associations with them. -/
theorem release_exact (requests : List Request) (h : Handle) :
    let f := ({} : Forest).afterAll requests
    f.contains h = false ∧ Edit.release h f = .error (.conceptNotFound h) f ∨
      (∃ p, f.parent? h = some p) ∧ Edit.release h f = .error (.stillAttached h) f ∨
      f.contains h = true ∧ f.parent? h = none ∧
        ∃ doomed g, f.descendants h = .ok doomed ∧ doomed.Nodup ∧
          (∀ k, k ∈ doomed ↔ k = h ∨ f.Owns h k) ∧
          Edit.release h f = .ok doomed.length g ∧ f.Releases g doomed := by
  intro f
  have wf : f.WellFormed := (evolves_afterAll wellFormed_empty requests).wellFormed
  have linked : f.Linked := linked_afterAll wellFormed_empty linked_empty requests
  cases there : f.get? h with
  | none =>
    refine .inl ⟨by simp [contains, there], ?_⟩
    exact bind_of_error (ask_of_error (Forest.doomed · h) (doomed_of_get?_eq_none there))
  | some c =>
    have live := contains_of_get? there
    cases parent : f.parent? h with
    | some p =>
      refine .inr (.inl ⟨⟨p, rfl⟩, ?_⟩)
      exact bind_of_error (ask_of_error (Forest.doomed · h) (doomed_of_parent? parent))
    | none =>
      obtain ⟨doomed, below, lists⟩ := exists_listsBelow wf live
      have releases := releases_released wf linked parent lists live
      have granted := Edit.release_of_doomed ((doomed_of_root live parent).trans below)
      rw [length_takeOut_of_contains lists.nodup (lists.contains live)] at granted
      exact .inr (.inr ⟨live, rfl, doomed, _, below, lists.nodup, lists.mem_iff, granted, releases⟩)

end Forest

end ConceptForest
